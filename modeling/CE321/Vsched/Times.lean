import CE321.Vsched.Handover
import CE321.Vsched.Runs

/-! # What the functions do to the times of tasks

The execution time, the time of birth and the time at which a task got the CPU, through the
functions of `schedule.c` and `cpu.c`. Links and flags do not matter here.
-/

namespace CE321.Vsched

/-- The fields that the timing results and the choice of the shortest job depend on. -/
def TaskStruct.times (t : TaskStruct) : Nat × Nat × Nat × Nat × Nat :=
  (t.xe, t.xd, t.cpuOwned, t.burst, t.expBurst)

/-- Time may pass, and nobody is forked, killed or switched to. -/
structure Passes (vm vm' : Vm) : Prop where
  jiffies : vm.jiffies ≤ vm'.jiffies
  results : vm'.results = vm.results
  current : vm'.current = vm.current
  live : vm'.live = vm.live
  killed : vm'.killed = vm.killed
  times : ∀ task, (vm'.task task).times = (vm.task task).times

/-- Nor does any time pass. -/
structure Timeless (vm vm' : Vm) : Prop where
  passes : Passes vm vm'
  jiffies : vm'.jiffies = vm.jiffies

/-- New tasks are made, and time stands still. -/
structure Spawned (vm vm' : Vm) (born : List Task) : Prop where
  jiffies : vm'.jiffies = vm.jiffies
  results : vm'.results = vm.results
  current : vm'.current = vm.current
  live : vm'.live = born ++ vm.live
  killed : vm'.killed = vm.killed
  older : ∀ task, task ∉ born → (vm'.task task).times = (vm.task task).times
  newborn : ∀ task ∈ born, (vm'.task task).times = (0, schedClock vm, 0, 0, 0)

/-- The line of the timing results that is written when the current task is killed. -/
def timingResult (vm : Vm) : Task × Nat × Nat × Nat :=
  let t := vm.task vm.current
  let xd := sub64 (schedClock vm) t.xd
  (vm.current, t.xe / 1000000, xd / 1000000, sub64 xd t.xe / 1000000)

/-- The current task is killed. -/
structure Died (vm vm' : Vm) : Prop where
  jiffies : vm'.jiffies = vm.jiffies
  results : vm'.results = vm.results ++ if vm.current = .init then [] else [timingResult vm]
  current : vm'.current = .idle
  live : vm'.live = vm.live.erase vm.current
  killed : vm'.killed = vm.current :: vm.killed
  times : ∀ task, task ≠ vm.current → (vm'.task task).times = (vm.task task).times

/-- What a switch of tasks does to the times. A task that is chosen again keeps them; the
branches for one and two tasks forget the stay of the outgoing task; and the other branch
adds it to the execution time. -/
inductive Switch (vm next : Vm) : Prop
  | keeps (current : next.current = vm.current)
      (times : ∀ task, (next.task task).times = (vm.task task).times)
      (many : vm.nrRunning ≠ 1 ∧ vm.nrRunning ≠ 2)
  | forgets (few : vm.nrRunning = 1 ∨ vm.nrRunning = 2)
      (xe : ∀ task, (next.task task).xe = (vm.task task).xe)
      (owned : next.current = vm.head ∨ (next.task next.current).cpuOwned = schedClock vm)
  | credits (leaves : next.current ≠ vm.current)
      (xe : ∀ task, (next.task task).xe = if task = vm.current then
        ((vm.task task).xe + stayed vm % 2 ^ 32) % 2 ^ 64 else (vm.task task).xe)
      (owned : (next.task next.current).cpuOwned = schedClock vm)
      (many : vm.nrRunning ≠ 1 ∧ vm.nrRunning ≠ 2)

/-- The CPU goes over from a task to another one, and time stands still. -/
structure Handover (vm next : Vm) : Prop where
  jiffies : next.jiffies = vm.jiffies
  results : next.results = vm.results
  live : next.live = vm.live
  killed : next.killed = vm.killed
  xd : ∀ task, (next.task task).xd = (vm.task task).xd
  switch : Switch vm next

/-- The current task ends in the cycle that is about to start: it is to end before or after
its next unit of work, and has no children. -/
def goesDown (setup : Setup) (vm : Vm) : Bool :=
  decide ((vm.info vm.current).children = 0) &&
    (isEnding setup vm ||
      (decide (setup.profile.threadType vm.current ≠ .init) &&
        (vm.info vm.current).workDuration == 1))

/-- The parts of a cycle. Init only makes tasks, and a process works before it does. -/
inductive Parts (setup : Setup) (vm vm' : Vm) : Prop
  | ends (ended : taskEnd setup vm = some (true, vm'))
  | inits {first : Vm} (lasts : taskEnd setup vm = some (false, first))
      (isInit : setup.profile.threadType first.current = .init)
      (spawned : spawnAll setup first = some vm')
  | finishes {first : Vm} (lasts : taskEnd setup vm = some (false, first))
      (isProcess : setup.profile.threadType first.current ≠ .init)
      (finished : work setup first = some (true, vm'))
  | worksOn {first worked asleep : Vm} (lasts : taskEnd setup vm = some (false, first))
      (isProcess : setup.profile.threadType first.current ≠ .init)
      (worksOn : work setup first = some (false, worked))
      (sleeps : asleep = worked ∨ tickSleep worked = some asleep)
      (spawned : spawnAll setup asleep = some vm')

/-- What a step of the machine does to the times. -/
inductive Timed (setup : Setup) (vm next : Vm) : Prop
  | passes (places : vm.pc = .tick ∨ vm.pc = .io ∨ vm.pc = .endCycle) (passes : Passes vm next)
  | switches (schedules : Schedules vm) (handover : Handover vm next)
  | spawns (pc : vm.pc = .cycle) (lives : goesDown setup vm = false) {born : List Task}
      (spawned : Spawned vm next born)
  | dies (pc : vm.pc = .cycle) (goes : goesDown setup vm = true) (died : Died vm next)

section

variable {setup : Setup} {vm vm' vm'' : Vm}

/-! ## Changes that leave the times alone -/

theorem times_eq {t t' : TaskStruct} (same : t'.times = t.times) :
    t'.xe = t.xe ∧ t'.xd = t.xd ∧ t'.cpuOwned = t.cpuOwned ∧ t'.burst = t.burst ∧
      t'.expBurst = t.expBurst := by
  simpa [TaskStruct.times] using same

theorem Timeless.refl (vm : Vm) : Timeless vm vm :=
  ⟨⟨Nat.le_refl _, rfl, rfl, rfl, rfl, fun _ => rfl⟩, rfl⟩

theorem Passes.trans (first : Passes vm vm') (second : Passes vm' vm'') : Passes vm vm'' where
  jiffies := first.jiffies.trans second.jiffies
  results := second.results.trans first.results
  current := second.current.trans first.current
  live := second.live.trans first.live
  killed := second.killed.trans first.killed
  times := fun task => (second.times task).trans (first.times task)

theorem Timeless.trans (first : Timeless vm vm') (second : Timeless vm' vm'') :
    Timeless vm vm'' :=
  ⟨first.passes.trans second.passes, second.jiffies.trans first.jiffies⟩

theorem times_setTask (vm : Vm) (task : Task) {change : TaskStruct → TaskStruct}
    (times : (change (vm.task task)).times = (vm.task task).times) (other : Task) :
    ((vm.setTask task change).task other).times = (vm.task other).times := by
  by_cases same : other = task
  · subst same
    simpa [Vm.setTask] using times
  · simp [Vm.setTask, same]

theorem timeless_setTask (vm : Vm) (task : Task) {change : TaskStruct → TaskStruct}
    (times : (change (vm.task task)).times = (vm.task task).times) :
    Timeless vm (vm.setTask task change) :=
  ⟨⟨Nat.le_refl _, rfl, rfl, rfl, rfl, times_setTask vm task times⟩, rfl⟩

theorem Timeless.timingResult (timeless : Timeless vm vm') :
    timingResult vm' = timingResult vm := by
  have times := timeless.passes.times vm.current
  simp only [TaskStruct.times, Prod.mk.injEq] at times
  simp only [Vsched.timingResult, schedClock_congr timeless.jiffies, timeless.passes.current, times.1,
    times.2.1]

/-! ## The run queue -/

theorem linkBehindHead_timeless (vm : Vm) (first p : Task) :
    Timeless vm (linkBehindHead vm first p) := by
  refine ⟨⟨Nat.le_refl _, rfl, rfl, rfl, rfl, fun task => ?_⟩, rfl⟩
  simp only [linkBehindHead, Vm.setTask, Function.update_apply]
  split_ifs <;> simp_all [TaskStruct.times]

theorem enqueue_timeless {p : Task} (done : enqueue setup vm p = some vm') : Timeless vm vm' := by
  simp only [enqueue, Option.bind_eq_bind, Option.bind_eq_some_iff] at done
  rcases done with ⟨first, -, linked⟩
  have queued : Timeless vm
      { linkBehindHead vm first p with nrRunning := (linkBehindHead vm first p).nrRunning + 1 } :=
    (linkBehindHead_timeless vm first p).trans
      ⟨⟨Nat.le_refl _, rfl, rfl, rfl, rfl, fun _ => rfl⟩, rfl⟩
  cases scheduler : setup.scheduler with
  | sjf =>
      rw [scheduler] at linked
      exact Option.some.inj linked ▸ queued
  | sjfGoodness =>
      rw [scheduler] at linked
      rw [← Option.some.inj linked]
      apply queued.trans
      apply timeless_setTask
      simp only [TaskStruct.times]

theorem deactivateTask_timeless {p : Task} (done : deactivateTask vm p = some vm') :
    Timeless vm vm' := by
  unfold deactivateTask at done
  rcases Option.bind_eq_some_iff.mp done with ⟨left, -, done⟩
  rcases Option.bind_eq_some_iff.mp done with ⟨right, -, done⟩
  cases done
  refine ⟨⟨Nat.le_refl _, rfl, rfl, rfl, rfl, fun task => ?_⟩, rfl⟩
  simp only [Vm.setTask, Function.update_apply]
  split_ifs <;> simp_all [TaskStruct.times]

/-! ## Forking -/

theorem Timeless.spawned (timeless : Timeless vm vm') : Spawned vm vm' [] where
  jiffies := timeless.jiffies
  results := timeless.passes.results
  current := timeless.passes.current
  live := timeless.passes.live
  killed := timeless.passes.killed
  older := fun task _ => timeless.passes.times task
  newborn := fun _ isBorn => absurd isBorn List.not_mem_nil

theorem Spawned.trans {born born' : List Task} (first : Spawned vm vm' born)
    (second : Spawned vm' vm'' born') : Spawned vm vm'' (born' ++ born) where
  jiffies := second.jiffies.trans first.jiffies
  results := second.results.trans first.results
  current := second.current.trans first.current
  live := by rw [second.live, first.live, List.append_assoc]
  killed := second.killed.trans first.killed
  older := by
    intro task unborn
    rw [List.mem_append, not_or] at unborn
    rw [second.older task unborn.1, first.older task unborn.2]
  newborn := by
    intro task isBorn
    by_cases later : task ∈ born'
    · rw [second.newborn task later, schedClock_congr first.jiffies]
    · rw [second.older task later]
      exact first.newborn task ((List.mem_append.mp isBorn).resolve_left later)

theorem newTask_times (setup : Setup) (vm : Vm) (child : Nat) :
    ((newTask setup vm child).task (.process child)).times = (0, schedClock vm, 0, 0, 0) := by
  simp only [newTask]
  split
  · simp [schedFork, Vm.setTask, Vm.setInfo, TaskStruct.times, schedClock]
  · simp [schedFork, Vm.setTask, Vm.setInfo, TaskStruct.times, schedClock]

theorem newTask_spawned (setup : Setup) (vm : Vm) (child : Nat) :
    Spawned vm { newTask setup vm child with live := .process child :: vm.live }
      [.process child] := by
  rcases @newTask_rest setup vm child with ⟨task, info, made⟩
  refine ⟨?_, ?_, ?_, rfl, ?_, ?_, ?_⟩
  · show (newTask setup vm child).jiffies = _
    rw [made]
  · show (newTask setup vm child).results = _
    rw [made]
  · show (newTask setup vm child).current = _
    rw [made]
  · show (newTask setup vm child).killed = _
    rw [made]
  · intro task unborn
    have other : task ≠ .process child := fun same => unborn (List.mem_singleton.mpr same)
    show ((newTask setup vm child).task task).times = _
    rw [newTask_task other]
  · intro task isBorn
    rw [List.mem_singleton.mp isBorn]
    exact newTask_times setup vm child

theorem forktask_spawned {child : Nat} (done : forktask setup vm child = some vm') :
    Spawned vm vm' [.process child] := by
  unfold forktask at done
  rcases Option.bind_eq_some_iff.mp done with ⟨woken, enqueued, done⟩
  cases done
  have timeless := (enqueue_timeless enqueued).trans
    (@timeless_setTask woken woken.current (fun t => { t with needReschedule := true }) rfl)
  have spawned := newTask_spawned setup vm child
  rcases @newTask_rest setup vm child with ⟨task, info, made⟩
  have live : woken.live = vm.live := by
    rw [(enqueue_timeless enqueued).passes.live, made]
  exact ⟨timeless.jiffies.trans spawned.jiffies, timeless.passes.results.trans spawned.results,
    timeless.passes.current.trans spawned.current, congrArg (Task.process child :: ·) live,
    timeless.passes.killed.trans spawned.killed,
    fun task unborn => (timeless.passes.times task).trans (spawned.older task unborn),
    fun task isBorn => (timeless.passes.times task).trans (spawned.newborn task isBorn)⟩

theorem spawnLoop_spawned {parent : Task} (todo : List Nat) :
    ∀ {vm vm' : Vm}, spawnLoop setup parent todo vm = some vm' → ∃ born, Spawned vm vm' born := by
  induction todo with
  | nil =>
      intro vm vm' done
      cases done
      exact ⟨[], (Timeless.refl vm).spawned⟩
  | cons child rest induction =>
      intro vm vm' done
      simp only [spawnLoop] at done
      split_ifs at done
      · rcases Option.bind_eq_some_iff.mp done with ⟨forked, forks, done⟩
        have marked : Timeless forked (forked.setInfo parent fun info =>
            { info with list := info.list.erase child }) :=
          ⟨⟨Nat.le_refl _, rfl, rfl, rfl, rfl, fun _ => rfl⟩, rfl⟩
        rcases induction done with ⟨born, spawned⟩
        exact ⟨_, (forktask_spawned forks).trans (marked.spawned.trans spawned)⟩
      · exact induction done

theorem spawnChildren_spawned {parent : Task} (done : spawnChildren setup vm parent = some vm') :
    ∃ born, Spawned vm vm' born := by
  unfold spawnChildren at done
  split_ifs at done
  · exact spawnLoop_spawned _ done
  · cases done
    exact ⟨[], (Timeless.refl vm).spawned⟩

theorem armIntTimer_timeless (setup : Setup) (vm : Vm) : Timeless vm (armIntTimer setup vm) := by
  unfold armIntTimer
  split_ifs
  · exact ⟨⟨Nat.le_refl _, rfl, rfl, rfl, rfl, fun _ => rfl⟩, rfl⟩
  · exact Timeless.refl vm

theorem spawnAll_spawned (done : spawnAll setup vm = some vm') : ∃ born, Spawned vm vm' born := by
  unfold spawnAll at done
  rcases Option.bind_eq_some_iff.mp done with ⟨middle, ofCurrent, ofInit⟩
  rcases spawnChildren_spawned ofCurrent with ⟨born, spawned⟩
  rcases spawnChildren_spawned ofInit with ⟨born', spawned'⟩
  exact ⟨_, (armIntTimer_timeless setup vm).spawned.trans (spawned.trans spawned')⟩

/-! ## Sleeping and waking up -/

theorem goToSleep_timeless (done : goToSleep vm = some vm') : Timeless vm vm' := by
  unfold goToSleep at done
  rcases Option.bind_eq_some_iff.mp done with ⟨left, deactivated, done⟩
  rw [← Option.some.inj done]
  have listed : Timeless vm { vm with
      intWaitTimer := vm.intWaitTimer - 1
      intwaitlist := vm.intwaitlist ++ [vm.current] } :=
    ⟨⟨Nat.le_refl _, rfl, rfl, rfl, rfl, fun _ => rfl⟩, rfl⟩
  exact listed.trans ((deactivateTask_timeless deactivated).trans (timeless_setTask _ _ rfl))

theorem tickSleep_timeless (done : tickSleep vm = some vm') : Timeless vm vm' := by
  rcases intWaitTimer_counts vm with ⟨intWaitTimer, ticked⟩
  have timeless : Timeless vm { vm with intWaitTimer := intWaitTimer } :=
    ⟨⟨Nat.le_refl _, rfl, rfl, rfl, rfl, fun _ => rfl⟩, rfl⟩
  simp only [tickSleep, ticked] at done
  split_ifs at done
  · exact timeless.trans (goToSleep_timeless done)
  · exact Option.some.inj done ▸ timeless

theorem wakeAll_timeless (asleep : List Task) :
    ∀ {vm vm' : Vm}, wakeAll setup asleep vm = some vm' → Timeless vm vm' := by
  induction asleep with
  | nil =>
      intro vm vm' done
      exact Option.some.inj done ▸ Timeless.refl vm
  | cons task rest induction =>
      intro vm vm' done
      rcases Option.bind_eq_some_iff.mp done with ⟨woken, enqueued, done⟩
      have unlisted : Timeless woken
          { woken with intwaitlist := woken.intwaitlist.erase task } :=
        ⟨⟨Nat.le_refl _, rfl, rfl, rfl, rfl, fun _ => rfl⟩, rfl⟩
      exact (enqueue_timeless enqueued).trans (unlisted.trans (induction done))

theorem ioEvent_timeless (done : ioEvent setup vm = some vm') : Timeless vm vm' := by
  rcases intTimer_counts vm with ⟨intTimer, ticked, -⟩
  have timeless : ∀ intTimer, Timeless vm { vm with intTimer := intTimer } := fun _ =>
    ⟨⟨Nat.le_refl _, rfl, rfl, rfl, rfl, fun _ => rfl⟩, rfl⟩
  simp only [ioEvent, ticked] at done
  split_ifs at done
  · rcases Option.bind_eq_some_iff.mp done with ⟨woken, wakes, done⟩
    rw [← Option.some.inj done]
    exact (timeless _).trans ((wakeAll_timeless _ wakes).trans (timeless_setTask _ _ rfl))
  · exact Option.some.inj done ▸ timeless _

/-! ## Killing -/

theorem report_results (vm : Vm) : (report vm vm.current).results =
    vm.results ++ if vm.current = .init then [] else [timingResult vm] := by
  by_cases isInit : vm.current = .init
  · simp [report, isInit, Vm.setTask]
  · simp only [report, timingResult, isInit, ne_eq, not_false_eq_true, if_true, if_false]
    simp [Vm.setTask, schedClock]

theorem report_times (vm : Vm) {task : Task} (other : task ≠ vm.current) :
    ((report vm vm.current).task task).times = (vm.task task).times := by
  simp only [report]
  split_ifs
  · simp [Vm.setTask, other]
  · simp [Vm.setTask, other]

theorem killtask_results (setup : Setup) (vm : Vm) :
    (killtask setup vm).results = (report vm vm.current).results := by
  cases isParent : setup.profile.parent vm.current with
  | none =>
      simp only [killtask, isParent, apply_ite Vm.results]
      exact ite_self _
  | some of =>
      simp only [killtask, isParent, apply_ite Vm.results]
      exact ite_self _

theorem killtask_times (setup : Setup) (vm : Vm) (other : Task) :
    ((killtask setup vm).task other).times = ((report vm vm.current).task other).times := by
  cases isParent : setup.profile.parent vm.current with
  | none =>
      simp only [killtask, isParent]
      split_ifs
      · exact times_setTask _ .idle rfl other
      · rfl
  | some of =>
      simp only [killtask, isParent]
      split_ifs
      · exact times_setTask _ .idle rfl other
      · rfl

theorem killtask_died (setup : Setup) (vm : Vm) : Died vm (killtask setup vm) := by
  rcases killtask_rest setup vm with ⟨task, info, results, killed⟩
  refine ⟨?_, (killtask_results setup vm).trans (report_results vm), ?_, ?_, ?_, ?_⟩
  · rw [killed]
  · rw [killed]
  · rw [killed]
  · rw [killed]
  · intro other away
    exact (killtask_times setup vm other).trans (report_times vm away)

/-! ## A cycle -/

/-- What `taskEnd` and `work` make of the current task, if it is known whether it ends. -/
def Ends (vm : Vm) (ends : Bool) : Bool × Vm → Prop
  | (ended, vm') => ended = ends ∧ if ends then Died vm vm' else Timeless vm vm'

theorem timeless_setInfo (vm : Vm) (task : Task) (change : ThreadInfo → ThreadInfo) :
    Timeless vm (vm.setInfo task change) :=
  ⟨⟨Nat.le_refl _, rfl, rfl, rfl, rfl, fun _ => rfl⟩, rfl⟩

theorem Timeless.died (timeless : Timeless vm vm') (died : Died vm' vm'') : Died vm vm'' where
  jiffies := died.jiffies.trans timeless.jiffies
  results := by
    rw [died.results, timeless.passes.results, timeless.passes.current, timeless.timingResult]
  current := died.current
  live := by rw [died.live, timeless.passes.live, timeless.passes.current]
  killed := by rw [died.killed, timeless.passes.killed, timeless.passes.current]
  times := fun task other => (died.times task (timeless.passes.current.symm ▸ other)).trans
    (timeless.passes.times task)

theorem Timeless.ends {ends : Bool} {result : Bool × Vm} (timeless : Timeless vm vm')
    (outcome : Ends vm' ends result) : Ends vm ends result := by
  refine ⟨outcome.1, ?_⟩
  cases ends with
  | true => exact timeless.died outcome.2
  | false => exact timeless.trans outcome.2

theorem taskEnd_ends {result : Bool × Vm} (done : taskEnd setup vm = some result) :
    Ends vm (isEnding setup vm && decide ((vm.info vm.current).children = 0)) result ∧
      (isEnding setup vm = false → result.2 = vm) ∧
      (result.1 = false → (result.2.info vm.current).children =
        (vm.info vm.current).children) := by
  simp only [taskEnd] at done
  split_ifs at done with ending childless
  · rcases Option.bind_eq_some_iff.mp done with ⟨left, deactivated, done⟩
    have childless' : (vm.info vm.current).children = 0 := by
      simpa [Vm.setInfo] using childless
    rw [← Option.some.inj done, ending, childless']
    have timeless := (timeless_setInfo vm vm.current fun info => { info with kill := true }).trans
      (deactivateTask_timeless deactivated)
    exact ⟨⟨rfl, timeless.died (killtask_died setup left)⟩, Bool.noConfusion, Bool.noConfusion⟩
  · have hasChildren : (vm.info vm.current).children ≠ 0 := by
      simpa [Vm.setInfo] using childless
    rw [← Option.some.inj done, ending]
    refine ⟨?_, Bool.noConfusion, fun _ => by simp [Vm.setInfo]⟩
    simpa [Ends, hasChildren] using timeless_setInfo vm vm.current _
  · rw [← Option.some.inj done]
    have lasts : isEnding setup vm = false := by simpa using ending
    exact ⟨by simpa [Ends, lasts] using Timeless.refl vm, fun _ => rfl, fun _ => rfl⟩

theorem work_ends {result : Bool × Vm} (done : work setup vm = some result)
    (undone : (vm.info vm.current).workDuration ≠ 0 ∨ (vm.info vm.current).children ≠ 0) :
    Ends vm (decide ((vm.info vm.current).children = 0) &&
      (vm.info vm.current).workDuration == 1) result := by
  rcases workDuration_counts vm with ⟨info, worked, children, exhausted⟩
  have timeless : Timeless vm { vm with info := info } :=
    ⟨⟨Nat.le_refl _, rfl, rfl, rfl, rfl, fun _ => rfl⟩, rfl⟩
  simp only [work, worked] at done
  split_ifs at done with isDone
  · have ending : isEnding setup { vm with info := info } = true := by
      simp [isEnding, isDone]
    have outcome := timeless.ends (taskEnd_ends done).1
    rw [ending, Bool.true_and, children] at outcome
    rcases exhausted.mp isDone with isZero | isOne
    · have hasChildren := undone.resolve_left (not_not.mpr isZero)
      simpa [hasChildren] using outcome
    · simpa [isOne] using outcome
  · have notOne : (vm.info vm.current).workDuration ≠ 1 := fun isOne =>
      isDone (exhausted.mpr (.inr isOne))
    rw [← Option.some.inj done]
    simpa [Ends, notOne] using timeless

theorem Ends.died {ends : Bool} (outcome : Ends vm ends (true, vm')) : Died vm vm' := by
  rcases outcome with ⟨rfl, died⟩
  exact died

theorem Ends.timeless {ends : Bool} (outcome : Ends vm ends (false, vm')) : Timeless vm vm' := by
  rcases outcome with ⟨rfl, timeless⟩
  exact timeless

theorem work_outcome {result : Bool × Vm} (done : work setup vm = some result) :
    ∃ ends, Ends vm ends result := by
  rcases workDuration_counts vm with ⟨info, worked, -, -⟩
  have timeless : Timeless vm { vm with info := info } :=
    ⟨⟨Nat.le_refl _, rfl, rfl, rfl, rfl, fun _ => rfl⟩, rfl⟩
  simp only [work, worked] at done
  split_ifs at done
  · exact ⟨_, timeless.ends (taskEnd_ends done).1⟩
  · rw [← Option.some.inj done]
    exact ⟨false, rfl, timeless⟩

theorem cycle_parts (done : cycle setup vm = some vm') : Parts setup vm vm' := by
  simp only [cycle, Option.bind_eq_bind, Option.bind_eq_some_iff] at done
  rcases done with ⟨⟨ended, first⟩, checked, done⟩
  have works : setup.profile.threadType first.current ≠ .init → ∀ sleep : Vm → Option Vm,
      (∀ {part part' : Vm}, sleep part = some part' →
        part' = part ∨ tickSleep part = some part') →
      ((work setup first).bind fun result =>
        if result.1 = true then pure result.2
        else (sleep result.2).bind (spawnAll setup)) = some vm' →
      taskEnd setup vm = some (false, first) → Parts setup vm vm' := by
    intro isProcess sleep sleeps done lasts
    rcases Option.bind_eq_some_iff.mp done with ⟨⟨ended, worked⟩, works, done⟩
    cases ended with
    | true =>
        cases done
        exact .finishes lasts isProcess works
    | false =>
        rcases Option.bind_eq_some_iff.mp done with ⟨asleep, slept, spawned⟩
        exact .worksOn lasts isProcess works (sleeps slept) spawned
  cases ended with
  | true =>
      cases done
      exact .ends checked
  | false =>
      cases kind : setup.profile.threadType first.current with
      | init =>
          simp only [kind] at done
          exact .inits checked kind done
      | interactive =>
          simp only [kind] at done
          exact works (by simp [kind]) tickSleep .inr done checked
      | noninteractive =>
          simp only [kind] at done
          exact works (by simp [kind]) some (fun same => .inl (Option.some.inj same).symm) done
            checked

/-- A task that did not end goes down with the unit of work that follows, or not at all. -/
theorem work_goesDown {first : Vm} {result : Bool × Vm}
    (lasts : taskEnd setup vm = some (false, first))
    (isProcess : setup.profile.threadType first.current ≠ .init)
    (worked : work setup first = some result) : Ends vm (goesDown setup vm) result := by
  rcases taskEnd_ends lasts with ⟨outcome, kept, children⟩
  have goes := outcome.1
  have timeless := outcome.timeless
  have unmoved := timeless.passes.current
  have children := children rfl
  apply timeless.ends
  rw [unmoved] at isProcess
  by_cases childless : (vm.info vm.current).children = 0
  · -- The task was not to end, and nothing happened to it yet.
    have goesOn : isEnding setup vm = false := by simpa [childless] using goes
    have same : vm = first := (kept goesOn).symm
    subst same
    have undone : (vm.info vm.current).workDuration ≠ 0 := by
      intro isZero
      simp [isEnding, isZero] at goesOn
    simpa [goesDown, goesOn, isProcess] using work_ends worked (.inl undone)
  · rw [← unmoved] at children
    have hasChildren : (first.info first.current).children ≠ 0 := by
      rw [children, unmoved]
      exact childless
    simpa [goesDown, childless, hasChildren] using work_ends worked (.inr hasChildren)

/-- A cycle kills the current task if it goes down, and otherwise makes new tasks. -/
theorem cycle_times (done : cycle setup vm = some vm') :
    goesDown setup vm = true ∧ Died vm vm' ∨
      goesDown setup vm = false ∧ ∃ born, Spawned vm vm' born := by
  cases cycle_parts done with
  | ends ended =>
      have outcome := (taskEnd_ends ended).1
      have goes := outcome.1.symm
      rw [Bool.and_eq_true] at goes
      exact .inl ⟨by simp [goesDown, goes.1, of_decide_eq_true goes.2], outcome.died⟩
  | inits lasts isInit spawned =>
      have outcome := (taskEnd_ends lasts).1
      have goes := outcome.1.symm
      have timeless := outcome.timeless
      rw [timeless.passes.current] at isInit
      rw [Bool.and_comm] at goes
      rcases spawnAll_spawned spawned with ⟨born, spawned⟩
      exact .inr ⟨by simp [goesDown, isInit, goes], _, timeless.spawned.trans spawned⟩
  | finishes lasts isProcess finished =>
      have outcome := work_goesDown lasts isProcess finished
      exact .inl ⟨outcome.1.symm, outcome.died⟩
  | worksOn lasts isProcess worksOn sleeps spawned =>
      have outcome := work_goesDown lasts isProcess worksOn
      rcases spawnAll_spawned spawned with ⟨born, spawned⟩
      rcases sleeps with rfl | slept
      · exact .inr ⟨outcome.1.symm, _, outcome.timeless.spawned.trans spawned⟩
      · have timeless := outcome.timeless.trans (tickSleep_timeless slept)
        exact .inr ⟨outcome.1.symm, _, timeless.spawned.trans spawned⟩

/-! ## `schedule` -/

theorem clearFlag_times (vm : Vm) (task : Task) :
    ((clearFlag vm).task task).times = (vm.task task).times :=
  times_setTask vm vm.current rfl task

theorem retain_times (setup : Setup) (vm : Vm) (task : Task) :
    ((retain setup vm).task task).times = (vm.task task).times := by
  unfold retain
  generalize putAsideTime setup.scheduler vm = time
  exact times_setTask vm vm.current rfl task

theorem yieldTo_xe (setup : Setup) (vm : Vm) {chosen : Task} (away : chosen ≠ vm.current)
    (task : Task) : ((yieldTo setup vm chosen).task task).xe = if task = vm.current then
      ((vm.task task).xe + stayed vm % 2 ^ 32) % 2 ^ 64 else (vm.task task).xe := by
  simp only [yieldTo, Vm.setTask, Function.update_apply, provisionalBurst]
  split_ifs <;> simp_all

theorem yieldTo_xd (setup : Setup) (vm : Vm) (chosen task : Task) :
    ((yieldTo setup vm chosen).task task).xd = (vm.task task).xd := by
  simp only [yieldTo, Vm.setTask, Function.update_apply]
  split_ifs <;> simp_all

theorem restart_xe (vm : Vm) (first task : Task) :
    ((restart vm first).task task).xe = (vm.task task).xe := by
  simp only [restart, clearFlag, Vm.setTask, Function.update_apply]
  split_ifs <;> simp_all

theorem restart_xd (vm : Vm) (first task : Task) :
    ((restart vm first).task task).xd = (vm.task task).xd := by
  simp only [restart, clearFlag, Vm.setTask, Function.update_apply]
  split_ifs <;> simp_all

theorem Switched.switch {behind : List Task} {next : Vm}
    (switched : Switched setup vm behind next.current next.task) : Switch vm next := by
  generalize current : next.current = chosen at switched
  generalize tasks : next.task = task at switched
  cases switched with
  | alone one =>
      refine .forgets (.inl one) (fun other => ?_) (.inl current)
      rw [tasks]
      exact congrArg Prod.fst (clearFlag_times vm other)
  | pair two isFirst =>
      refine .forgets (.inr two) (fun other => ?_) (.inr ?_)
      · rw [tasks, restart_xe]
      · rw [tasks, current]
        simp [restart]
  | again many isFirst chosen =>
      refine .keeps current (fun other => ?_) many
      rw [tasks]
      exact retain_times setup vm other
  | leaves many isFirst chosen away =>
      refine .credits (current.symm ▸ away) (fun other => ?_) ?_ many
      · rw [tasks, yieldTo_xe setup vm away]
      · rw [tasks, current]
        simp [yieldTo]

theorem Switched.xd {behind : List Task} {next : Vm}
    (switched : Switched setup vm behind next.current next.task) (other : Task) :
    (next.task other).xd = (vm.task other).xd := by
  generalize next.current = chosen at switched
  generalize tasks : next.task = task at switched
  cases switched with
  | alone one => exact congrArg (·.2.1) (clearFlag_times vm other)
  | pair two isFirst => exact restart_xd vm _ other
  | again many isFirst chosen => exact congrArg (·.2.1) (retain_times setup vm other)
  | leaves many isFirst chosen away => exact yieldTo_xd setup vm _ other

theorem schedule_handover {next : Vm} (scheduled : schedule setup vm = some next) :
    Handover vm next := by
  rcases schedule_switched scheduled with ⟨behind, -, switched, -⟩
  rcases schedule_rest scheduled with ⟨intWaitTimer, drawn, rest⟩
  refine ⟨?_, ?_, ?_, ?_, switched.xd, switched.switch⟩
  · rw [rest]
  · rw [rest]
  · rw [rest]
  · rw [rest]

/-! ## Steps -/

theorem schedulerTick_passes (vm : Vm) (p : Task) : Timeless vm (schedulerTick vm p).1 := by
  have sliced : ∀ (vm : Vm) (slice : TaskStruct → Nat),
      Timeless vm (vm.setTask p fun t => { t with timeSlice := slice t }) := fun vm slice =>
    timeless_setTask vm p rfl
  simp only [schedulerTick]
  split_ifs
  · exact Timeless.refl vm
  · exact (sliced vm fun t => (t.timeSlice + (2 ^ 32 - 1)) % 2 ^ 32).trans (sliced _ fun _ => 50)
  · exact sliced vm fun t => (t.timeSlice + (2 ^ 32 - 1)) % 2 ^ 32
  · exact Timeless.refl vm

theorem scheduleTick_passes (vm : Vm) : Passes vm (scheduleTick vm) := by
  rcases timer_counts vm with ⟨timer, ticked, -⟩
  have passed : ∀ timer, Passes vm { vm with timer := timer, jiffies := vm.jiffies + 1 } :=
    fun _ => ⟨Nat.le_succ _, rfl, rfl, rfl, rfl, fun _ => rfl⟩
  have tick := (schedulerTick_passes
    { vm with timer := msToTicks 10, jiffies := vm.jiffies + 1 } vm.current).passes
  simp only [scheduleTick, ticked]
  split_ifs
  · have whole := (passed _).trans tick
    exact ⟨whole.jiffies, whole.results, whole.current, whole.live, whole.killed, whole.times⟩
  · have whole := (passed _).trans tick
    exact ⟨whole.jiffies, whole.results, whole.current, whole.live, whole.killed, whole.times⟩
  · exact ⟨Nat.le_succ _, rfl, rfl, rfl, rfl, fun _ => rfl⟩
  · exact ⟨Nat.le_refl _, rfl, rfl, rfl, rfl, fun _ => rfl⟩

theorem endCycle_passes (setup : Setup) (vm : Vm) : Passes vm (endCycle setup vm) := by
  simp only [endCycle]
  split
  · exact ⟨Nat.le_refl _, rfl, rfl, rfl, rfl, fun _ => rfl⟩
  · exact ⟨Nat.le_refl _, rfl, rfl, rfl, rfl, fun _ => rfl⟩

theorem Switch.congr {next next' : Vm} (switch : Switch vm next)
    (current : next'.current = next.current) (task : next'.task = next.task) :
    Switch vm next' := by
  cases switch with
  | keeps stays times many =>
      refine .keeps (current.trans stays) (fun other => ?_) many
      rw [task, times]
  | forgets few xe owned =>
      refine .forgets few (fun other => ?_) ?_
      · rw [task, xe]
      · rw [task, current]
        exact owned
  | credits leaves xe owned many =>
      refine .credits (current.symm ▸ leaves) (fun other => ?_) ?_ many
      · rw [task, xe]
      · rw [task, current, owned]

theorem Handover.moved {next : Vm} (handover : Handover vm next) (timer : Int) (pc : Pc) :
    Handover vm { next with timer := timer, pc := pc } where
  jiffies := handover.jiffies
  results := handover.results
  live := handover.live
  killed := handover.killed
  xd := handover.xd
  switch := handover.switch.congr rfl rfl

/-- Every step of the machine lets time pass, switches tasks, makes tasks or kills one. -/
theorem step_timed {next : Vm} (taken : step setup vm = some next) : Timed setup vm next := by
  cases step_taken taken with
  | start pc scheduled =>
      exact .switches (.inl pc) ((schedule_handover scheduled).moved _ _)
  | cycle pc cycled =>
      rcases cycle_times cycled with ⟨goes, died⟩ | ⟨lives, born, spawned⟩
      · exact .dies pc goes ⟨died.jiffies, died.results, died.current, died.live, died.killed,
          died.times⟩
      · exact .spawns pc lives ⟨spawned.jiffies, spawned.results,
          spawned.current, spawned.live, spawned.killed, spawned.older, spawned.newborn⟩
  | tick pc => exact .passes (.inl pc) (scheduleTick_passes vm)
  | @tickSchedule switched pc scheduled =>
      exact .switches (.inr (.inl pc)) ((schedule_handover scheduled).moved switched.timer _)
  | io pc event =>
      have passes := (ioEvent_timeless event).passes
      exact .passes (.inr (.inl pc)) ⟨passes.jiffies, passes.results, passes.current, passes.live,
        passes.killed, passes.times⟩
  | @reschedule switched pc scheduled =>
      exact .switches (.inr (.inr pc)) ((schedule_handover scheduled).moved switched.timer _)
  | endCycle pc => exact .passes (.inr (.inr pc)) (endCycle_passes setup vm)

/-- The current task is alive, unless it is the idle one. -/
theorem Reachable.attended (reachable : Reachable setup vm) :
    vm.current = .idle ∨ vm.current ∈ vm.live := by
  induction reachable with
  | boot => exact .inl rfl
  | @step vm next reachable taken induction =>
      cases step_timed taken with
      | passes places passes =>
          rw [passes.current, passes.live]
          exact induction
      | switches schedules handover =>
          rcases reachable.invariant with ⟨queue, invariant⟩
          have population := invariant.population
          rcases step_schedules schedules taken with ⟨switched, timer, pc, scheduled, same⟩
          have chosen := (population.lists.runQueue.schedule population.length_le scheduled).1
          right
          rw [handover.live, same]
          exact population.queued chosen
      | spawns pc lives spawned =>
          rw [spawned.current, spawned.live]
          exact induction.imp_right (List.mem_append_right _)
      | dies pc goes died => exact .inl died.current

theorem Reachable.idle_unkilled (reachable : Reachable setup vm) : .idle ∉ vm.killed := by
  induction reachable with
  | boot => exact List.not_mem_nil
  | @step vm next reachable taken induction =>
      rcases reachable.invariant with ⟨queue, invariant⟩
      rcases invariant.step taken with ⟨-, -, spares⟩
      rcases spares with ⟨same, -⟩ | ⟨killed, -, -, alive⟩
      · exact same ▸ induction
      · rw [killed]
        intro dead
        rcases List.mem_cons.mp dead with isCurrent | before
        · have known := invariant.population.lineage.known vm.current alive
          rw [← isCurrent] at known
          simp [Profile.tasks] at known
        · exact induction before

end

end CE321.Vsched
