import CE321.Vsched.Accounts
import CE321.Vsched.Goodness

/-! # The waiting times

The scheduler `sjf-goodness` writes the time into a task that comes into the run queue or
loses the CPU to another one of several. A task that waits has had it since it began to.
-/

namespace CE321.Vsched

/-- A task is runnable, and another one has the CPU. -/
def Waits (task : Task) (vm : Vm) : Prop :=
  task ∈ vm.live ∧ task ∉ vm.intwaitlist ∧ task ≠ vm.current

instance (task : Task) : DecidablePred (Waits task) := fun _ => inferInstanceAs (Decidable (_ ∧ _))

/-- The time for which a task has been runnable without running at the end of a run. -/
def runnableTime (task : Task) : List Vm → Nat
  | [] => 0
  | vm :: past => (vm.jiffies - began Vm.jiffies (Waits task) (vm :: past)) * 10000000

/-- Some tasks get the present time as their time in the run queue. Only these wake up. -/
structure Stamps (vm vm' : Vm) (stamped : List Task) : Prop where
  jiffies : vm'.jiffies = vm.jiffies
  inside : ∀ task ∈ stamped, (vm'.task task).lastTimeInRunqueue = schedClock vm
  outside : ∀ task, task ∉ stamped →
    (vm'.task task).lastTimeInRunqueue = (vm.task task).lastTimeInRunqueue
  asleep : ∀ task ∈ vm.intwaitlist, task ∈ vm'.intwaitlist ∨ task ∈ stamped

/-- New tasks come into the run queue. -/
structure Brings (vm vm' : Vm) (born : List Task) : Prop where
  stamps : Stamps vm vm' born
  live : vm'.live = born ++ vm.live
  current : vm'.current = vm.current

/-- A part of a cycle, which brings new tasks into the run queue or kills the current one. -/
inductive Fills (vm vm' : Vm) : Prop
  | brings {born : List Task} (brings : Brings vm vm' born)
  | dies (stamps : Stamps vm vm' []) (died : Died vm vm')

/-- A task that waits keeps its time in the run queue, and one that begins to wait gets the
present time. -/
def KeepsTime (vm next : Vm) (task : Task) : Prop :=
  Waits task vm ∧
      (next.task task).lastTimeInRunqueue = (vm.task task).lastTimeInRunqueue ∨
    ¬Waits task vm ∧ (next.task task).lastTimeInRunqueue = schedClock next

/-- What `calculate_goodness` computes with for a task that has waited for some time. The clock
does not wrap before its product overflows. -/
structure ExactWaiting (vm : Vm) (maxWaiting waited : Nat) (task : Task) : Prop where
  modulo : sub64 (schedClock vm) (vm.task task).lastTimeInRunqueue = waited % 2 ^ 64
  divisor : (1 + sub64 (schedClock vm) (vm.task task).lastTimeInRunqueue) % 2 ^ 64 ≠ 0
  unwrapped : vm.jiffies * 10000000 < 2 ^ 64 →
    (vm.task task).lastTimeInRunqueue ≤ schedClock vm ∧
      sub64 (schedClock vm) (vm.task task).lastTimeInRunqueue = waited ∧ waited ≤ maxWaiting

section

variable {setup : Setup} {vm vm' vm'' : Vm} {born born' stamped stamped' : List Task}

/-! ## Changes of other data -/

theorem Stamps.trans (first : Stamps vm vm' stamped) (second : Stamps vm' vm'' stamped') :
    Stamps vm vm'' (stamped' ++ stamped) where
  jiffies := second.jiffies.trans first.jiffies
  inside := by
    intro task member
    by_cases later : task ∈ stamped'
    · rw [second.inside task later, schedClock_congr first.jiffies]
    · rw [second.outside task later]
      exact first.inside task ((List.mem_append.mp member).resolve_left later)
  outside := by
    intro task away
    rw [List.mem_append, not_or] at away
    rw [second.outside task away.1, first.outside task away.2]
  asleep := by
    intro task sleeps
    rcases first.asleep task sleeps with stillAsleep | woken
    · exact (second.asleep task stillAsleep).imp_right (List.mem_append_left _)
    · exact .inr (List.mem_append_right _ woken)

theorem stamps_none (jiffies : vm'.jiffies = vm.jiffies)
    (same : ∀ task, (vm'.task task).lastTimeInRunqueue = (vm.task task).lastTimeInRunqueue)
    (asleep : vm.intwaitlist ⊆ vm'.intwaitlist) : Stamps vm vm' [] where
  jiffies := jiffies
  inside := fun _ member => absurd member List.not_mem_nil
  outside := fun task _ => same task
  asleep := fun _ sleeps => .inl (asleep sleeps)

theorem Stamps.refl (vm : Vm) : Stamps vm vm [] :=
  stamps_none rfl (fun _ => rfl) (List.Subset.refl _)

theorem stamps_setTask (vm : Vm) (task : Task) {change : TaskStruct → TaskStruct}
    (same : (change (vm.task task)).lastTimeInRunqueue = (vm.task task).lastTimeInRunqueue) :
    Stamps vm (vm.setTask task change) [] := by
  refine stamps_none rfl (fun other => ?_) (List.Subset.refl _)
  by_cases isTask : other = task
  · rw [isTask, setTask_self, same]
  · rw [setTask_other vm change isTask]

theorem stamps_setInfo (vm : Vm) (task : Task) (change : ThreadInfo → ThreadInfo) :
    Stamps vm (vm.setInfo task change) [] := stamps_none rfl (fun _ => rfl) (List.Subset.refl _)

theorem Brings.trans (first : Brings vm vm' born) (second : Brings vm' vm'' born') :
    Brings vm vm'' (born' ++ born) where
  stamps := first.stamps.trans second.stamps
  live := by rw [second.live, first.live, List.append_assoc]
  current := second.current.trans first.current

theorem Timeless.brings (timeless : Timeless vm vm') (stamps : Stamps vm vm' []) :
    Brings vm vm' [] := ⟨stamps, timeless.passes.live, timeless.passes.current⟩

/-! ## The run queue -/

theorem linkBehindHead_stamps (vm : Vm) (first p : Task) :
    Stamps vm (linkBehindHead vm first p) [] := by
  refine stamps_none rfl (fun task => ?_) (List.Subset.refl _)
  simp only [linkBehindHead, Vm.setTask, Function.update_apply]
  split_ifs <;> simp_all

theorem enqueue_stamps {p : Task} (goodness : setup.scheduler = .sjfGoodness)
    (done : enqueue setup vm p = some vm') : Stamps vm vm' [p] := by
  simp only [enqueue, goodness, Option.bind_eq_bind, Option.bind_eq_some_iff] at done
  rcases done with ⟨first, -, stamped⟩
  rw [← Option.some.inj stamped]
  have linked := linkBehindHead_stamps vm first p
  constructor
  · exact linked.jiffies
  · intro task isP
    rw [List.mem_singleton.mp isP, setTask_self]
    exact schedClock_congr linked.jiffies
  · intro task away
    rw [setTask_other _ _ (fun same => away (List.mem_singleton.mpr same))]
    exact linked.outside task List.not_mem_nil
  · exact fun task sleeps => .inl sleeps

theorem deactivateTask_stamps {p : Task} (done : deactivateTask vm p = some vm') :
    Stamps vm vm' [] := by
  unfold deactivateTask at done
  rcases Option.bind_eq_some_iff.mp done with ⟨left, -, done⟩
  rcases Option.bind_eq_some_iff.mp done with ⟨right, -, done⟩
  rw [← Option.some.inj done]
  refine stamps_none rfl (fun task => ?_) (List.Subset.refl _)
  simp only [Vm.setTask, Function.update_apply]
  split_ifs <;> simp_all

/-! ## Forking -/

theorem forktask_brings {child : Nat} (goodness : setup.scheduler = .sjfGoodness)
    (done : forktask setup vm child = some vm') : Brings vm vm' [.process child] := by
  have spawned := forktask_spawned done
  refine ⟨?_, spawned.live, spawned.current⟩
  unfold forktask at done
  rcases Option.bind_eq_some_iff.mp done with ⟨woken, enqueued, done⟩
  rw [← Option.some.inj done]
  have enqueued := enqueue_stamps goodness enqueued
  have flagged := @stamps_setTask woken woken.current (fun t => { t with needReschedule := true }) rfl
  rcases @newTask_rest setup vm child with ⟨task, info, made⟩
  have jiffies : (newTask setup vm child).jiffies = vm.jiffies := by rw [made]
  have asleep : (newTask setup vm child).intwaitlist = vm.intwaitlist := by rw [made]
  have whole := enqueued.trans flagged
  constructor
  · exact whole.jiffies.trans jiffies
  · exact fun task member => (whole.inside task member).trans (schedClock_congr jiffies)
  · intro other away
    rw [← @newTask_task setup vm child other fun same => away (List.mem_singleton.mpr same)]
    exact whole.outside other away
  · exact fun other sleeps => whole.asleep other (asleep ▸ sleeps)

theorem spawnLoop_brings (goodness : setup.scheduler = .sjfGoodness) {parent : Task}
    (todo : List Nat) : ∀ {vm vm' : Vm}, spawnLoop setup parent todo vm = some vm' →
      ∃ born, Brings vm vm' born := by
  induction todo with
  | nil =>
      intro vm vm' done
      cases done
      exact ⟨[], (Timeless.refl vm).brings (Stamps.refl vm)⟩
  | cons child rest induction =>
      intro vm vm' done
      simp only [spawnLoop] at done
      split_ifs at done
      · rcases Option.bind_eq_some_iff.mp done with ⟨forked, forks, done⟩
        have marked := (timeless_setInfo forked parent fun info =>
          { info with list := info.list.erase child }).brings (stamps_setInfo forked parent _)
        rcases induction done with ⟨born, brings⟩
        exact ⟨_, (forktask_brings goodness forks).trans (marked.trans brings)⟩
      · exact induction done

theorem spawnChildren_brings (goodness : setup.scheduler = .sjfGoodness) {parent : Task}
    (done : spawnChildren setup vm parent = some vm') : ∃ born, Brings vm vm' born := by
  unfold spawnChildren at done
  split_ifs at done
  · exact spawnLoop_brings goodness _ done
  · cases done
    exact ⟨[], (Timeless.refl vm).brings (Stamps.refl vm)⟩

theorem armIntTimer_stamps (setup : Setup) (vm : Vm) : Stamps vm (armIntTimer setup vm) [] := by
  unfold armIntTimer
  split_ifs
  · exact stamps_none rfl (fun _ => rfl) (List.Subset.refl _)
  · exact Stamps.refl vm

theorem spawnAll_brings (goodness : setup.scheduler = .sjfGoodness)
    (done : spawnAll setup vm = some vm') : ∃ born, Brings vm vm' born := by
  unfold spawnAll at done
  rcases Option.bind_eq_some_iff.mp done with ⟨middle, ofCurrent, ofInit⟩
  rcases spawnChildren_brings goodness ofCurrent with ⟨born, brings⟩
  rcases spawnChildren_brings goodness ofInit with ⟨born', brings'⟩
  have armed := (armIntTimer_timeless setup vm).brings (armIntTimer_stamps setup vm)
  exact ⟨_, armed.trans (brings.trans brings')⟩

/-! ## Sleeping and waking up -/

theorem goToSleep_stamps (done : goToSleep vm = some vm') : Stamps vm vm' [] := by
  unfold goToSleep at done
  rcases Option.bind_eq_some_iff.mp done with ⟨left, deactivated, done⟩
  rw [← Option.some.inj done]
  have listed : Stamps vm { vm with
      intWaitTimer := vm.intWaitTimer - 1
      intwaitlist := vm.intwaitlist ++ [vm.current] } [] :=
    stamps_none rfl (fun _ => rfl) (List.subset_append_left _ _)
  exact listed.trans ((deactivateTask_stamps deactivated).trans
    (@stamps_setTask left left.current (fun t => { t with needReschedule := true }) rfl))

theorem tickSleep_stamps (done : tickSleep vm = some vm') : Stamps vm vm' [] := by
  rcases intWaitTimer_counts vm with ⟨intWaitTimer, ticked⟩
  have stamps : Stamps vm { vm with intWaitTimer := intWaitTimer } [] :=
    stamps_none rfl (fun _ => rfl) (List.Subset.refl _)
  simp only [tickSleep, ticked] at done
  split_ifs at done
  · exact stamps.trans (goToSleep_stamps done)
  · exact Option.some.inj done ▸ stamps

theorem wakeAll_stamps (goodness : setup.scheduler = .sjfGoodness) (sleepers : List Task) :
    ∀ {vm vm' : Vm}, wakeAll setup sleepers vm = some vm' →
      ∃ woken, woken.Perm sleepers ∧ Stamps vm vm' woken := by
  induction sleepers with
  | nil =>
      intro vm vm' done
      exact ⟨[], .refl _, Option.some.inj done ▸ Stamps.refl vm⟩
  | cons task rest induction =>
      intro vm vm' done
      rcases Option.bind_eq_some_iff.mp done with ⟨active, enqueued, done⟩
      rcases induction done with ⟨woken, perm, stamps⟩
      have first := enqueue_stamps goodness enqueued
      have unlisted : Stamps vm { active with intwaitlist := active.intwaitlist.erase task }
          [task] := by
        refine ⟨first.jiffies, first.inside, first.outside, fun other sleeps => ?_⟩
        by_cases isTask : other = task
        · exact .inr (List.mem_singleton.mpr isTask)
        · refine (first.asleep other sleeps).imp_left fun listed => ?_
          exact (List.mem_erase_of_ne isTask).mpr listed
      exact ⟨_, (List.perm_append_comm).trans (perm.cons task), unlisted.trans stamps⟩

theorem ioEvent_stamps (goodness : setup.scheduler = .sjfGoodness)
    (done : ioEvent setup vm = some vm') :
    ∃ woken, woken ⊆ vm.intwaitlist ∧ Stamps vm vm' woken := by
  rcases intTimer_counts vm with ⟨intTimer, ticked, -⟩
  have stamps : ∀ intTimer, Stamps vm { vm with intTimer := intTimer } [] := fun _ =>
    stamps_none rfl (fun _ => rfl) (List.Subset.refl _)
  simp only [ioEvent, ticked] at done
  split_ifs at done
  · rcases Option.bind_eq_some_iff.mp done with ⟨active, wakes, done⟩
    rw [← Option.some.inj done]
    rcases wakeAll_stamps goodness _ wakes with ⟨woken, perm, waking⟩
    have flagged := @stamps_setTask active active.current (fun t => { t with needReschedule := true })
      rfl
    refine ⟨_, ?_, (stamps _).trans (waking.trans flagged)⟩
    rw [List.append_nil, List.nil_append]
    exact perm.subset
  · exact ⟨[], List.nil_subset _, Option.some.inj done ▸ stamps _⟩

/-! ## Killing -/

theorem report_stamps (vm : Vm) (j : Task) : Stamps vm (report vm j) [] := by
  have rest : (report vm j).jiffies = vm.jiffies ∧ (report vm j).intwaitlist = vm.intwaitlist := by
    rcases report_rest vm j with ⟨task, results, reported⟩
    rw [reported]
    exact ⟨rfl, rfl⟩
  refine stamps_none rest.1 (fun other => ?_) (fun _ sleeps => rest.2.symm ▸ sleeps)
  simp only [report]
  generalize schedClock vm = now
  split_ifs
  all_goals
    simp only [Vm.setTask, Function.update_apply]
    split_ifs <;> simp_all

theorem killtask_stamps (setup : Setup) (vm : Vm) : Stamps vm (killtask setup vm) [] := by
  have reported := report_stamps vm vm.current
  refine stamps_none (killtask_died setup vm).jiffies (fun other => ?_) ?_
  · rw [← reported.outside other List.not_mem_nil]
    cases isParent : setup.profile.parent vm.current with
    | none =>
        simp only [killtask, isParent]
        split_ifs
        · exact (@stamps_setTask _ .idle (fun t => { t with needReschedule := true }) rfl).outside
            other List.not_mem_nil
        · rfl
    | some of =>
        simp only [killtask, isParent]
        split_ifs
        · exact (@stamps_setTask _ .idle (fun t => { t with needReschedule := true }) rfl).outside
            other List.not_mem_nil
        · rfl
  · rcases killtask_rest setup vm with ⟨task, info, results, killed⟩
    rw [killed]
    exact List.Subset.refl _

/-! ## A cycle -/

theorem taskEnd_stamps {result : Bool × Vm} (done : taskEnd setup vm = some result) :
    Stamps vm result.2 [] := by
  simp only [taskEnd] at done
  split_ifs at done
  · rcases Option.bind_eq_some_iff.mp done with ⟨left, deactivated, done⟩
    rw [← Option.some.inj done]
    exact (stamps_setInfo vm vm.current _).trans ((deactivateTask_stamps deactivated).trans
      (killtask_stamps setup left))
  · rw [← Option.some.inj done]
    exact stamps_setInfo vm vm.current fun info => { info with kill := true }
  · rw [← Option.some.inj done]
    exact Stamps.refl vm

theorem work_stamps {result : Bool × Vm} (done : work setup vm = some result) :
    Stamps vm result.2 [] := by
  rcases workDuration_counts vm with ⟨info, worked, -, -⟩
  have stamps : Stamps vm { vm with info := info } [] :=
    stamps_none rfl (fun _ => rfl) (List.Subset.refl _)
  simp only [work, worked] at done
  split_ifs at done
  · exact stamps.trans (taskEnd_stamps done)
  · rw [← Option.some.inj done]
    exact stamps

theorem cycle_fills (goodness : setup.scheduler = .sjfGoodness)
    (done : cycle setup vm = some vm') : Fills vm vm' := by
  cases cycle_parts done with
  | ends ended => exact .dies (taskEnd_stamps ended) (taskEnd_ends ended).1.died
  | inits lasts isInit spawned =>
      have first := (taskEnd_ends lasts).1.timeless.brings (taskEnd_stamps lasts)
      rcases spawnAll_brings goodness spawned with ⟨born, brings⟩
      exact .brings (first.trans brings)
  | finishes lasts isProcess finished =>
      rcases work_outcome finished with ⟨ends, outcome⟩
      have stamps := (taskEnd_stamps lasts).trans (work_stamps finished)
      exact .dies stamps ((taskEnd_ends lasts).1.timeless.died outcome.died)
  | worksOn lasts isProcess worksOn sleeps spawned =>
      have first := (taskEnd_ends lasts).1.timeless.brings (taskEnd_stamps lasts)
      rcases work_outcome worksOn with ⟨ends, outcome⟩
      have worked := first.trans (outcome.timeless.brings (work_stamps worksOn))
      rcases spawnAll_brings goodness spawned with ⟨born, brings⟩
      rcases sleeps with rfl | slept
      · exact .brings (worked.trans brings)
      · have drowsed := (tickSleep_timeless slept).brings (tickSleep_stamps slept)
        exact .brings ((worked.trans drowsed).trans brings)

/-! ## Interrupts and `schedule` -/

theorem schedulerTick_stamps (vm : Vm) (p : Task) : Stamps vm (schedulerTick vm p).1 [] := by
  refine stamps_none (schedulerTick_passes vm p).jiffies (fun other => ?_) ?_
  · simp only [schedulerTick]
    split_ifs
    all_goals
      simp only [Vm.setTask, Function.update_apply]
      try split_ifs <;> simp_all
  · rcases (schedulerTick_timing vm p).rest with ⟨task, same⟩
    rw [same]
    exact List.Subset.refl _

theorem scheduleTick_rest (vm : Vm) : (scheduleTick vm).live = vm.live ∧
    (scheduleTick vm).intwaitlist = vm.intwaitlist ∧ (scheduleTick vm).current = vm.current := by
  rcases scheduleTick_spec vm with ⟨task, jiffies, timer, pc, same, -⟩
  rw [same]
  exact ⟨rfl, rfl, rfl⟩

theorem scheduleTick_last (vm : Vm) (task : Task) :
    ((scheduleTick vm).task task).lastTimeInRunqueue = (vm.task task).lastTimeInRunqueue := by
  rcases timer_counts vm with ⟨timer, ticked, -⟩
  have tick := (schedulerTick_stamps
    { vm with timer := msToTicks 10, jiffies := vm.jiffies + 1 } vm.current).outside task
    List.not_mem_nil
  simp only [scheduleTick, ticked]
  split_ifs
  · exact tick
  · exact tick
  · rfl
  · rfl

theorem endCycle_rest (setup : Setup) (vm : Vm) : (endCycle setup vm).task = vm.task ∧
    (endCycle setup vm).live = vm.live ∧ (endCycle setup vm).intwaitlist = vm.intwaitlist ∧
    (endCycle setup vm).current = vm.current := by
  simp only [endCycle]
  split
  · exact ⟨rfl, rfl, rfl, rfl⟩
  · exact ⟨rfl, rfl, rfl, rfl⟩

/-- A task that another one takes the CPU from gets the time if it stays in the run queue: with
one or two tasks there it does not, unless it is init. -/
theorem Switched.outgoing {behind queue : List Task} {next : Vm}
    (switched : Switched setup vm behind next.current next.task)
    (goodness : setup.scheduler = .sjfGoodness) (runQueue : RunQueue vm queue)
    (queued : vm.current ∈ queue) (notInit : vm.current ≠ .init)
    (away : vm.current ≠ next.current) :
    (next.task vm.current).lastTimeInRunqueue = schedClock vm := by
  generalize next.current = chosen at switched away
  generalize next.task = tasks at switched ⊢
  rcases runQueue.ring (List.ne_nil_of_mem queued) with ⟨rest, rfl, -⟩
  have inside : vm.current ∈ rest := (List.mem_cons.mp queued).resolve_left notInit
  have count : vm.nrRunning = rest.length + 1 := runQueue.count
  cases switched with
  | alone one =>
      have none : rest = [] := List.eq_nil_of_length_eq_zero (by omega)
      rw [none] at inside
      cases inside
  | pair two isFirst =>
      rcases List.length_eq_one_iff.mp (show rest.length = 1 by omega) with ⟨only, rfl⟩
      rw [runQueue.isFirst] at isFirst
      cases isFirst
      exact absurd (List.mem_singleton.mp inside) away
  | again many isFirst found => exact absurd rfl away
  | leaves many isFirst found away' =>
      unfold yieldTo
      rw [setTask_other _ _ away, setTask_self]
      simp only [putAsideTime, goodness]

/-! ## Runs -/

theorem schedules_keepsTime {next : Vm} (reachable : Reachable setup vm)
    (goodness : setup.scheduler = .sjfGoodness) (schedules : Schedules vm)
    (taken : step setup vm = some next) {task : Task} (notInit : task ≠ .init)
    (waits : Waits task next) : KeepsTime vm next task := by
  rcases waits with ⟨alive, awake, away⟩
  rcases reachable.invariant with ⟨queue, invariant⟩
  have lists := invariant.population.lists
  have rest : next.jiffies = vm.jiffies ∧ next.live = vm.live ∧
      next.intwaitlist = vm.intwaitlist := by
    rcases step_schedules schedules taken with ⟨switched, timer, pc, scheduled, rfl⟩
    rcases schedule_rest scheduled with ⟨intWaitTimer, drawn, rest⟩
    rw [rest]
    exact ⟨rfl, rfl, rfl⟩
  rcases step_switched schedules taken with ⟨behind, -, switched⟩
  rw [rest.2.1] at alive
  rw [rest.2.2] at awake
  by_cases isCurrent : task = vm.current
  · have queued : task ∈ queue :=
      (List.mem_append.mp (lists.perm.mem_iff.mp alive)).resolve_right awake
    refine .inr ⟨fun waits => waits.2.2 isCurrent, ?_⟩
    rw [schedClock_congr rest.1]
    rw [isCurrent] at queued notInit away ⊢
    exact switched.outgoing goodness lists.runQueue queued notInit away
  · exact .inl ⟨⟨alive, awake, isCurrent⟩, by rw [switched.others isCurrent away]⟩

theorem cycle_keepsTime {next : Vm} (reachable : Reachable setup vm)
    (nodup : next.live.Nodup) (fills : Fills vm next) {task : Task} (waits : Waits task next) :
    KeepsTime vm next task := by
  rcases waits with ⟨alive, awake, away⟩
  cases fills with
  | @brings born brings =>
      rw [brings.live] at alive nodup
      have other : task ≠ vm.current := brings.current ▸ away
      by_cases isBorn : task ∈ born
      · right
        refine ⟨fun waits => ?_, ?_⟩
        · exact (List.nodup_append.mp nodup).2.2 task isBorn task waits.1 rfl
        · exact (brings.stamps.inside task isBorn).trans
            (schedClock_congr brings.stamps.jiffies).symm
      · left
        refine ⟨⟨(List.mem_append.mp alive).resolve_left isBorn, fun sleeps => ?_, other⟩,
          brings.stamps.outside task isBorn⟩
        exact (brings.stamps.asleep task sleeps).elim awake isBorn
  | dies stamps died =>
      left
      rcases reachable.invariant with ⟨queue, invariant⟩
      rw [died.live] at alive
      have former := (invariant.population.lineage.family.nodup.mem_erase_iff).mp alive
      refine ⟨⟨former.2, fun sleeps => ?_, former.1⟩, stamps.outside task List.not_mem_nil⟩
      exact (stamps.asleep task sleeps).elim awake List.not_mem_nil

theorem step_keepsTime {next : Vm} (reachable : Reachable setup vm)
    (goodness : setup.scheduler = .sjfGoodness) (taken : step setup vm = some next) {task : Task}
    (notInit : task ≠ .init) (waits : Waits task next) : KeepsTime vm next task := by
  have nodup : next.live.Nodup := by
    rcases (reachable.step taken).invariant with ⟨queue, invariant⟩
    exact invariant.population.lineage.family.nodup
  have switched := fun schedules =>
    schedules_keepsTime reachable goodness schedules taken notInit waits
  cases step_taken taken with
  | start pc scheduled => exact switched (.inl pc)
  | tickSchedule pc scheduled => exact switched (.inr (.inl pc))
  | reschedule pc scheduled => exact switched (.inr (.inr pc))
  | @cycle cycled pc ran =>
      exact @cycle_keepsTime setup vm cycled reachable nodup (cycle_fills goodness ran) task waits
  | tick pc =>
      rcases waits with ⟨alive, awake, away⟩
      rcases scheduleTick_rest vm with ⟨live, asleep, current⟩
      exact .inl ⟨⟨live ▸ alive, asleep ▸ awake, current ▸ away⟩, scheduleTick_last vm task⟩
  | io pc event =>
      rcases waits with ⟨alive, awake, away⟩
      have passes := (ioEvent_timeless event).passes
      rcases ioEvent_stamps goodness event with ⟨woken, sleepers, stamps⟩
      by_cases wakes : task ∈ woken
      · right
        exact ⟨fun waits => waits.2.1 (sleepers wakes), (stamps.inside task wakes).trans
          (schedClock_congr stamps.jiffies).symm⟩
      · left
        refine ⟨⟨passes.live ▸ alive, fun sleeps => ?_, passes.current ▸ away⟩,
          stamps.outside task wakes⟩
        exact (stamps.asleep task sleeps).elim awake wakes
  | endCycle pc =>
      rcases waits with ⟨alive, awake, away⟩
      rcases endCycle_rest setup vm with ⟨tasks, live, asleep, current⟩
      exact .inl ⟨⟨live ▸ alive, asleep ▸ awake, current ▸ away⟩, by rw [tasks]⟩

theorem last_began {past : List Vm} (history : History (boot setup) (step setup) (vm :: past))
    (goodness : setup.scheduler = .sjfGoodness) {task : Task} (notInit : task ≠ .init)
    (waits : Waits task vm) :
    began Vm.jiffies (Waits task) (vm :: past) ≤ vm.jiffies ∧
      (vm.task task).lastTimeInRunqueue =
        began Vm.jiffies (Waits task) (vm :: past) * 10000000 % 2 ^ 64 := by
  refine history.keeps (fun vm past => Waits task vm →
    began Vm.jiffies (Waits task) (vm :: past) ≤ vm.jiffies ∧
      (vm.task task).lastTimeInRunqueue =
        began Vm.jiffies (Waits task) (vm :: past) * 10000000 % 2 ^ 64) ?_ ?_ waits
  · rintro ⟨alive, -, -⟩
    exact absurd (List.mem_singleton.mp alive) notInit
  · intro vm next past history known taken waits
    rcases step_keepsTime (reachable_of_history history) goodness taken notInit waits with
      ⟨waited, same⟩ | ⟨other, now⟩
    · rcases known waited with ⟨early, since⟩
      rw [began_goesOn waited, same]
      exact ⟨early.trans (jiffies_le taken), since⟩
    · rw [began_now other]
      exact ⟨le_rfl, now⟩

/-! ## A call of `calculate_goodness` -/

theorem even_clock_ne (ticks : Nat) : (1 + ticks * 10000000 % 2 ^ 64) % 2 ^ 64 ≠ 0 := by
  omega

theorem exact_of_clock {start now : Nat} (early : start ≤ now) (fits : now * 10000000 < 2 ^ 64) :
    start * 10000000 % 2 ^ 64 ≤ now * 10000000 % 2 ^ 64 ∧
      (now - start) * 10000000 % 2 ^ 64 = (now - start) * 10000000 := by
  have before : start * 10000000 ≤ now * 10000000 := Nat.mul_le_mul_right 10000000 early
  have between : (now - start) * 10000000 ≤ now * 10000000 :=
    Nat.mul_le_mul_right 10000000 (Nat.sub_le now start)
  rw [Nat.mod_eq_of_lt fits, Nat.mod_eq_of_lt (before.trans_lt fits),
    Nat.mod_eq_of_lt (between.trans_lt fits)]
  exact ⟨before, rfl⟩

theorem compared_last (setup : Setup) (vm : Vm) (task : Task) :
    ((compared setup vm).task task).lastTimeInRunqueue = if task = vm.current then
      putAsideTime setup.scheduler vm else (vm.task task).lastTimeInRunqueue := by
  unfold compared
  generalize provisionalExpBurst vm = expBurst
  generalize provisionalBurst vm = burst
  generalize putAsideTime setup.scheduler vm = time
  split_ifs with same
  · rw [same, setTask_self]
  · rw [setTask_other vm _ same]

/-- The time in the run queue of a task that is compared: it is a reading of the clock, at the
present time for the current task and else when the task began to wait. -/
theorem compared_clock {past : List Vm}
    (history : History (boot setup) (step setup) (vm :: past))
    (goodness : setup.scheduler = .sjfGoodness) {task : Task} (notInit : task ≠ .init)
    (alive : task ∈ vm.live) (awake : task ∉ vm.intwaitlist) : ∃ start ≤ vm.jiffies,
    ((compared setup vm).task task).lastTimeInRunqueue = start * 10000000 % 2 ^ 64 ∧
      (vm.jiffies - start) * 10000000 =
        if task = vm.current then 0 else runnableTime task (vm :: past) := by
  rw [compared_last]
  by_cases isCurrent : task = vm.current
  · refine ⟨vm.jiffies, le_rfl, ?_, ?_⟩
    · rw [if_pos isCurrent]
      simp only [putAsideTime, goodness]
      rfl
    · rw [if_pos isCurrent, Nat.sub_self, Nat.zero_mul]
  · rcases last_began history goodness notInit ⟨alive, awake, isCurrent⟩ with ⟨early, since⟩
    refine ⟨_, early, ?_, ?_⟩
    · rw [if_neg isCurrent]
      exact since
    · rw [if_neg isCurrent, runnableTime]

theorem exactWaiting_of_clock {task : Task} {start waited maxWaiting : Nat}
    (early : start ≤ vm.jiffies)
    (since : (vm.task task).lastTimeInRunqueue = start * 10000000 % 2 ^ 64)
    (exact : (vm.jiffies - start) * 10000000 = waited)
    (longest : vm.jiffies * 10000000 < 2 ^ 64 →
      sub64 (schedClock vm) (vm.task task).lastTimeInRunqueue ≤ maxWaiting) :
    ExactWaiting vm maxWaiting waited task := by
  have modulo : sub64 (schedClock vm) (vm.task task).lastTimeInRunqueue = waited % 2 ^ 64 := by
    rw [since, schedClock, sub64_clock early, exact]
  refine ⟨modulo, ?_, fun fits => ?_⟩
  · rw [modulo, ← exact]
    exact even_clock_ne _
  · rcases exact_of_clock early fits with ⟨before, whole⟩
    rw [exact] at whole
    rw [whole] at modulo
    refine ⟨since ▸ before, modulo, modulo ▸ longest fits⟩

/-- Whenever `calculate_goodness` is called, what it takes for the waiting time of a task is the
time for which the task has been runnable without running, and no division fails. -/
theorem waiting_exact {past : List Vm} (history : History (boot setup) (step setup) (vm :: past))
    (goodness : setup.scheduler = .sjfGoodness) (many : 3 ≤ vm.nrRunning) :
    ∃ first rest chosen, printRq setup vm = some (first :: rest) ∧
      (vm.task vm.head).next = some first ∧
      calculateGoodness (compared setup vm) first (first :: rest) = some chosen ∧
      ∀ task ∈ first :: rest, ExactWaiting (compared setup vm)
        (sub64 (schedClock vm) (findMaxWaitingInRQ (compared setup vm) first (first :: rest)))
        (if task = vm.current then 0 else runnableTime task (vm :: past)) task := by
  have reachable := reachable_of_history history
  rcases reachable.invariant with ⟨queue, invariant⟩
  have population := invariant.population
  have runQueue := population.lists.runQueue
  have few := population.length_le
  have count := runQueue.count
  rcases runQueue.ring (List.ne_nil_of_length_pos (by omega)) with ⟨behind, rfl, -⟩
  rw [List.length_cons] at few count
  cases behind with
  | nil =>
      rw [List.length_nil] at count
      omega
  | cons first rest =>
      have clocks : ∀ task ∈ first :: rest, ∃ start ≤ vm.jiffies, _ := fun task member => by
        have queued : task ∈ Task.init :: first :: rest := List.mem_cons_of_mem _ member
        have notInit : task ≠ .init := fun isInit =>
          (List.nodup_cons.mp runQueue.nodup).1 (isInit ▸ member)
        have awake : task ∉ vm.intwaitlist := fun sleeps =>
          (List.nodup_append.mp population.nodup).2.2 task queued task sleeps rfl
        exact compared_clock history goodness notInit (population.queued queued) awake
      have clock : schedClock (compared setup vm) = schedClock vm := schedClock_congr rfl
      have jiffies : (compared setup vm).jiffies = vm.jiffies := rfl
      have notLater : vm.jiffies * 10000000 < 2 ^ 64 → ∀ task ∈ first :: rest,
          ((compared setup vm).task task).lastTimeInRunqueue ≤ schedClock (compared setup vm) := by
        intro fits task member
        rcases clocks task member with ⟨start, early, since, -⟩
        rw [since, clock]
        exact (exact_of_clock early fits).1
      have exact : ∀ task ∈ first :: rest, ExactWaiting (compared setup vm)
          (sub64 (schedClock vm) (findMaxWaitingInRQ (compared setup vm) first (first :: rest)))
          (if task = vm.current then 0 else runnableTime task (vm :: past)) task := by
        intro task member
        rcases clocks task member with ⟨start, early, since, exact⟩
        refine exactWaiting_of_clock early since exact fun fits => ?_
        have longest := (maxWaiting_isGreatest (notLater fits)).2 ⟨task, member, rfl⟩
        rw [sub64_waiting (notLater fits task member), ← clock]
        exact longest
      rcases calculateGoodness_returns fun task member => (exact task member).divisor with
        ⟨chosen, found⟩
      exact ⟨first, rest, chosen, runQueue.printRq (by omega), runQueue.isFirst, found, exact⟩

end

/-- The process 0 waits for a jiffy until the late process is forked. -/
theorem waiting_exact_lateJob : ∃ vm past first rest chosen,
    History (boot (lateJob .sjfGoodness)) (step (lateJob .sjfGoodness)) (vm :: past) ∧
    Schedules vm ∧ vm.nrRunning = 4 ∧ first :: rest = [.process 2, .process 1, .process 0] ∧
    runnableTime (.process 0) (vm :: past) = 10000000 ∧
    calculateGoodness (compared (lateJob .sjfGoodness) vm) first (first :: rest) = some chosen ∧
    ∀ task ∈ first :: rest, ExactWaiting (compared (lateJob .sjfGoodness) vm)
      (sub64 (schedClock vm)
        (findMaxWaitingInRQ (compared (lateJob .sjfGoodness) vm) first (first :: rest)))
      (if task = vm.current then 0 else runnableTime task (vm :: past)) task := by
  rcases lateJob_forked .sjfGoodness with
    ⟨vm, past, history, pc, count, current, jiffies, -, -, queue, -, -, since⟩
  rcases waiting_exact history rfl (by omega) with
    ⟨first, rest, chosen, walked, -, found, exact⟩
  rw [queue, Option.some.injEq] at walked
  have away : Task.process 0 ≠ vm.current := by
    rw [current]
    decide
  have jiffies' : (compared (lateJob .sjfGoodness) vm).jiffies = 1 := jiffies
  have waited := ((exact (.process 0) (walked ▸ by simp)).unwrapped (by omega)).2.1
  rw [compared_last, if_neg away, if_neg away, since, schedClock, jiffies'] at waited
  exact ⟨vm, past, first, rest, chosen, history, .inr (.inr pc), count, walked.symm, waited.symm,
    found, exact⟩

end CE321.Vsched
