import CE321.Vsched.Bursts

/-! # The time slices

A task has a whole slice when it is forked, and again when it loses the CPU to another one of
several or has used the slice up. Else its slice only changes by the ticks that it is charged.
-/

namespace CE321.Vsched

def Vm.slice (vm : Vm) (task : Task) : Nat := (vm.task task).timeSlice

/-- The next step calls `scheduler_tick` for a task other than init. -/
def Charges (vm : Vm) : Prop :=
  vm.pc = .tick ∧ vm.timer ≤ 1 ∧ (vm.task vm.current).next ≠ none ∧ vm.current ≠ .init

instance : DecidablePred Charges := fun _ => inferInstanceAs (Decidable (_ ∧ _))

instance : DecidablePred Schedules := fun _ => inferInstanceAs (Decidable (_ ∨ _))

/-- The ticks that were charged to tasks other than init since the last call of `schedule`. -/
def charged : List Vm → Nat
  | _ :: vm :: past =>
      if Schedules vm then 0 else charged (vm :: past) + if Charges vm then 1 else 0
  | _ => 0

/-- The forked tasks that are alive have a part of their slice left. -/
def Sliced (vm : Vm) : Prop :=
  ∀ task ∈ vm.live, task ≠ .init → 1 ≤ vm.slice task ∧ vm.slice task ≤ 50

/-- New tasks come in with a whole slice, and the others keep what they have. -/
structure Admits (vm vm' : Vm) (born : List Task) : Prop where
  live : vm'.live = born ++ vm.live
  current : vm'.current = vm.current
  newborn : ∀ task ∈ born, vm'.slice task = 50
  older : ∀ task, task ∉ born → vm'.slice task = vm.slice task

/-- A part of a cycle, which brings new tasks in or kills the current one. -/
inductive Turns (vm vm' : Vm) : Prop
  | admits {born : List Task} (admits : Admits vm vm' born)
  | dies (slice : vm'.slice = vm.slice) (died : Died vm vm')

/-- The ticks that were charged and the rest of the current slice are at most a whole slice, unless
`schedule` is about to be called because nothing was left. -/
structure Within (vm : Vm) (past : List Vm) : Prop where
  few : charged (vm :: past) ≤ 50
  rest : vm.current ∈ vm.live → vm.current ≠ .init → vm.pc ≠ .tickSchedule →
    charged (vm :: past) + vm.slice vm.current ≤ 50

/-- What a step does to the slices. -/
inductive Spends (vm next : Vm) : Prop
  | schedules (schedules : Schedules vm) (live : next.live = vm.live)
      (slice : ∀ task, next.slice task = vm.slice task ∨ next.slice task = 50)
  | charges (charges : Charges vm) (live : next.live = vm.live)
      (current : next.current = vm.current) {left : Nat}
      (isLeft : (vm.slice vm.current + (2 ^ 32 - 1)) % 2 ^ 32 = left)
      (slice : next.slice = Function.update vm.slice vm.current (if left = 0 then 50 else left))
      (pc : next.pc = if left = 0 then .tickSchedule else .io)
  | turns (busy : ¬Schedules vm) (free : ¬Charges vm) (turns : Turns vm next)

/-- The modulus of the random time after which an interactive task goes to sleep. -/
def sleepModulus (vm : Vm) (task : Task) : Nat := vm.slice task * 100 % 2 ^ 32 / 1000 + 100

/-- What never wraps in a run. The decrement of a slice and the test for its end are exact, and
the modulus for the sleep timer does not vanish. -/
structure SlicesExact (setup : Setup) (vm : Vm) (past : List Vm) : Prop where
  sliced : Sliced vm
  charges : Charges vm → 1 ≤ vm.slice vm.current ∧ vm.slice vm.current ≤ 50 ∧
    (scheduleTick vm).slice = Function.update vm.slice vm.current
      (if vm.slice vm.current - 1 = 0 then 50 else vm.slice vm.current - 1) ∧
    (scheduleTick vm).pc = if vm.slice vm.current - 1 = 0 then .tickSchedule else .io
  free : vm.pc = .tick → ¬Charges vm → (scheduleTick vm).slice = vm.slice
  few : charged (vm :: past) ≤ 50
  modulus : ∀ next, schedule setup vm = some next →
    setup.profile.threadType next.current = .interactive →
      100 ≤ sleepModulus next next.current ∧ sleepModulus next next.current ≤ 105 ∧
        next.intWaitTimer =
          (500 * (setup.rand vm.drawn % sleepModulus next next.current + 5) : Nat)

section

variable {setup : Setup} {vm vm' vm'' : Vm} {born born' : List Task}

/-! ## Changes of other data -/

theorem slice_setTask (vm : Vm) (task : Task) {change : TaskStruct → TaskStruct}
    (same : (change (vm.task task)).timeSlice = (vm.task task).timeSlice) :
    (vm.setTask task change).slice = vm.slice := by
  funext other
  by_cases isTask : other = task
  · rw [isTask, Vm.slice, setTask_self, same, Vm.slice]
  · rw [Vm.slice, setTask_other vm change isTask, Vm.slice]

theorem Admits.trans (first : Admits vm vm' born) (second : Admits vm' vm'' born') :
    Admits vm vm'' (born' ++ born) where
  live := by rw [second.live, first.live, List.append_assoc]
  current := second.current.trans first.current
  newborn := by
    intro task isBorn
    by_cases later : task ∈ born'
    · exact second.newborn task later
    · rw [second.older task later]
      exact first.newborn task ((List.mem_append.mp isBorn).resolve_left later)
  older := by
    intro task away
    rw [List.mem_append, not_or] at away
    rw [second.older task away.1, first.older task away.2]

theorem Passes.admits (passes : Passes vm vm') (slice : vm'.slice = vm.slice) :
    Admits vm vm' [] where
  live := passes.live
  current := passes.current
  newborn := fun _ isBorn => absurd isBorn List.not_mem_nil
  older := fun task _ => congrFun slice task

/-! ## The run queue -/

theorem linkBehindHead_slice (vm : Vm) (first p : Task) :
    (linkBehindHead vm first p).slice = vm.slice := by
  unfold linkBehindHead
  rw [slice_setTask _ _ rfl, slice_setTask _ _ rfl, slice_setTask _ _ rfl]

theorem enqueue_slice {p : Task} (done : enqueue setup vm p = some vm') :
    vm'.slice = vm.slice := by
  simp only [enqueue, Option.bind_eq_bind, Option.bind_eq_some_iff] at done
  rcases done with ⟨first, -, linked⟩
  cases scheduler : setup.scheduler with
  | sjf =>
      rw [scheduler] at linked
      rw [← Option.some.inj linked]
      exact linkBehindHead_slice vm first p
  | sjfGoodness =>
      rw [scheduler] at linked
      rw [← Option.some.inj linked]
      exact (slice_setTask _ p rfl).trans (linkBehindHead_slice vm first p)

theorem deactivateTask_slice {p : Task} (done : deactivateTask vm p = some vm') :
    vm'.slice = vm.slice := by
  unfold deactivateTask at done
  rcases Option.bind_eq_some_iff.mp done with ⟨left, -, done⟩
  rcases Option.bind_eq_some_iff.mp done with ⟨right, -, done⟩
  rw [← Option.some.inj done]
  funext task
  simp only [Vm.slice, Vm.setTask, Function.update_apply]
  split_ifs <;> simp_all

/-! ## Forking -/

theorem newTask_slice (setup : Setup) (vm : Vm) (child : Nat) :
    (newTask setup vm child).slice (.process child) = 50 := by
  simp only [newTask]
  split
  · simp [Vm.slice, schedFork]
  · simp [Vm.slice, schedFork]

theorem forktask_admits {child : Nat} (done : forktask setup vm child = some vm') :
    Admits vm vm' [.process child] := by
  have spawned := forktask_spawned done
  unfold forktask at done
  rcases Option.bind_eq_some_iff.mp done with ⟨woken, enqueued, done⟩
  rw [← Option.some.inj done] at spawned ⊢
  have slice := (@slice_setTask woken woken.current (fun t => { t with needReschedule := true })
    rfl).trans (enqueue_slice enqueued)
  constructor
  · exact spawned.live
  · exact spawned.current
  · intro task isBorn
    rw [List.mem_singleton.mp isBorn]
    exact (congrFun slice _).trans (newTask_slice setup vm child)
  · intro task away
    have other : task ≠ .process child := fun same => away (List.mem_singleton.mpr same)
    refine (congrFun slice task).trans ?_
    rw [Vm.slice, newTask_task other, Vm.slice]

theorem spawnLoop_admits {parent : Task} (todo : List Nat) :
    ∀ {vm vm' : Vm}, spawnLoop setup parent todo vm = some vm' → ∃ born, Admits vm vm' born := by
  induction todo with
  | nil =>
      intro vm vm' done
      cases done
      exact ⟨[], (Timeless.refl vm).passes.admits rfl⟩
  | cons child rest induction =>
      intro vm vm' done
      simp only [spawnLoop] at done
      split_ifs at done
      · rcases Option.bind_eq_some_iff.mp done with ⟨forked, forks, done⟩
        have marked := (timeless_setInfo forked parent fun info =>
          { info with list := info.list.erase child }).passes.admits rfl
        rcases induction done with ⟨born, admits⟩
        exact ⟨_, (forktask_admits forks).trans (marked.trans admits)⟩
      · exact induction done

theorem spawnChildren_admits {parent : Task} (done : spawnChildren setup vm parent = some vm') :
    ∃ born, Admits vm vm' born := by
  unfold spawnChildren at done
  split_ifs at done
  · exact spawnLoop_admits _ done
  · cases done
    exact ⟨[], (Timeless.refl vm).passes.admits rfl⟩

theorem armIntTimer_slice (setup : Setup) (vm : Vm) : (armIntTimer setup vm).slice = vm.slice := by
  unfold armIntTimer Vm.slice
  split_ifs
  · rfl
  · rfl

theorem spawnAll_admits (done : spawnAll setup vm = some vm') : ∃ born, Admits vm vm' born := by
  unfold spawnAll at done
  rcases Option.bind_eq_some_iff.mp done with ⟨middle, ofCurrent, ofInit⟩
  rcases spawnChildren_admits ofCurrent with ⟨born, admits⟩
  rcases spawnChildren_admits ofInit with ⟨born', admits'⟩
  have armed := (armIntTimer_timeless setup vm).passes.admits (armIntTimer_slice setup vm)
  exact ⟨_, armed.trans (admits.trans admits')⟩

/-! ## Sleeping and waking up -/

theorem goToSleep_slice (done : goToSleep vm = some vm') : vm'.slice = vm.slice := by
  unfold goToSleep at done
  rcases Option.bind_eq_some_iff.mp done with ⟨left, deactivated, done⟩
  rw [← Option.some.inj done]
  have slept := deactivateTask_slice deactivated
  exact (slice_setTask left left.current rfl).trans slept

theorem tickSleep_slice (done : tickSleep vm = some vm') : vm'.slice = vm.slice := by
  rcases intWaitTimer_counts vm with ⟨intWaitTimer, ticked⟩
  simp only [tickSleep, ticked] at done
  split_ifs at done
  · have slept := goToSleep_slice done
    exact slept
  · rw [← Option.some.inj done]
    rfl

theorem wakeAll_slice (asleep : List Task) :
    ∀ {vm vm' : Vm}, wakeAll setup asleep vm = some vm' → vm'.slice = vm.slice := by
  induction asleep with
  | nil =>
      intro vm vm' done
      rw [← Option.some.inj done]
  | cons task rest induction =>
      intro vm vm' done
      rcases Option.bind_eq_some_iff.mp done with ⟨woken, enqueued, done⟩
      have woke := enqueue_slice enqueued
      exact (induction done).trans woke

theorem ioEvent_slice (done : ioEvent setup vm = some vm') : vm'.slice = vm.slice := by
  rcases intTimer_counts vm with ⟨intTimer, ticked, -⟩
  simp only [ioEvent, ticked] at done
  split_ifs at done
  · rcases Option.bind_eq_some_iff.mp done with ⟨woken, wakes, done⟩
    rw [← Option.some.inj done]
    have woke := wakeAll_slice _ wakes
    exact (slice_setTask woken woken.current rfl).trans woke
  · rw [← Option.some.inj done]
    rfl

/-! ## Killing -/

theorem report_slice (vm : Vm) (j : Task) : (report vm j).slice = vm.slice := by
  unfold report
  generalize schedClock vm = now
  have reported := @slice_setTask vm j (fun t =>
    { t with xd := sub64 now t.xd, xa := sub64 (sub64 now t.xd) t.xe }) rfl
  split_ifs
  · exact reported
  · exact reported

theorem killtask_slice (setup : Setup) (vm : Vm) : (killtask setup vm).slice = vm.slice := by
  have reported := report_slice vm vm.current
  cases isParent : setup.profile.parent vm.current with
  | none =>
      simp only [killtask, isParent]
      split_ifs
      · exact (slice_setTask _ .idle rfl).trans reported
      · exact reported
  | some of =>
      simp only [killtask, isParent]
      split_ifs
      · exact (slice_setTask _ .idle rfl).trans reported
      · exact reported

/-! ## A cycle -/

theorem taskEnd_slice {result : Bool × Vm} (done : taskEnd setup vm = some result) :
    result.2.slice = vm.slice := by
  simp only [taskEnd] at done
  split_ifs at done
  · rcases Option.bind_eq_some_iff.mp done with ⟨left, deactivated, done⟩
    rw [← Option.some.inj done]
    have stopped := deactivateTask_slice deactivated
    exact (killtask_slice setup left).trans stopped
  · rw [← Option.some.inj done]
    rfl
  · rw [← Option.some.inj done]

theorem work_slice {result : Bool × Vm} (done : work setup vm = some result) :
    result.2.slice = vm.slice := by
  rcases workDuration_counts vm with ⟨info, worked, -, -⟩
  simp only [work, worked] at done
  split_ifs at done
  · have ended := taskEnd_slice done
    exact ended
  · rw [← Option.some.inj done]
    rfl

theorem cycle_turns (done : cycle setup vm = some vm') : Turns vm vm' := by
  cases cycle_parts done with
  | ends ended => exact .dies (taskEnd_slice ended) (taskEnd_ends ended).1.died
  | inits lasts isInit spawned =>
      have first := (taskEnd_ends lasts).1.timeless.passes.admits (taskEnd_slice lasts)
      rcases spawnAll_admits spawned with ⟨born, admits⟩
      exact .admits (first.trans admits)
  | finishes lasts isProcess finished =>
      rcases work_outcome finished with ⟨ends, outcome⟩
      have slice := (work_slice finished).trans (taskEnd_slice lasts)
      exact .dies slice ((taskEnd_ends lasts).1.timeless.died outcome.died)
  | worksOn lasts isProcess worksOn sleeps spawned =>
      have first := (taskEnd_ends lasts).1.timeless.passes.admits (taskEnd_slice lasts)
      rcases work_outcome worksOn with ⟨ends, outcome⟩
      have worked := first.trans (outcome.timeless.passes.admits (work_slice worksOn))
      rcases spawnAll_admits spawned with ⟨born, admits⟩
      rcases sleeps with rfl | slept
      · exact .admits (worked.trans admits)
      · have drowsed := (tickSleep_timeless slept).passes.admits (tickSleep_slice slept)
        exact .admits ((worked.trans drowsed).trans admits)

/-! ## The tick -/

theorem slice_setSlice (vm : Vm) (p : Task) (value : TaskStruct → Nat) :
    (vm.setTask p fun t => { t with timeSlice := value t }).slice =
      Function.update vm.slice p (value (vm.task p)) := by
  funext task
  simp only [Vm.slice, Vm.setTask, Function.update_apply]
  split_ifs <;> rfl

/-- `scheduler_tick` takes one from a slice. When nothing is left, the task gets a whole one and
`schedule` is called. -/
theorem schedulerTick_slice {p : Task} (away : p ≠ vm.head) {left : Nat}
    (isLeft : (vm.slice p + (2 ^ 32 - 1)) % 2 ^ 32 = left) :
    (schedulerTick vm p).1.slice = Function.update vm.slice p (if left = 0 then 50 else left) ∧
      (schedulerTick vm p).2 = decide (left = 0) := by
  have taken := slice_setSlice vm p fun t => (t.timeSlice + (2 ^ 32 - 1)) % 2 ^ 32
  have remains : ((vm.setTask p fun t =>
      { t with timeSlice := (t.timeSlice + (2 ^ 32 - 1)) % 2 ^ 32 }).task p).timeSlice = left := by
    rw [setTask_self]
    exact isLeft
  simp only [schedulerTick, away, false_and, if_false, ne_eq, not_false_eq_true, if_true, remains]
  split_ifs with nothing
  · refine ⟨?_, (decide_eq_true nothing).symm⟩
    rw [slice_setSlice _ p fun _ => 50, taken, Function.update_idem]
  · exact ⟨taken.trans (congrArg _ isLeft), (decide_eq_false nothing).symm⟩

theorem schedulerTick_head {p : Task} (isHead : p = vm.head) :
    (schedulerTick vm p).1.slice = vm.slice := by
  simp only [schedulerTick, isHead, true_and, ne_eq, not_true_eq_false, if_false]
  split_ifs
  · rfl
  · rfl

theorem scheduleTick_free (head : vm.head = .init) (pc : vm.pc = .tick) (free : ¬Charges vm) :
    (scheduleTick vm).slice = vm.slice := by
  rcases timer_counts vm with ⟨timer, ticked, late⟩
  have tick : timer ≤ 0 → (vm.task vm.current).next ≠ none → (schedulerTick
      { vm with timer := msToTicks 10, jiffies := vm.jiffies + 1 } vm.current).1.slice =
        vm.slice := by
    intro expired queued
    have isInit : vm.current = .init := by
      by_contra away
      exact free ⟨pc, late.mp expired, queued, away⟩
    exact schedulerTick_head (isInit.trans head.symm)
  simp only [scheduleTick, ticked]
  split_ifs with expired queued
  · exact tick expired queued
  · exact tick expired queued
  · rfl
  · rfl

theorem scheduleTick_charges (head : vm.head = .init) (charges : Charges vm) {left : Nat}
    (isLeft : (vm.slice vm.current + (2 ^ 32 - 1)) % 2 ^ 32 = left) :
    (scheduleTick vm).slice =
        Function.update vm.slice vm.current (if left = 0 then 50 else left) ∧
      (scheduleTick vm).pc = if left = 0 then .tickSchedule else .io := by
  rcases charges with ⟨-, late, queued, away⟩
  rcases timer_counts vm with ⟨timer, ticked, counted⟩
  have expired : timer ≤ 0 := counted.mpr late
  have tick := @schedulerTick_slice { vm with timer := msToTicks 10, jiffies := vm.jiffies + 1 }
    vm.current (head.symm ▸ away) left isLeft
  simp only [scheduleTick, ticked, expired, queued, if_true, ne_eq, not_false_eq_true, tick.2,
    decide_eq_true_eq]
  exact ⟨tick.1, trivial⟩

/-! ## `schedule` -/

theorem yieldTo_slice (setup : Setup) (vm : Vm) {chosen : Task} (away : chosen ≠ vm.current) :
    (yieldTo setup vm chosen).slice = Function.update vm.slice vm.current 50 := by
  funext task
  unfold yieldTo
  generalize provisionalExpBurst vm = expBurst
  generalize provisionalBurst vm = burst
  generalize putAsideTime setup.scheduler vm = time
  generalize schedClock vm = now
  simp only [Vm.slice, Vm.setTask, Function.update_apply]
  split_ifs <;> simp_all

theorem Switched.slice {behind : List Task} {next : Vm}
    (switched : Switched setup vm behind next.current next.task) (task : Task) :
    next.slice task = vm.slice task ∨ next.slice task = 50 := by
  unfold Vm.slice
  generalize next.current = chosen at switched
  generalize next.task = tasks at switched ⊢
  cases switched with
  | alone one => exact .inl (congrFun (slice_setTask vm vm.current rfl) task)
  | pair two isFirst =>
      have cleared : (clearFlag vm).slice = vm.slice := slice_setTask vm vm.current rfl
      exact .inl (congrFun ((slice_setTask (clearFlag vm) _ rfl).trans cleared) task)
  | again many isFirst chosen => exact .inl (congrFun (slice_setTask vm vm.current rfl) task)
  | leaves many isFirst chosen away =>
      have whole := congrFun (yieldTo_slice setup vm away) task
      by_cases isCurrent : task = vm.current
      · rw [isCurrent, Function.update_self] at whole
        exact .inr (isCurrent ▸ whole)
      · rw [Function.update_of_ne isCurrent] at whole
        exact .inl whole

/-! ## Steps -/

theorem endCycle_slice (setup : Setup) (vm : Vm) : (endCycle setup vm).slice = vm.slice := by
  simp only [endCycle]
  split
  · rfl
  · rfl

theorem Turns.moved (turns : Turns vm vm') (pc : Pc) : Turns vm { vm' with pc := pc } := by
  cases turns with
  | admits admits => exact .admits ⟨admits.live, admits.current, admits.newborn, admits.older⟩
  | dies slice died => exact .dies slice ⟨died.jiffies, died.results, died.current, died.live, died.killed,
      died.times⟩

theorem schedules_spends {next : Vm} (schedules : Schedules vm)
    (taken : step setup vm = some next) : Spends vm next := by
  rcases step_switched schedules taken with ⟨behind, -, switched⟩
  rcases step_schedules schedules taken with ⟨scheduled, timer, pc, done, rfl⟩
  rcases schedule_rest done with ⟨intWaitTimer, drawn, rest⟩
  have live : scheduled.live = vm.live := by rw [rest]
  exact .schedules schedules live switched.slice

theorem Turns.spends {next : Vm} (turns : Turns vm next) (busy : ¬Schedules vm)
    (elsewhere : vm.pc ≠ .tick) : Spends vm next :=
  .turns busy (fun charges => elsewhere charges.1) turns

theorem step_spends {next : Vm} (reachable : Reachable setup vm)
    (taken : step setup vm = some next) : Spends vm next := by
  cases step_taken taken with
  | start pc scheduled => exact schedules_spends (.inl pc) taken
  | tickSchedule pc scheduled => exact schedules_spends (.inr (.inl pc)) taken
  | reschedule pc scheduled => exact schedules_spends (.inr (.inr pc)) taken
  | cycle pc cycled =>
      exact ((cycle_turns cycled).moved .tick).spends (by simp [Schedules, pc]) (by simp [pc])
  | tick pc =>
      rcases reachable.invariant with ⟨queue, invariant⟩
      have head := invariant.population.lists.runQueue.head
      have passes := scheduleTick_passes vm
      have busy : ¬Schedules vm := by simp [Schedules, pc]
      by_cases charges : Charges vm
      · have ticked := scheduleTick_charges head charges rfl
        exact .charges charges passes.live passes.current rfl ticked.1 ticked.2
      · have admits := passes.admits (scheduleTick_free head pc charges)
        exact .turns busy charges (.admits admits)
  | io pc event =>
      have admits := (ioEvent_timeless event).passes.admits (ioEvent_slice event)
      refine Turns.spends (.admits ⟨admits.live, admits.current, admits.newborn, admits.older⟩) ?_ ?_
      · simp [Schedules, pc]
      · simp [pc]
  | endCycle pc =>
      have turns := Turns.admits ((endCycle_passes setup vm).admits (endCycle_slice setup vm))
      exact turns.spends (by simp [Schedules, pc]) (by simp [pc])

/-! ## Runs -/

theorem left_eq {slice left : Nat} (rest : 1 ≤ slice ∧ slice ≤ 50)
    (isLeft : (slice + (2 ^ 32 - 1)) % 2 ^ 32 = left) : left = slice - 1 := by
  omega

theorem Charges.alive (charges : Charges vm) (reachable : Reachable setup vm) :
    vm.current ∈ vm.live := by
  rcases reachable.invariant with ⟨queue, invariant⟩
  apply invariant.population.queued
  by_contra unqueued
  exact charges.2.2.1 ((invariant.population.lists.runQueue.linked vm.current).mpr unqueued)

/-- Tasks that come in have a whole slice, and nobody's slice is used up by a death. -/
theorem Turns.sliced (turns : Turns vm vm') (sliced : Sliced vm) : Sliced vm' := by
  intro task alive notInit
  cases turns with
  | @admits born admits =>
      by_cases isBorn : task ∈ born
      · rw [admits.newborn task isBorn]
        decide
      · rw [admits.older task isBorn]
        rw [admits.live] at alive
        exact sliced task ((List.mem_append.mp alive).resolve_left isBorn) notInit
  | dies slice died =>
      rw [slice]
      rw [died.live] at alive
      exact sliced task (List.mem_of_mem_erase alive) notInit

theorem Spends.sliced (spends : Spends vm vm') (sliced : Sliced vm) : Sliced vm' := by
  cases spends with
  | schedules schedules live slice =>
      intro task alive notInit
      rcases slice task with same | whole
      · rw [same]
        exact sliced task (live ▸ alive) notInit
      · rw [whole]
        decide
  | @charges charges live current left isLeft slice pc =>
      intro task alive notInit
      have former := sliced task (live ▸ alive) notInit
      rw [slice, Function.update_apply]
      split_ifs with isCurrent nothing
      · decide
      · rw [isCurrent] at former
        have rest := left_eq former isLeft
        omega
      · exact former
  | turns busy free turns => exact turns.sliced sliced

/-- The slices of the forked tasks that are alive, in every machine of a run. -/
theorem Reachable.sliced (reachable : Reachable setup vm) : Sliced vm := by
  induction reachable with
  | boot => exact fun task alive notInit => absurd (List.mem_singleton.mp alive) notInit
  | step reachable taken induction =>
      exact (step_spends reachable taken).sliced induction

/-! ## The ticks between two calls of `schedule` -/

theorem Reachable.idle_not_live (reachable : Reachable setup vm) : .idle ∉ vm.live := by
  intro alive
  rcases reachable.invariant with ⟨queue, invariant⟩
  have known := invariant.population.lineage.known .idle alive
  simp [Profile.tasks] at known

theorem Turns.current {next : Vm} (turns : Turns vm next) (reachable : Reachable setup vm)
    (taken : step setup vm = some next) (alive : next.current ∈ next.live) :
    next.current = vm.current ∧ vm.current ∈ vm.live ∧
      next.slice next.current = vm.slice vm.current := by
  have notIdle : next.current ≠ .idle := fun isIdle =>
    (reachable.step taken).idle_not_live (isIdle ▸ alive)
  cases turns with
  | @admits born admits =>
      rw [admits.current] at notIdle ⊢
      have older := reachable.attended.resolve_left notIdle
      rcases (reachable.step taken).invariant with ⟨queue, invariant⟩
      have nodup := invariant.population.lineage.family.nodup
      rw [admits.live] at nodup
      have unborn : vm.current ∉ born := fun isBorn =>
        (List.nodup_append.mp nodup).2.2 _ isBorn _ older rfl
      exact ⟨rfl, older, admits.older _ unborn⟩
  | dies slice died => exact absurd died.current notIdle

theorem Within.step {next : Vm} {past : List Vm} (within : Within vm past)
    (reachable : Reachable setup vm) (taken : Vsched.step setup vm = some next) :
    Within next (vm :: past) := by
  cases step_spends reachable taken with
  | schedules schedules live slice =>
      have none : charged (next :: vm :: past) = 0 := if_pos schedules
      constructor
      · omega
      · intro alive notInit _
        have bound := ((reachable.step taken).sliced _ alive notInit).2
        omega
  | @charges charges live current left isLeft slice pc =>
      have calm : ¬Schedules vm := by
        simp [Schedules, charges.1]
      have counted : charged (next :: vm :: past) = charged (vm :: past) + 1 := by
        rw [charged, if_neg calm, if_pos charges]
      have alive := charges.alive reachable
      have notInit := charges.2.2.2
      have bound := reachable.sliced _ alive notInit
      have rest := within.rest alive notInit (by simp [charges.1])
      have taken := left_eq bound isLeft
      constructor
      · omega
      · intro _ _ later
        rw [pc] at later
        rw [slice, current, Function.update_self]
        split_ifs at later ⊢ with nothing
        · exact absurd rfl later
        · omega
  | turns busy free turns =>
      have counted : charged (next :: vm :: past) = charged (vm :: past) := by
        rw [charged, if_neg busy, if_neg free, Nat.add_zero]
      constructor
      · exact counted ▸ within.few
      · intro alive notInit _
        rcases turns.current reachable taken alive with ⟨current, former, slice⟩
        rw [counted, slice]
        rw [current] at notInit
        exact within.rest former notInit fun pc => busy (.inr (.inl pc))

/-- No more than a whole slice of ticks is charged between two calls of `schedule`. -/
theorem within_of_history {past : List Vm}
    (history : History (boot setup) (step setup) (vm :: past)) : Within vm past := by
  refine history.keeps Within ⟨Nat.zero_le _, ?_⟩ ?_
  · intro alive
    exact absurd alive Reachable.boot.idle_not_live
  · intro vm next past history within taken
    exact within.step (reachable_of_history history) taken

/-! ## The sleep timer -/

theorem contextSwitch_intWaitTimer {next : Task}
    (interactive : setup.profile.threadType next = .interactive) :
    (contextSwitch setup vm next).intWaitTimer =
      (500 * (setup.rand vm.drawn % sleepModulus vm next + 5) % 2 ^ 32 : Nat) := by
  simp only [contextSwitch, interactive, if_true, sleepModulus, Vm.slice]

theorem sleepModulus_bounds {task : Task} (bounds : 1 ≤ vm.slice task ∧ vm.slice task ≤ 50) :
    100 ≤ sleepModulus vm task ∧ sleepModulus vm task ≤ 105 := by
  unfold sleepModulus
  rw [Nat.mod_eq_of_lt (by omega)]
  omega

theorem schedule_sleeps {next : Vm} (reachable : Reachable setup vm)
    (scheduled : schedule setup vm = some next)
    (interactive : setup.profile.threadType next.current = .interactive) :
    100 ≤ sleepModulus next next.current ∧ sleepModulus next next.current ≤ 105 ∧
      next.intWaitTimer =
        (500 * (setup.rand vm.drawn % sleepModulus next next.current + 5) : Nat) := by
  rcases reachable.invariant with ⟨queue, invariant⟩
  have population := invariant.population
  have queued := (population.lists.runQueue.schedule population.length_le scheduled).1
  have notInit : next.current ≠ .init := by
    intro isInit
    rw [isInit] at interactive
    cases interactive
  have former := reachable.sliced _ (population.queued queued) notInit
  rcases schedule_switched scheduled with ⟨behind, -, switched, same⟩
  have bounds : 1 ≤ next.slice next.current ∧ next.slice next.current ≤ 50 := by
    rcases switched.slice next.current with kept | whole
    · exact kept.symm ▸ former
    · rw [whole]
      decide
  rcases sleepModulus_bounds bounds with ⟨lower, upper⟩
  have timer := @contextSwitch_intWaitTimer setup { vm with task := next.task } next.current
    interactive
  rw [← same] at timer
  refine ⟨lower, upper, timer.trans ?_⟩
  show ((500 * (setup.rand vm.drawn % sleepModulus next next.current + 5) % 2 ^ 32 : Nat) : Int) = _
  have short := Nat.mod_lt (setup.rand vm.drawn) (show sleepModulus next next.current > 0 by omega)
  rw [Nat.mod_eq_of_lt (by omega)]

/-! ## The slices in a run -/

/-- In every machine of a run the forked tasks that are alive have 1 to 50 ticks of their slices
left, so that neither the decrement nor the test for the end of a slice wraps, no more than 50
ticks are charged between two calls of `schedule`, and no modulus is 0. -/
theorem slices_exact {past : List Vm} (history : History (boot setup) (step setup) (vm :: past)) :
    SlicesExact setup vm past := by
  have reachable := reachable_of_history history
  rcases reachable.invariant with ⟨queue, invariant⟩
  have head := invariant.population.lists.runQueue.head
  constructor
  · exact reachable.sliced
  · intro charges
    have bounds := reachable.sliced _ (charges.alive reachable) charges.2.2.2
    have ticked := scheduleTick_charges head charges (show _ = vm.slice vm.current - 1 by omega)
    exact ⟨bounds.1, bounds.2, ticked⟩
  · exact fun pc free => scheduleTick_free head pc free
  · exact (within_of_history history).few
  · exact fun next scheduled interactive => schedule_sleeps reachable scheduled interactive

end

/-- A jiffy of an interactive process. -/
theorem slices_exact_drowsy : ∃ vm past, History (boot drowsy) (step drowsy) (vm :: past) ∧
    Charges vm ∧ vm.slice vm.current = 50 ∧ SlicesExact drowsy vm past := by
  have run : (after (step drowsy) 6 (boot drowsy)).any (fun first => KeepsCpu drowsy first ∧
      QuietFor drowsy first 4998 ∧ first.clocktick = 1 ∧
      (after (step drowsy) 1 (waitedFor drowsy first 4998)).any (fun vm => Charges vm ∧
        vm.slice vm.current = 50) = true) = true := by
    decide +kernel
  rcases (Option.any_eq_true _ _).mp run with ⟨first, taken, viewed⟩
  rcases of_decide_eq_true viewed with ⟨keeps, quiet, clocktick, viewed'⟩
  rcases (Option.any_eq_true _ _).mp viewed' with ⟨vm, taken', charged⟩
  rcases History.start.after 6 taken with ⟨past, history⟩
  rcases keeps.wait quiet (drowsy_early _ (by omega)) history with ⟨past, history⟩
  rcases history.after 1 taken' with ⟨past, history⟩
  rcases of_decide_eq_true charged with ⟨charges, slice⟩
  exact ⟨vm, past, history, charges, slice, slices_exact history⟩

end CE321.Vsched
