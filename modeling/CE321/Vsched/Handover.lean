import CE321.Vsched.Choice
import CE321.Vsched.Cpu

/-! # The branches of `schedule`

Which task gets the CPU in each branch of `schedule`, and what that does to the outgoing task
and the incoming one. No other task changes.
-/

namespace CE321.Vsched

/-- The places at which the machine calls `schedule`. -/
def Schedules (vm : Vm) : Prop :=
  vm.pc = .start ∨ vm.pc = .tickSchedule ∨ vm.pc = .reschedule

/-- The time for which the current task has owned the CPU. -/
def stayed (vm : Vm) : Nat := sub64 (schedClock vm) (vm.task vm.current).cpuOwned

def provisionalBurst (vm : Vm) : Nat := stayed vm % 2 ^ 32

def provisionalExpBurst (vm : Vm) : Nat :=
  (2 * provisionalBurst vm + (vm.task vm.current).expBurst) / 3 % 2 ^ 32

/-- The `last_time_in_runqueue` of the outgoing task. -/
def putAsideTime (scheduler : Scheduler) (vm : Vm) : Nat :=
  match scheduler with
  | .sjf => (vm.task vm.current).lastTimeInRunqueue
  | .sjfGoodness => schedClock vm

/-- The machine whose current task lost its flag. -/
def clearFlag (vm : Vm) : Vm := vm.setTask vm.current fun t => { t with needReschedule := false }

/-- The tasks after the branch for two tasks. -/
def restart (vm : Vm) (first : Task) : Vm :=
  (clearFlag vm).setTask first fun t => { t with cpuOwned := schedClock vm }

/-- The tasks while the next one is chosen among three and more. -/
def compared (setup : Setup) (vm : Vm) : Vm :=
  vm.setTask vm.current fun t => { t with
    needReschedule := false
    burst := provisionalBurst vm
    expBurst := provisionalExpBurst vm
    lastTimeInRunqueue := putAsideTime setup.scheduler vm }

/-- The tasks when the current one is chosen again. -/
def retain (setup : Setup) (vm : Vm) : Vm :=
  vm.setTask vm.current fun t => { t with
    needReschedule := false
    lastTimeInRunqueue := putAsideTime setup.scheduler vm }

/-- The tasks when another one is chosen. -/
def yieldTo (setup : Setup) (vm : Vm) (chosen : Task) : Vm :=
  (vm.setTask vm.current fun t => { t with
    needReschedule := false
    burst := provisionalBurst vm
    expBurst := provisionalExpBurst vm
    lastTimeInRunqueue := putAsideTime setup.scheduler vm
    xe := (t.xe + provisionalBurst vm) % 2 ^ 64
    timeSlice := 50 }).setTask chosen fun t => { t with cpuOwned := schedClock vm }

/-- The next task and the data of the tasks, for each branch of `schedule`. -/
inductive Switched (setup : Setup) (vm : Vm) (behind : List Task) : Task → (Task → TaskStruct) → Prop
  | alone (one : vm.nrRunning = 1) : Switched setup vm behind vm.head (clearFlag vm).task
  | pair {first : Task} (two : vm.nrRunning = 2) (isFirst : (vm.task vm.head).next = some first) :
      Switched setup vm behind first (restart vm first).task
  | again {first : Task} (many : vm.nrRunning ≠ 1 ∧ vm.nrRunning ≠ 2)
      (isFirst : (vm.task vm.head).next = some first)
      (chosen : choose setup.scheduler (compared setup vm) first behind = some vm.current) :
      Switched setup vm behind vm.current (retain setup vm).task
  | leaves {first next : Task} (many : vm.nrRunning ≠ 1 ∧ vm.nrRunning ≠ 2)
      (isFirst : (vm.task vm.head).next = some first)
      (chosen : choose setup.scheduler (compared setup vm) first behind = some next)
      (away : next ≠ vm.current) : Switched setup vm behind next (yieldTo setup vm next).task

section

variable {setup : Setup} {vm next : Vm}

/-! ## Updates of tasks -/

theorem setTask_congr (vm : Vm) (task : Task) {change change' : TaskStruct → TaskStruct}
    (same : change (vm.task task) = change' (vm.task task)) :
    vm.setTask task change = vm.setTask task change' := by
  unfold Vm.setTask
  rw [same]

theorem setTask_setTask (vm : Vm) (task : Task) (change change' : TaskStruct → TaskStruct) :
    (vm.setTask task change).setTask task change' =
      vm.setTask task fun t => change' (change t) := by
  simp [Vm.setTask]

@[simp] theorem setTask_self (vm : Vm) (task : Task) (change : TaskStruct → TaskStruct) :
    (vm.setTask task change).task task = change (vm.task task) := by
  simp [Vm.setTask]

theorem setTask_other (vm : Vm) {task other : Task} (change : TaskStruct → TaskStruct)
    (away : other ≠ task) : (vm.setTask task change).task other = vm.task other := by
  simp [Vm.setTask, away]

theorem schedClock_congr {vm vm' : Vm} (still : vm'.jiffies = vm.jiffies) :
    schedClock vm' = schedClock vm := by
  simp only [schedClock, still]

/-! ## The branch for three tasks and more -/

theorem calculateExpBurst_eq (p : TaskStruct) : calculateExpBurst p =
    { p with expBurst := (2 * p.burst + p.expBurst) / 3 % 2 ^ 32 } := rfl

theorem putAside_eq (setup : Setup) (vm : Vm) : putAside setup vm =
    vm.setTask vm.current fun t => { t with
      burst := provisionalBurst vm
      expBurst := provisionalExpBurst vm
      lastTimeInRunqueue := putAsideTime setup.scheduler vm } := by
  unfold putAside putAsideTime
  cases setup.scheduler with
  | sjf =>
      apply setTask_congr
      rw [calculateExpBurst_eq]
      rfl
  | sjfGoodness =>
      refine (setTask_setTask vm vm.current _ _).trans ?_
      apply setTask_congr
      rw [calculateExpBurst_eq]
      rfl

theorem clearFlag_stayed (vm : Vm) : stayed (clearFlag vm) = stayed vm := by
  have clock : schedClock (clearFlag vm) = schedClock vm := schedClock_congr rfl
  have current : (clearFlag vm).current = vm.current := rfl
  have owned : ((clearFlag vm).task vm.current).cpuOwned = (vm.task vm.current).cpuOwned := by
    simp [clearFlag]
  simp only [stayed, clock, current, owned]

theorem clearFlag_provisional (setup : Setup) (vm : Vm) :
    provisionalBurst (clearFlag vm) = provisionalBurst vm ∧
      provisionalExpBurst (clearFlag vm) = provisionalExpBurst vm ∧
      putAsideTime setup.scheduler (clearFlag vm) = putAsideTime setup.scheduler vm := by
  have burst : provisionalBurst (clearFlag vm) = provisionalBurst vm := by
    simp only [provisionalBurst, clearFlag_stayed]
  have expBurst : ((clearFlag vm).task (clearFlag vm).current).expBurst =
      (vm.task vm.current).expBurst := by
    simp [clearFlag, Vm.setTask]
  refine ⟨burst, ?_, ?_⟩
  · simp only [provisionalExpBurst, burst, expBurst]
  · unfold putAsideTime
    cases setup.scheduler with
    | sjf => simp [clearFlag, Vm.setTask]
    | sjfGoodness => exact schedClock_congr rfl

theorem putAside_clearFlag (setup : Setup) (vm : Vm) :
    putAside setup (clearFlag vm) = compared setup vm := by
  rcases clearFlag_provisional setup vm with ⟨burst, expBurst, time⟩
  rw [putAside_eq, burst, expBurst, time]
  exact setTask_setTask vm vm.current _ _

theorem takeOver_again (setup : Setup) (vm : Vm) :
    takeOver (compared setup vm) ((clearFlag vm).task vm.current) vm.current =
      retain setup vm := by
  have current : (compared setup vm).current = vm.current := rfl
  have burst : ((clearFlag vm).task vm.current).burst = (vm.task vm.current).burst := by
    simp [clearFlag]
  have expBurst : ((clearFlag vm).task vm.current).expBurst = (vm.task vm.current).expBurst := by
    simp [clearFlag]
  simp only [takeOver, current, if_true, burst, expBurst]
  refine (setTask_setTask vm vm.current _ _).trans ?_
  apply setTask_congr
  rfl

theorem takeOver_other (setup : Setup) (vm : Vm) (saved : TaskStruct) {chosen : Task}
    (away : chosen ≠ vm.current) :
    takeOver (compared setup vm) saved chosen = yieldTo setup vm chosen := by
  have current : (compared setup vm).current = vm.current := rfl
  have credited := setTask_setTask vm vm.current
    (fun t => { t with
      needReschedule := false
      burst := provisionalBurst vm
      expBurst := provisionalExpBurst vm
      lastTimeInRunqueue := putAsideTime setup.scheduler vm })
    (fun t => { t with xe := (t.xe + t.burst) % 2 ^ 64, timeSlice := 50 })
  have clock : schedClock ((compared setup vm).setTask vm.current fun t =>
      { t with xe := (t.xe + t.burst) % 2 ^ 64, timeSlice := 50 }) = schedClock vm :=
    schedClock_congr rfl
  simp only [takeOver, current, if_neg away.symm, clock]
  simp only [compared, credited, yieldTo]

theorem scheduleMany_switched {first : Task} {behind : List Task}
    (many : vm.nrRunning ≠ 1 ∧ vm.nrRunning ≠ 2) (isFirst : (vm.task vm.head).next = some first)
    (scheduled : scheduleMany setup (clearFlag vm) first behind = some next) :
    ∃ timed, next = contextSwitch setup timed next.current ∧
      (∃ task, timed = { vm with task := task }) ∧
      Switched setup vm behind next.current timed.task := by
  unfold scheduleMany at scheduled
  rcases Option.bind_eq_some_iff.mp scheduled with ⟨chosen, found, same⟩
  rw [putAside_clearFlag] at found same
  have current : next.current = chosen := by
    rw [← Option.some.inj same]
    rcases contextSwitch_eq setup (takeOver (compared setup vm)
      ((clearFlag vm).task (clearFlag vm).current) chosen) chosen with ⟨_, _, switched⟩
    rw [switched]
  rw [current]
  refine ⟨_, (Option.some.inj same).symm, ?_, ?_⟩
  · by_cases again : chosen = vm.current
    · rw [again]
      exact ⟨_, takeOver_again setup vm⟩
    · rw [takeOver_other setup vm _ again]
      exact ⟨_, rfl⟩
  · by_cases again : chosen = vm.current
    · rw [again] at found ⊢
      have kept : (takeOver (compared setup vm) ((clearFlag vm).task (clearFlag vm).current)
          vm.current).task = (retain setup vm).task := congrArg Vm.task (takeOver_again setup vm)
      rw [kept]
      exact .again many isFirst found
    · rw [takeOver_other setup vm _ again]
      exact .leaves many isFirst found again

theorem schedule_timed (scheduled : schedule setup vm = some next) : ∃ behind timed,
    printRq setup vm = some behind ∧ next = contextSwitch setup timed next.current ∧
      (∃ task, timed = { vm with task := task }) ∧
      Switched setup vm behind next.current timed.task := by
  unfold schedule at scheduled
  rcases Option.bind_eq_some_iff.mp scheduled with ⟨behind, walked, branch⟩
  refine ⟨behind, ?_⟩
  have current : ∀ (timed : Vm) (chosen : Task),
      (contextSwitch setup timed chosen).current = chosen := by
    intro timed chosen
    rcases contextSwitch_eq setup timed chosen with ⟨_, _, switched⟩
    rw [switched]
  have cleared : ∃ task, clearFlag vm = { vm with task := task } := ⟨_, rfl⟩
  by_cases one : vm.nrRunning = 1
  · rw [if_pos (show (vm.setTask vm.current _).nrRunning = 1 from one)] at branch
    have same := Option.some.inj branch
    rw [← same, current]
    exact ⟨_, walked, rfl, cleared, .alone one⟩
  · rw [if_neg (show ¬(vm.setTask vm.current _).nrRunning = 1 from one)] at branch
    rcases Option.bind_eq_some_iff.mp branch with ⟨first, isFirst, branch⟩
    have isFirst : (vm.task vm.head).next = some first := by
      have links := @sameLinks_setTask vm vm.current (fun t => { t with needReschedule := false })
        rfl rfl
      exact (links.next vm.head).symm.trans isFirst
    by_cases two : vm.nrRunning = 2
    · rw [if_pos (show (vm.setTask vm.current _).nrRunning = 2 from two)] at branch
      have same := Option.some.inj branch
      rw [← same, current]
      have clock : schedClock (clearFlag vm) = schedClock vm := schedClock_congr rfl
      refine ⟨(clearFlag vm).setTask first fun t => { t with cpuOwned := schedClock (clearFlag vm) },
        walked, rfl, ⟨_, rfl⟩, ?_⟩
      rw [clock]
      exact .pair two isFirst
    · rw [if_neg (show ¬(vm.setTask vm.current _).nrRunning = 2 from two)] at branch
      rcases scheduleMany_switched ⟨one, two⟩ isFirst branch with ⟨timed, same, rest, switched⟩
      exact ⟨timed, walked, same, rest, switched⟩

theorem schedule_switched (scheduled : schedule setup vm = some next) : ∃ behind,
    printRq setup vm = some behind ∧ Switched setup vm behind next.current next.task ∧
      next = contextSwitch setup { vm with task := next.task } next.current := by
  rcases schedule_timed scheduled with ⟨behind, timed, walked, same, ⟨task, rfl⟩, switched⟩
  have tasks : next.task = task := by
    rcases contextSwitch_eq setup { vm with task := task } next.current with ⟨_, _, equal⟩
    rw [equal] at same
    rw [same]
  rw [tasks]
  exact ⟨behind, walked, switched, same⟩

theorem schedule_rest (scheduled : schedule setup vm = some next) : ∃ intWaitTimer drawn, next =
    { vm with
      task := next.task
      current := next.current
      intWaitTimer := intWaitTimer
      drawn := drawn } := by
  rcases schedule_switched scheduled with ⟨behind, -, -, same⟩
  rcases contextSwitch_eq setup { vm with task := next.task } next.current with
    ⟨intWaitTimer, drawn, equal⟩
  exact ⟨intWaitTimer, drawn, same.trans equal⟩

theorem step_schedules (schedules : Schedules vm) (taken : step setup vm = some next) :
    ∃ switched timer pc, schedule setup vm = some switched ∧
      next = { switched with timer := timer, pc := pc } := by
  cases step_taken taken with
  | start pc scheduled => exact ⟨_, _, _, scheduled, rfl⟩
  | @tickSchedule switched pc scheduled => exact ⟨_, switched.timer, _, scheduled, rfl⟩
  | @reschedule switched pc scheduled => exact ⟨_, switched.timer, _, scheduled, rfl⟩
  | cycle pc => simp [Schedules, pc] at schedules
  | tick pc => simp [Schedules, pc] at schedules
  | io pc => simp [Schedules, pc] at schedules
  | endCycle pc => simp [Schedules, pc] at schedules

theorem step_switched (schedules : Schedules vm) (taken : step setup vm = some next) : ∃ behind,
    printRq setup vm = some behind ∧ Switched setup vm behind next.current next.task := by
  rcases step_schedules schedules taken with ⟨scheduled, timer, pc, done, rfl⟩
  rcases schedule_switched done with ⟨behind, walked, switched, -⟩
  exact ⟨behind, walked, switched⟩

end

end CE321.Vsched
