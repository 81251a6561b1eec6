import CE321.Foundation.Least
import CE321.Vsched.Quiet
import CE321.Vsched.Times

/-! # The choice of the shortest job

`schedule` of the scheduler `sjf` gives the CPU to the queued process of the shortest expected
burst. The outgoing one is compared by a provisional value, which it keeps only if it leaves.
-/

namespace CE321.Vsched

def comparedExpBurst (vm : Vm) (task : Task) : Nat :=
  if task = vm.current then (2 * stayed vm + (vm.task task).expBurst) / 3
  else (vm.task task).expBurst

/-- What `schedule` does with the tasks `behind` the head of the run queue. -/
structure ShortestJob (setup : Setup) (vm next : Vm) (behind : List Task) : Prop where
  queued : next.current ∈ vm.head :: behind
  initAlone : next.current = .init → vm.nrRunning = 1
  least : 3 ≤ vm.nrRunning → (vm.current ∈ behind → stayed vm < 2 ^ 32) →
    FirstLeast (comparedExpBurst vm) behind next.current
  queue : printRq setup next = some behind ∧ SameLinks vm next
  others : ∀ task, task ≠ vm.current → task ≠ next.current → next.task task = vm.task task
  again : 3 ≤ vm.nrRunning → next.current = vm.current →
    (next.task vm.current).times = (vm.task vm.current).times ∧
      (next.task vm.current).timeSlice = (vm.task vm.current).timeSlice

section

variable {setup : Setup} {vm next : Vm} {behind rest : List Task} {first : Task}

/-! ## Expected bursts -/

theorem provisionalExpBurst_lt (vm : Vm) : provisionalExpBurst vm < 2 ^ 32 :=
  Nat.mod_lt _ (Nat.two_pow_pos 32)

theorem provisionalExpBurst_eq (short : stayed vm < 2 ^ 32)
    (fits : (vm.task vm.current).expBurst < 2 ^ 32) :
    provisionalExpBurst vm = (2 * stayed vm + (vm.task vm.current).expBurst) / 3 := by
  unfold provisionalExpBurst provisionalBurst
  generalize stayed vm = stay at *
  rw [Nat.mod_eq_of_lt short, Nat.mod_eq_of_lt (by omega)]

theorem compared_expBurst (setup : Setup) (vm : Vm) (task : Task) :
    ((compared setup vm).task task).expBurst =
      if task = vm.current then provisionalExpBurst vm else (vm.task task).expBurst := by
  unfold compared
  generalize provisionalExpBurst vm = expBurst
  generalize provisionalBurst vm = burst
  generalize putAsideTime setup.scheduler vm = time
  split_ifs with same
  · rw [same, setTask_self]
  · rw [setTask_other vm _ same]

theorem yieldTo_expBurst (setup : Setup) (vm : Vm) {chosen : Task} (away : chosen ≠ vm.current)
    (task : Task) : ((yieldTo setup vm chosen).task task).expBurst =
      if task = vm.current then provisionalExpBurst vm else (vm.task task).expBurst := by
  unfold yieldTo
  generalize provisionalExpBurst vm = expBurst
  generalize provisionalBurst vm = burst
  generalize putAsideTime setup.scheduler vm = time
  generalize schedClock vm = now
  simp only [Vm.setTask, Function.update_apply]
  split_ifs <;> simp_all

theorem restart_expBurst (vm : Vm) (first task : Task) :
    ((restart vm first).task task).expBurst = (vm.task task).expBurst := by
  unfold restart
  generalize schedClock vm = now
  simp only [clearFlag, Vm.setTask, Function.update_apply]
  split_ifs <;> simp_all

/-- A call of `schedule` leaves an expected burst alone or makes it a provisional one. -/
theorem Switched.expBurst (switched : Switched setup vm behind next.current next.task)
    (task : Task) : (next.task task).expBurst = (vm.task task).expBurst ∨
      (next.task task).expBurst = provisionalExpBurst vm := by
  generalize next.current = chosen at switched
  generalize next.task = tasks at switched ⊢
  cases switched with
  | alone one => exact .inl (times_eq (clearFlag_times vm task)).2.2.2.2
  | pair two isFirst => exact .inl (restart_expBurst vm _ task)
  | again many isFirst chosen => exact .inl (times_eq (retain_times setup vm task)).2.2.2.2
  | leaves many isFirst chosen away =>
      rw [yieldTo_expBurst setup vm away]
      split_ifs
      · exact .inr rfl
      · exact .inl rfl

theorem Reachable.expBurst_lt {index : Nat} (reachable : Reachable setup vm)
    (alive : .process index ∈ vm.live) : (vm.task (.process index)).expBurst < 2 ^ 32 := by
  induction reachable with
  | boot => simp [Vsched.boot] at alive
  | @step vm next reachable taken induction =>
      cases step_timed taken with
      | passes places passes =>
          rw [(times_eq (passes.times _)).2.2.2.2]
          exact induction (passes.live ▸ alive)
      | switches schedules handover =>
          rw [handover.live] at alive
          rcases step_switched schedules taken with ⟨behind, -, switched⟩
          rcases switched.expBurst (.process index) with same | provisional
          · exact same ▸ induction alive
          · exact provisional ▸ provisionalExpBurst_lt vm
      | @spawns pc lives born spawned =>
          by_cases isBorn : .process index ∈ born
          · have newborn := congrArg (·.2.2.2.2) (spawned.newborn _ isBorn)
            simp only [TaskStruct.times] at newborn
            rw [newborn]
            exact Nat.two_pow_pos 32
          · rw [(times_eq (spawned.older _ isBorn)).2.2.2.2]
            rw [spawned.live] at alive
            exact induction ((List.mem_append.mp alive).resolve_left isBorn)
      | dies pc goes died =>
          rw [died.live] at alive
          rcases reachable.invariant with ⟨queue, invariant⟩
          have away : Task.process index ≠ vm.current :=
            ((invariant.population.lineage.family.nodup.mem_erase_iff).mp alive).1
          rw [(times_eq (died.times _ away)).2.2.2.2]
          exact induction (List.mem_of_mem_erase alive)

/-! ## The choice -/

theorem minExpBurstLoop_eq (vm : Vm) (list : List Task) : ∀ minTask,
    minExpBurstLoop vm list (vm.task minTask).expBurst minTask =
      scanLeast (fun task => (vm.task task).expBurst) list minTask := by
  induction list with
  | nil => exact fun _ => rfl
  | cons temp rest induction =>
      intro minTask
      simp only [minExpBurstLoop, scanLeast]
      split_ifs
      · exact induction temp
      · exact induction minTask

theorem findMinExpBurst_firstLeast (vm : Vm) (first : Task) (rest : List Task) :
    FirstLeast (fun task => (vm.task task).expBurst) (first :: rest)
      (findMinExpBurst vm first (first :: rest)) := by
  rw [findMinExpBurst, minExpBurstLoop_eq, scanLeast_self]
  exact scanLeast_firstLeast rest first

theorem RunQueue.schedule_returns (runQueue : RunQueue vm (.init :: behind))
    (few : behind.length < setup.profile.processes.length + 2)
    (chooses : ∀ vm first rest, behind = first :: rest →
      ∃ chosen, choose setup.scheduler vm first behind = some chosen) :
    ∃ next, Vsched.schedule setup vm = some next := by
  have count : vm.nrRunning = behind.length + 1 := runQueue.count
  have cleared := runQueue.same (@sameLinks_setTask vm vm.current
    (fun t => { t with needReschedule := false }) rfl rfl)
  unfold Vsched.schedule
  rw [runQueue.printRq few]
  simp only [Option.bind_eq_bind, Option.bind_some]
  by_cases one : vm.nrRunning = 1
  · exact ⟨_, if_pos (show (vm.setTask vm.current _).nrRunning = 1 from one)⟩
  · rw [if_neg (show ¬(vm.setTask vm.current _).nrRunning = 1 from one)]
    cases behind with
    | nil => exact absurd count one
    | cons first rest =>
        rw [cleared.isFirst]
        simp only [Option.bind_some]
        by_cases two : vm.nrRunning = 2
        · exact ⟨_, if_pos (show (vm.setTask vm.current _).nrRunning = 2 from two)⟩
        · rw [if_neg (show ¬(vm.setTask vm.current _).nrRunning = 2 from two)]
          unfold scheduleMany
          rcases chooses (putAside setup (clearFlag vm)) first rest rfl with ⟨chosen, found⟩
          exact ⟨_, Option.bind_eq_some_iff.mpr ⟨chosen, found, rfl⟩⟩

theorem Switched.others (switched : Switched setup vm behind next.current next.task) {task : Task}
    (notCurrent : task ≠ vm.current) (notNext : task ≠ next.current) :
    next.task task = vm.task task := by
  generalize next.current = chosen at switched notNext
  generalize next.task = tasks at switched ⊢
  cases switched with
  | alone one => exact setTask_other vm _ notCurrent
  | pair two isFirst => exact (setTask_other _ _ notNext).trans (setTask_other vm _ notCurrent)
  | again many isFirst chosen => exact setTask_other vm _ notCurrent
  | leaves many isFirst chosen away =>
      exact (setTask_other _ _ notNext).trans (setTask_other vm _ notCurrent)

theorem Switched.again_slice (switched : Switched setup vm behind next.current next.task)
    (many : 3 ≤ vm.nrRunning) (again : next.current = vm.current) :
    (next.task vm.current).times = (vm.task vm.current).times ∧
      (next.task vm.current).timeSlice = (vm.task vm.current).timeSlice := by
  generalize next.current = chosen at switched again
  generalize next.task = tasks at switched ⊢
  cases switched with
  | alone one => omega
  | pair two isFirst => omega
  | again many isFirst chosen =>
      refine ⟨retain_times setup vm vm.current, ?_⟩
      unfold retain
      rw [setTask_self]
  | leaves many isFirst chosen away => exact absurd again away

/-- Among three tasks and more the scheduler `sjf` takes the first one that compares best. -/
theorem Switched.least (switched : Switched setup vm (first :: rest) next.current next.task)
    (sjf : setup.scheduler = .sjf) (isFirst : (vm.task vm.head).next = some first)
    (many : 3 ≤ vm.nrRunning) (provisional : vm.current ∈ first :: rest →
      provisionalExpBurst vm = (2 * stayed vm + (vm.task vm.current).expBurst) / 3) :
    FirstLeast (comparedExpBurst vm) (first :: rest) next.current := by
  have least : ∀ {first' chosen}, (vm.task vm.head).next = some first' →
      choose setup.scheduler (compared setup vm) first' (first :: rest) = some chosen →
      FirstLeast (comparedExpBurst vm) (first :: rest) chosen := by
    intro first' chosen isFirst' found
    rw [isFirst] at isFirst'
    cases isFirst'
    rw [sjf] at found
    rw [← Option.some.inj found]
    apply (findMinExpBurst_firstLeast (compared setup vm) first rest).congr
    intro other member
    rw [compared_expBurst]
    unfold comparedExpBurst
    split_ifs with isCurrent
    · rw [provisional (isCurrent ▸ member), isCurrent]
    · rfl
  generalize next.current = chosen at switched ⊢
  generalize next.task = tasks at switched
  cases switched with
  | alone one => omega
  | pair two isFirst => omega
  | again many isFirst' found => exact least isFirst' found
  | leaves many isFirst' found away => exact least isFirst' found

theorem Switched.chosen_mem (switched : Switched setup vm (first :: rest) next.current next.task)
    (isFirst : (vm.task vm.head).next = some first) (several : vm.nrRunning ≠ 1) :
    next.current ∈ first :: rest := by
  have chosen : ∀ {first' chosen}, (vm.task vm.head).next = some first' →
      choose setup.scheduler (compared setup vm) first' (first :: rest) = some chosen →
      chosen ∈ first :: rest := by
    intro first' chosen isFirst' found
    rw [isFirst] at isFirst'
    cases isFirst'
    rcases List.mem_cons.mp (choose_mem found) with rfl | member
    · exact List.mem_cons_self
    · exact member
  generalize next.current = current at switched ⊢
  generalize next.task = tasks at switched
  cases switched with
  | alone one => exact absurd one several
  | pair two isFirst' =>
      rw [isFirst] at isFirst'
      cases isFirst'
      exact List.mem_cons_self
  | again many isFirst' found => exact chosen isFirst' found
  | leaves many isFirst' found away => exact chosen isFirst' found

/-- Wherever `schedule` is called with tasks in the run queue, it gives the CPU to the shortest
job, which is init only if there is no other. -/
theorem schedule_shortestJob (sjf : setup.scheduler = .sjf) (reachable : Reachable setup vm)
    (running : 1 ≤ vm.nrRunning) :
    ∃ behind next, printRq setup vm = some behind ∧ vm.head = .init ∧ .init ∉ behind ∧
      vm.nrRunning = behind.length + 1 ∧ schedule setup vm = some next ∧
      ShortestJob setup vm next behind := by
  rcases reachable.invariant with ⟨queue, invariant⟩
  have population := invariant.population
  have runQueue := population.lists.runQueue
  have few := population.length_le
  rcases runQueue.ring (List.ne_nil_of_length_pos (by rw [← runQueue.count]; omega)) with
    ⟨behind, rfl, -⟩
  have count : vm.nrRunning = behind.length + 1 := runQueue.count
  rw [List.length_cons] at few
  have walked := @RunQueue.printRq setup vm behind runQueue (by omega)
  rcases @RunQueue.schedule_returns setup vm behind runQueue (by omega) fun vm first rest _ => by
    rw [sjf]
    exact ⟨_, rfl⟩ with ⟨next, scheduled⟩
  rcases runQueue.schedule population.length_le scheduled with ⟨member, isScheduled⟩
  rcases schedule_switched scheduled with ⟨behind', walked', switched, -⟩
  rw [walked] at walked'
  cases walked'
  have notIn : Task.init ∉ behind := (List.nodup_cons.mp runQueue.nodup).1
  refine ⟨behind, next, walked, runQueue.head, notIn, count, scheduled, ?_⟩
  constructor
  · exact runQueue.head.symm ▸ member
  · intro isInit
    by_contra several
    cases behind with
    | nil => exact several count
    | cons first rest =>
        exact notIn (isInit ▸ switched.chosen_mem runQueue.isFirst several)
  · intro many short
    cases behind with
    | nil =>
        rw [List.length_nil] at count
        omega
    | cons first rest =>
        apply switched.least sjf runQueue.isFirst many
        intro inQueue
        apply provisionalExpBurst_eq (short inQueue)
        have queued : vm.current ∈ Task.init :: first :: rest := List.mem_cons_of_mem _ inQueue
        have alive := population.queued queued
        cases current : vm.current with
        | idle => exact absurd (current ▸ queued) population.idle_not_mem
        | init => exact absurd (current ▸ inQueue) notIn
        | process index => exact reachable.expBurst_lt (current ▸ alive)
  · exact ⟨(runQueue.same isScheduled.links).printRq (by omega), isScheduled.links⟩
  · exact fun task => switched.others
  · exact switched.again_slice

end

/-- Two processes that start at once, and one after 11 ms. None ends by itself. -/
def lateJob (scheduler : Scheduler) : Setup where
  profile :=
    { processes := [⟨0, -1, -1, .noninteractive, false, none⟩,
        ⟨0, -1, -1, .noninteractive, false, none⟩, ⟨11, -1, -1, .noninteractive, false, none⟩]
      endtime := 100
      parentsFirst := by
        have orphans : ∀ process ∈ [(⟨0, -1, -1, .noninteractive, false, none⟩ : Process),
            ⟨0, -1, -1, .noninteractive, false, none⟩,
            ⟨11, -1, -1, .noninteractive, false, none⟩], process.parent = none := by
          decide
        intro index parent process found isParent
        rw [orphans process (List.mem_of_getElem? found)] at isParent
        cases isParent
      typed := by decide }
  scheduler := scheduler
  ticksToMs := fun ticks => (ticks / 500 : Nat)
  rand := fun _ => 0
  malloced := fun _ => ⟨0, false, none, none, 0, 0, 0, 0, 0, 0, 0⟩

/-- The late process is forked when the process 1 has had the CPU for a jiffy. -/
theorem lateJob_forked (scheduler : Scheduler) : ∃ vm past,
    History (boot (lateJob scheduler)) (step (lateJob scheduler)) (vm :: past) ∧
    vm.pc = .reschedule ∧ vm.nrRunning = 4 ∧ vm.current = .process 1 ∧ vm.jiffies = 1 ∧
    vm.live = [.process 2, .process 1, .process 0, .init] ∧ vm.intwaitlist = [] ∧
    printRq (lateJob scheduler) vm = some [.process 2, .process 1, .process 0] ∧
    stayed vm = 10000000 ∧
    [.process 2, .process 1, .process 0].map (comparedExpBurst vm) = [0, 6666666, 0] ∧
    (vm.task (.process 0)).lastTimeInRunqueue = 0 := by
  have early : ∀ tick ≤ 5500,
      (lateJob scheduler).ticksToMs tick < (lateJob scheduler).profile.endtime := by
    intro tick early
    show ((tick / 500 : Nat) : Int) < 100
    omega
  apply @history_overJiffy (lateJob scheduler) (fun vm => vm.pc = .reschedule ∧
    vm.nrRunning = 4 ∧ vm.current = .process 1 ∧ vm.jiffies = 1 ∧
    vm.live = [.process 2, .process 1, .process 0, .init] ∧ vm.intwaitlist = [] ∧
    printRq (lateJob scheduler) vm = some [.process 2, .process 1, .process 0] ∧
    stayed vm = 10000000 ∧
    [.process 2, .process 1, .process 0].map (comparedExpBurst vm) = [0, 6666666, 0] ∧
    (vm.task (.process 0)).lastTimeInRunqueue = 0) _ 6 4998 500 5500 3 early
  cases scheduler <;> decide +kernel

/-- The process that leaves is compared by a burst of 10 ms, and the late one gets the CPU. -/
theorem schedule_shortestJob_lateJob : ∃ vm behind next, Reachable (lateJob .sjf) vm ∧
    Schedules vm ∧ vm.current = .process 1 ∧ behind = [.process 2, .process 1, .process 0] ∧
    behind.map (comparedExpBurst vm) = [0, 6666666, 0] ∧ next.current = .process 2 ∧
    schedule (lateJob .sjf) vm = some next ∧ ShortestJob (lateJob .sjf) vm next behind := by
  rcases lateJob_forked .sjf with
    ⟨vm, past, history, pc, count, current, -, -, -, queue, stay, compared, -⟩
  have reachable := reachable_of_history history
  rcases schedule_shortestJob rfl reachable (by omega) with
    ⟨behind, next, walked, -, -, -, scheduled, shortest⟩
  rw [queue, Option.some.injEq] at walked
  subst walked
  have isChosen : next.current = .process 2 := by
    rcases shortest.least (by omega) (fun _ => by omega) with ⟨before, after, split, less, -⟩
    cases before with
    | nil => exact (List.cons.inj split).1.symm
    | cons first rest =>
        have tooSmall := less first List.mem_cons_self
        rw [← (List.cons.inj split).1, (List.cons.inj compared).1] at tooSmall
        exact absurd tooSmall (Nat.not_lt_zero _)
  exact ⟨vm, _, next, reachable, .inr (.inr pc), current, rfl, compared, isChosen, scheduled,
    shortest⟩

end CE321.Vsched
