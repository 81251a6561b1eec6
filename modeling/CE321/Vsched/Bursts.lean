import CE321.Vsched.Accounts
import CE321.Vsched.Quiet
import CE321.Vsched.ShortestJob

/-! # The prediction of bursts

A process that leaves the CPU gets the expected burst that its stay predicts if its stay is
counted: from its switch-in on, in 32 bits, and in the branch of `schedule` for three tasks
and more.
-/

namespace CE321.Vsched

/-- The state in which the current task of a run was last switched in from a different one. -/
def switchIn : List Vm → Option Vm
  | next :: vm :: past => if next.current ≠ vm.current then some next else switchIn (vm :: past)
  | _ => none

def burstSince (entry vm : Vm) : Nat := (vm.jiffies - entry.jiffies) * 10000000

/-- The expected burst that follows from the time since the switch-in and from the expected
burst at that time. -/
def predictedExpBurst (entry vm : Vm) (task : Task) : Nat :=
  (2 * burstSince entry vm + (entry.task task).expBurst) / 3

/-- The stay of a task that leaves is counted as a burst, or with one or two tasks in the run
queue the expected burst is by chance what the burst predicts. -/
def CountsBurst (entry vm : Vm) (task : Task) : Prop :=
  3 ≤ vm.nrRunning ∧ burstSince entry vm < 2 ^ 32 ∧
      (vm.task task).cpuOwned = schedClock entry ∨
    vm.nrRunning ≤ 2 ∧ (burstSince entry vm = (entry.task task).expBurst ∨
      burstSince entry vm = (entry.task task).expBurst + 1)

/-- What is known of the stay of the current task: the CPU counts as owned since the switch-in
or a later time, and the expected burst is that of the switch-in. -/
structure Stays (entry vm : Vm) (task : Task) : Prop where
  owned : ∃ start, entry.jiffies ≤ start ∧ start ≤ vm.jiffies ∧
    (vm.task task).cpuOwned = start * 10000000 % 2 ^ 64
  expBurst : (vm.task task).expBurst = (entry.task task).expBurst

section

variable {setup : Setup} {vm next entry : Vm} {past : List Vm} {behind : List Task} {task : Task}

/-! ## The stay on the CPU -/

theorem restart_owned (vm : Vm) (first : Task) :
    ((restart vm first).task first).cpuOwned = schedClock vm := by
  unfold restart
  rw [setTask_self]

theorem yieldTo_owned (setup : Setup) (vm : Vm) (chosen : Task) :
    ((yieldTo setup vm chosen).task chosen).cpuOwned = schedClock vm := by
  unfold yieldTo
  rw [setTask_self]

theorem Stays.goesOn (stays : Stays entry vm task) (jiffies : vm.jiffies ≤ next.jiffies)
    (times : (next.task task).times = (vm.task task).times) : Stays entry next task := by
  rcases times_eq times with ⟨-, -, owned, -, expBurst⟩
  rcases stays.owned with ⟨start, late, early, same⟩
  exact ⟨⟨start, late, early.trans jiffies, owned.trans same⟩, expBurst.trans stays.expBurst⟩

theorem stays_owned (owned : (vm.task task).cpuOwned = schedClock vm) : Stays vm vm task :=
  ⟨⟨vm.jiffies, le_rfl, le_rfl, owned⟩, rfl⟩

theorem Switched.stays (switched : Switched setup vm behind next.current next.task)
    (jiffies : next.jiffies = vm.jiffies) (notHead : next.current ≠ vm.head) :
    (next.current ≠ vm.current → Stays next next next.current) ∧
      (next.current = vm.current → ∀ entry, Stays entry vm vm.current →
        Stays entry next next.current) := by
  have clock : schedClock next = schedClock vm := schedClock_congr jiffies
  have restarts : (next.task next.current).cpuOwned = schedClock vm →
      Stays next next next.current := fun owned => stays_owned (owned.trans clock.symm)
  generalize tasks : next.task = nextTask at switched
  generalize current : next.current = chosen at switched notHead
  cases switched with
  | alone one => exact absurd rfl notHead
  | pair two isFirst =>
      rw [current, tasks] at restarts
      refine ⟨fun _ => restarts (restart_owned vm _), fun same entry stays => ?_⟩
      rcases stays.owned with ⟨start, late, early, -⟩
      refine ⟨⟨vm.jiffies, late.trans early, jiffies.ge, ?_⟩, ?_⟩
      · rw [tasks, restart_owned]
        rfl
      · rw [tasks, restart_expBurst, same]
        exact stays.expBurst
  | again many isFirst found =>
      refine ⟨fun away => absurd rfl away, fun _ entry stays => stays.goesOn jiffies.ge ?_⟩
      rw [tasks]
      exact retain_times setup vm _
  | leaves many isFirst found away =>
      rw [current, tasks] at restarts
      exact ⟨fun _ => restarts (yieldTo_owned setup vm _), fun same => absurd same away⟩

theorem switchIn_stays (same : next.current = vm.current) :
    switchIn (next :: vm :: past) = switchIn (vm :: past) := by
  simp [switchIn, same]

theorem switchIn_enters (other : next.current ≠ vm.current) :
    switchIn (next :: vm :: past) = some next := by
  simp [switchIn, other]

theorem stays_of_history {index : Nat}
    (history : History (boot setup) (step setup) (vm :: past))
    (current : vm.current = .process index) :
    ∃ entry, switchIn (vm :: past) = some entry ∧ Stays entry vm vm.current := by
  refine history.keeps (fun vm past => ∀ index, vm.current = .process index →
    ∃ entry, switchIn (vm :: past) = some entry ∧ Stays entry vm vm.current) ?_ ?_ index current
  · intro index isProcess
    cases isProcess
  · intro vm next past history known taken index current
    have reachable := reachable_of_history history
    rcases reachable.invariant with ⟨queue, invariant⟩
    -- Nothing but `schedule` switches to a process.
    have stayed : next.current = vm.current → vm.jiffies ≤ next.jiffies →
        (next.task vm.current).times = (vm.task vm.current).times →
        ∃ entry, switchIn (next :: vm :: past) = some entry ∧ Stays entry next next.current := by
      intro same jiffies times
      rcases known index (same ▸ current) with ⟨entry, entered, stays⟩
      rw [switchIn_stays same, same]
      exact ⟨entry, entered, stays.goesOn jiffies times⟩
    cases step_timed taken with
    | passes places passes => exact stayed passes.current passes.jiffies (passes.times _)
    | switches schedules handover =>
        rcases step_switched schedules taken with ⟨behind, -, switched⟩
        have notHead : next.current ≠ vm.head := by
          rw [invariant.population.lists.runQueue.head, current]
          exact fun same => Task.noConfusion same
        rcases switched.stays handover.jiffies notHead with ⟨enters, goesOn⟩
        by_cases same : next.current = vm.current
        · rcases known index (same ▸ current) with ⟨entry, entered, stays⟩
          rw [switchIn_stays same]
          exact ⟨entry, entered, goesOn same entry stays⟩
        · rw [switchIn_enters same]
          exact ⟨next, rfl, enters same⟩
    | spawns pc lives spawned =>
        apply stayed spawned.current spawned.jiffies.ge
        apply spawned.older
        intro isBorn
        rcases (reachable.step taken).invariant with ⟨queue', invariant'⟩
        have nodup := invariant'.population.lineage.family.nodup
        rw [spawned.live] at nodup
        rcases reachable.attended with isIdle | alive
        · rw [spawned.current, isIdle] at current
          cases current
        · exact (List.nodup_append.mp nodup).2.2 _ isBorn _ alive rfl
    | dies pc goes died =>
        rw [died.current] at current
        cases current

/-! ## Leaving the CPU -/

/-- A burst that is cut to a width predicts what a longer time predicts exactly if it is that
time. Two times that differ do so by more than the rounding. -/
theorem provisional_iff {width stay burst expBurst : Nat} (wide : 1 < width)
    (fits : expBurst < width) (apart : stay = burst ∨ stay + 2 ≤ burst) :
    (2 * (stay % width) + expBurst) / 3 % width = (2 * burst + expBurst) / 3 ↔
      burst < width ∧ stay = burst := by
  have counted : stay % width < width := Nat.mod_lt _ (by omega)
  have within : stay % width ≤ stay := Nat.mod_le _ _
  have cut : width ≤ stay → stay % width + width ≤ stay := by
    intro long
    have rest := Nat.mod_le (stay - width) width
    rw [Nat.mod_eq_sub_mod long]
    omega
  rw [Nat.mod_eq_of_lt (show (2 * (stay % width) + expBurst) / 3 < width by omega)]
  constructor
  · intro same
    omega
  · rintro ⟨short, rfl⟩
    rw [Nat.mod_eq_of_lt short]

/-- The times since two readings of the clock are the same if and only if the readings are, as
long as the longer one fits in the clock. -/
theorem since_iff {entered start now : Nat} (late : entered ≤ start) (early : start ≤ now)
    (short : (now - entered) * 10000000 < 2 ^ 64) :
    (now - start) * 10000000 = (now - entered) * 10000000 ↔
      start * 10000000 % 2 ^ 64 = entered * 10000000 % 2 ^ 64 := by
  constructor
  · intro same
    have gaps := Nat.eq_of_mul_eq_mul_right (by decide) same
    have equal : start = entered := by
      clear same short
      omega
    rw [equal]
  · intro same
    have whole := Nat.sub_mod_eq_zero_of_mod_eq same
    have less : start * 10000000 - entered * 10000000 < 2 ^ 64 := by
      refine lt_of_le_of_lt ?_ short
      clear whole same short
      omega
    rw [Nat.mod_eq_of_lt less] at whole
    clear less same short
    omega

theorem Switched.few_expBurst (switched : Switched setup vm behind next.current next.task)
    (few : vm.nrRunning = 1 ∨ vm.nrRunning = 2) (task : Task) :
    (next.task task).expBurst = (vm.task task).expBurst := by
  generalize next.current = chosen at switched
  generalize next.task = tasks at switched ⊢
  cases switched with
  | alone one => exact (times_eq (clearFlag_times vm task)).2.2.2.2
  | pair two isFirst => exact restart_expBurst vm _ task
  | again many isFirst found => exact absurd few (not_or.mpr many)
  | leaves many isFirst found away => exact absurd few (not_or.mpr many)

theorem Switched.many_expBurst (switched : Switched setup vm behind next.current next.task)
    (many : 3 ≤ vm.nrRunning) (away : next.current ≠ vm.current) :
    (next.task vm.current).expBurst = provisionalExpBurst vm := by
  generalize next.current = chosen at switched away
  generalize next.task = tasks at switched ⊢
  cases switched with
  | alone one => omega
  | pair two isFirst => omega
  | again several isFirst found => exact absurd rfl away
  | leaves several isFirst found away' => rw [yieldTo_expBurst setup vm away', if_pos rfl]

theorem Switched.leaves_iff (switched : Switched setup vm behind next.current next.task)
    (stays : Stays entry vm vm.current) (hasTask : vm.nrRunning ≠ 0)
    (fits : (vm.task vm.current).expBurst < 2 ^ 32) (away : next.current ≠ vm.current) :
    (next.task vm.current).expBurst = predictedExpBurst entry vm vm.current ↔
      CountsBurst entry vm vm.current := by
  rcases stays with ⟨⟨start, late, early, owned⟩, expBurst⟩
  by_cases few : vm.nrRunning ≤ 2
  · rw [switched.few_expBurst (by omega), expBurst]
    unfold predictedExpBurst CountsBurst
    generalize (entry.task vm.current).expBurst = before
    generalize burstSince entry vm = burst
    constructor
    · intro byChance
      exact .inr ⟨few, by omega⟩
    · rintro (⟨many, -⟩ | ⟨-, byChance⟩)
      · omega
      · omega
  · have several : 3 ≤ vm.nrRunning := by omega
    have narrow : (vm.jiffies - start) * 10000000 % 2 ^ 64 % 2 ^ 32 =
        (vm.jiffies - start) * 10000000 % 2 ^ 32 :=
      Nat.mod_mod_of_dvd _ (Nat.pow_dvd_pow 2 (by decide))
    rw [switched.many_expBurst several away]
    unfold provisionalExpBurst provisionalBurst stayed predictedExpBurst CountsBurst burstSince
    rw [expBurst] at fits
    rw [owned, schedClock, sub64_clock early, expBurst, narrow,
      provisional_iff (Nat.one_lt_two_pow (by decide)) fits (by omega)]
    constructor
    · rintro ⟨short, same⟩
      exact .inl ⟨several, short, (since_iff late early (by omega)).mp same⟩
    · rintro (⟨-, short, same⟩ | ⟨isFew, -⟩)
      · exact ⟨short, (since_iff late early (by omega)).mpr same⟩
      · omega

theorem Switched.again_expBurst (switched : Switched setup vm behind next.current next.task)
    (again : next.current = vm.current) :
    (next.task vm.current).expBurst = (vm.task vm.current).expBurst := by
  generalize next.current = chosen at switched again
  generalize next.task = tasks at switched ⊢
  cases switched with
  | alone one => exact (times_eq (clearFlag_times vm _)).2.2.2.2
  | pair two isFirst => exact restart_expBurst vm _ _
  | again many isFirst found => exact (times_eq (retain_times setup vm _)).2.2.2.2
  | leaves many isFirst found away => exact absurd again away

/-- In every run, when `schedule` is called for a process that was switched in, its expected
burst stays what it was if it is chosen again, and is the predicted one after it left exactly
if its stay was counted. -/
theorem expBurst_predicted_iff {index : Nat}
    (history : History (boot setup) (step setup) (vm :: past)) (schedules : Schedules vm)
    (current : vm.current = .process index) (taken : step setup vm = some next) :
    ∃ entry, switchIn (vm :: past) = some entry ∧
      (next.current = vm.current →
        (next.task vm.current).expBurst = (vm.task vm.current).expBurst) ∧
      (next.current ≠ vm.current →
        ((next.task vm.current).expBurst = predictedExpBurst entry vm vm.current ↔
          CountsBurst entry vm vm.current)) := by
  have reachable := reachable_of_history history
  rcases reachable.invariant with ⟨queue, invariant⟩
  rcases stays_of_history history current with ⟨entry, entered, stays⟩
  rcases step_switched schedules taken with ⟨behind, walked, switched⟩
  have alive : vm.current ∈ vm.live := by
    refine reachable.attended.resolve_left fun isIdle => ?_
    rw [isIdle] at current
    cases current
  have fits : (vm.task vm.current).expBurst < 2 ^ 32 := by
    rw [current] at alive ⊢
    exact reachable.expBurst_lt alive
  have runQueue := invariant.population.lists.runQueue
  have hasTask : vm.nrRunning ≠ 0 := by
    intro none
    rw [List.eq_nil_of_length_eq_zero (runQueue.count.symm.trans none)] at runQueue
    rw [runQueue.printRq_empty] at walked
    cases walked
  exact ⟨entry, entered, switched.again_expBurst, switched.leaves_iff stays hasTask fits⟩

end

/-! ## A process that falls asleep alone -/

/-- One interactive process that goes to sleep 15 ms after it got the CPU. -/
def drowsy : Setup where
  profile :=
    { processes := [⟨0, -1, -1, .interactive, false, none⟩]
      endtime := 100
      parentsFirst := by
        intro index parent process found isParent
        rw [List.mem_singleton.mp (List.mem_of_getElem? found)] at isParent
        cases isParent
      typed := by
        intro process member
        rw [List.mem_singleton.mp member]
        exact fun same => ThreadType.noConfusion same }
  scheduler := .sjf
  ticksToMs := fun ticks => (ticks / 500 : Nat)
  rand := fun _ => 10
  malloced := fun _ => ⟨0, false, none, none, 0, 0, 0, 0, 0, 0, 0⟩

theorem drowsy_early (last : Nat) (less : last < 50000) :
    ∀ tick ≤ last, drowsy.ticksToMs tick < drowsy.profile.endtime := by
  intro tick early
  show ((tick / 500 : Nat) : Int) < 100
  omega

/-- The process is about to go to sleep, in the second jiffy. -/
theorem drowsy_sleepy : ∃ vm past, History (boot drowsy) (step drowsy) (vm :: past) ∧
    vm.pc = .cycle ∧ vm.current = .process 0 ∧ vm.intWaitTimer = 1 ∧ vm.clocktick = 7500 :=
  @history_overJiffy drowsy (fun vm => vm.pc = .cycle ∧ vm.current = .process 0 ∧
    vm.intWaitTimer = 1 ∧ vm.clocktick = 7500) _ 6 4998 2500 7500 0
    (drowsy_early 7500 (by decide)) (by decide +kernel)

/-- The process went to sleep after a jiffy, and `schedule` is about to be called. -/
theorem drowsy_asleep : ∃ vm past, History (boot drowsy) (step drowsy) (vm :: past) ∧
    vm.pc = .reschedule ∧ vm.current = .process 0 ∧ vm.jiffies = 1 ∧ vm.nrRunning = 1 ∧
    vm.intwaitlist = [.process 0] ∧ .process 0 ∈ vm.live ∧
    (vm.task (.process 0)).cpuOwned = 0 ∧ (vm.task (.process 0)).expBurst = 0 ∧
    (step drowsy vm).any (fun next => next.current = .init) = true :=
  @history_overJiffy drowsy (fun vm => vm.pc = .reschedule ∧ vm.current = .process 0 ∧
    vm.jiffies = 1 ∧ vm.nrRunning = 1 ∧ vm.intwaitlist = [.process 0] ∧
    .process 0 ∈ vm.live ∧ (vm.task (.process 0)).cpuOwned = 0 ∧
    (vm.task (.process 0)).expBurst = 0 ∧
    (step drowsy vm).any (fun next => next.current = .init) = true) _ 6 4998 2500 7500 3
    (drowsy_early 7500 (by decide)) (by decide +kernel)

/-- The call of `schedule` by which the process leaves the CPU. -/
theorem drowsy_leaves : ∃ vm past next, History (boot drowsy) (step drowsy) (vm :: past) ∧
    Schedules vm ∧ vm.current = .process 0 ∧ .process 0 ∈ vm.live ∧ step drowsy vm = some next ∧
    next.current ≠ vm.current ∧ vm.nrRunning ≤ 2 ∧ vm.jiffies = 1 ∧
    (vm.task vm.current).cpuOwned = 0 ∧ (vm.task vm.current).expBurst = 0 ∧
    (next.task vm.current).expBurst = 0 := by
  rcases drowsy_asleep with
    ⟨vm, past, history, pc, current, jiffies, count, -, alive, owned, expBurst, viewed⟩
  rcases (Option.any_eq_true _ _).mp viewed with ⟨next, taken, isInit⟩
  have schedules : Schedules vm := .inr (.inr pc)
  have noBurst : (vm.task vm.current).expBurst = 0 := current.symm ▸ expBurst
  rcases step_switched schedules taken with ⟨behind, -, switched⟩
  refine ⟨vm, past, next, history, schedules, current, alive, taken, ?_, by omega, jiffies,
    current.symm ▸ owned, noBurst, (switched.few_expBurst (by omega) _).trans noBurst⟩
  rw [of_decide_eq_true isInit, current]
  exact fun same => Task.noConfusion same

theorem expBurst_predicted_iff_drowsy : ∃ vm past next entry,
    History (boot drowsy) (step drowsy) (vm :: past) ∧ step drowsy vm = some next ∧
    next.current ≠ vm.current ∧ switchIn (vm :: past) = some entry ∧
    ((next.task vm.current).expBurst = predictedExpBurst entry vm vm.current ↔
      CountsBurst entry vm vm.current) := by
  rcases drowsy_leaves with ⟨vm, past, next, history, schedules, current, -, taken, away, -⟩
  rcases expBurst_predicted_iff history schedules current taken with ⟨entry, entered, -, leaves⟩
  exact ⟨vm, past, next, entry, history, taken, away, entered, leaves away⟩

theorem start_eq_zero {start : Nat} (early : start ≤ 1)
    (reads : start * 10000000 % 2 ^ 64 = 0) : start = 0 := by
  have less : start * 10000000 < 2 ^ 64 :=
    lt_of_le_of_lt (Nat.mul_le_mul_right 10000000 early) (by decide)
  rw [Nat.mod_eq_of_lt less] at reads
  exact (Nat.mul_eq_zero.mp reads).resolve_right (by decide)

/-- The process leaves the CPU after a burst of 10 ms with an expected burst of 0, and not of
the 6666666 ns that follow from the burst. -/
theorem expBurst_missed : ∃ vm past next entry,
    History (boot drowsy) (step drowsy) (vm :: past) ∧ Schedules vm ∧
    vm.current = .process 0 ∧ .process 0 ∈ vm.live ∧ step drowsy vm = some next ∧
    next.current ≠ vm.current ∧ switchIn (vm :: past) = some entry ∧
    burstSince entry vm = 10000000 ∧ (entry.task vm.current).expBurst = 0 ∧
    predictedExpBurst entry vm vm.current = 6666666 ∧ (next.task vm.current).expBurst = 0 := by
  rcases drowsy_leaves with
    ⟨vm, past, next, history, schedules, current, alive, taken, away, -, jiffies, owned, noBurst, left⟩
  rcases stays_of_history history current with ⟨entry, entered, ⟨start, late, early, same⟩, kept⟩
  have started : start = 0 := start_eq_zero (jiffies ▸ early) (same.symm.trans owned)
  have atStart : entry.jiffies = 0 := Nat.le_zero.mp (started ▸ late)
  have burst : burstSince entry vm = 10000000 := by
    simp only [burstSince, jiffies, atStart, Nat.sub_zero, Nat.one_mul]
  refine ⟨vm, past, next, entry, history, schedules, current, alive, taken, away, entered, burst,
    kept.symm.trans noBurst, ?_, left⟩
  simp only [predictedExpBurst, burst, kept.symm.trans noBurst, Nat.add_zero, Nat.reduceMul,
    Nat.reduceDiv]

end CE321.Vsched
