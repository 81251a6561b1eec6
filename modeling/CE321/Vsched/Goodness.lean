import CE321.Vsched.ShortestJob

/-! # The choice by goodness

`calculate_goodness` of the scheduler `sjf-goodness` compares products of two quotients, each
of which is truncated. Where nothing wraps, it returns the first task of the least such product.
-/

namespace CE321.Vsched

def waiting (vm : Vm) (task : Task) : Nat := schedClock vm - (vm.task task).lastTimeInRunqueue

/-- The least expected burst and the longest waiting time of some tasks. -/
structure Extremes (vm : Vm) (tasks : List Task) (minExpBurst maxWaiting : Nat) : Prop where
  shortest : IsLeast ((fun task => (vm.task task).expBurst) '' {task | task ∈ tasks}) minExpBurst
  longest : IsGreatest (waiting vm '' {task | task ∈ tasks}) maxWaiting

def exactGoodness (vm : Vm) (minExpBurst maxWaiting : Nat) (task : Task) : ℚ :=
  (1 + (vm.task task).expBurst : ℕ) / (1 + minExpBurst : ℕ) *
    ((1 + maxWaiting : ℕ) / (1 + waiting vm task : ℕ))

def truncatedGoodness (vm : Vm) (minExpBurst maxWaiting : Nat) (task : Task) : Nat :=
  (1 + (vm.task task).expBurst) / (1 + minExpBurst) * ((1 + maxWaiting) / (1 + waiting vm task))

/-- The truncated goodness in the unsigned arithmetic of its operands. -/
def machineGoodness (vm : Vm) (minExpBurst maxWaiting : Nat) (task : Task) : Nat :=
  (1 + (vm.task task).expBurst) % 2 ^ 32 / (1 + minExpBurst) *
    ((1 + maxWaiting) / (1 + waiting vm task)) % 2 ^ 64

/-! ## Truncated quotients -/

theorem quotient_lt {a b : Nat} (positive : 0 < b) (atLeast : b ≤ a) :
    (a : ℚ) / b < 2 * (a / b : ℕ) := by
  have whole : 1 ≤ a / b := (Nat.one_le_div_iff positive).mpr atLeast
  have bound : a < b * (a / b + 1) := Nat.lt_mul_div_succ a positive
  have less : (a : ℚ) / b < (a / b : ℕ) + 1 := by
    rw [div_lt_iff₀ (Nat.cast_pos.mpr positive), mul_comm]
    exact_mod_cast bound
  have atLeastOne : (1 : ℚ) ≤ (a / b : ℕ) := by exact_mod_cast whole
  linarith only [less, atLeastOne]

section

variable {vm : Vm} {minExpBurst maxWaiting : Nat} {task first : Task} {rest tasks : List Task}

theorem truncatedGoodness_le :
    (truncatedGoodness vm minExpBurst maxWaiting task : ℚ) ≤
      exactGoodness vm minExpBurst maxWaiting task := by
  unfold truncatedGoodness exactGoodness
  rw [Nat.cast_mul]
  exact mul_le_mul Nat.cast_div_le Nat.cast_div_le (Nat.cast_nonneg _)
    (div_nonneg (Nat.cast_nonneg _) (Nat.cast_nonneg _))

theorem exactGoodness_lt (shortest : minExpBurst ≤ (vm.task task).expBurst)
    (longest : waiting vm task ≤ maxWaiting) : exactGoodness vm minExpBurst maxWaiting task <
      4 * truncatedGoodness vm minExpBurst maxWaiting task := by
  have burst := @quotient_lt (1 + (vm.task task).expBurst) (1 + minExpBurst) (by omega) (by omega)
  have waited := @quotient_lt (1 + maxWaiting) (1 + waiting vm task) (by omega) (by omega)
  unfold exactGoodness truncatedGoodness
  rw [Nat.cast_mul]
  calc _ < _ := mul_lt_mul'' burst waited (div_nonneg (Nat.cast_nonneg _) (Nat.cast_nonneg _))
        (div_nonneg (Nat.cast_nonneg _) (Nat.cast_nonneg _))
    _ = _ := by ring

/-! ## The arithmetic of the code -/

theorem clock_lt (jiffies : Nat) : jiffies * 10000000 % 2 ^ 64 + 1 < 2 ^ 64 := by
  omega

/-- The clock has an even reading, so one can be added. -/
theorem schedClock_lt (vm : Vm) : schedClock vm + 1 < 2 ^ 64 := clock_lt vm.jiffies

theorem sub64_of_le {a b : Nat} (later : b ≤ a) (fits : a < 2 ^ 64) : sub64 a b = a - b := by
  simp only [sub64]
  omega

theorem sub64_waiting (notLater : (vm.task task).lastTimeInRunqueue ≤ schedClock vm) :
    sub64 (schedClock vm) (vm.task task).lastTimeInRunqueue = waiting vm task :=
  sub64_of_le notLater (Nat.lt_of_succ_lt (schedClock_lt vm))

theorem one_add_waiting (vm : Vm) (task : Task) :
    (1 + waiting vm task) % 2 ^ 64 = 1 + waiting vm task := by
  have bound := schedClock_lt vm
  have less : waiting vm task ≤ schedClock vm := Nat.sub_le _ _
  apply Nat.mod_eq_of_lt
  generalize schedClock vm = now at bound less
  omega

theorem findMaxWaitingInRQ_eq (vm : Vm) (first : Task) (rest : List Task) :
    findMaxWaitingInRQ vm first (first :: rest) =
      (vm.task (scanLeast (fun task => (vm.task task).lastTimeInRunqueue) rest
        first)).lastTimeInRunqueue := by
  have scanned := @foldl_min_scanLeast _ _ _ (fun task => (vm.task task).lastTimeInRunqueue)
    (first :: rest) first
  rw [scanLeast_self] at scanned
  exact scanned

/-- The oldest time in the run queue gives the longest waiting time. -/
theorem maxWaiting_isGreatest
    (notLater : ∀ task ∈ first :: rest, (vm.task task).lastTimeInRunqueue ≤ schedClock vm) :
    IsGreatest (waiting vm '' {task | task ∈ first :: rest})
      (sub64 (schedClock vm) (findMaxWaitingInRQ vm first (first :: rest))) := by
  have least := @scanLeast_firstLeast _ _ _ (fun task => (vm.task task).lastTimeInRunqueue) rest first
  rw [findMaxWaitingInRQ_eq]
  generalize scanLeast (fun task => (vm.task task).lastTimeInRunqueue) rest first = oldest at least
  rw [sub64_waiting (notLater oldest least.member)]
  refine ⟨⟨oldest, least.member, rfl⟩, ?_⟩
  rintro _ ⟨task, member, rfl⟩
  exact Nat.sub_le_sub_left (least.le member) _

theorem minExpBurst_isLeast (vm : Vm) (first : Task) (rest : List Task) :
    IsLeast ((fun task => (vm.task task).expBurst) '' {task | task ∈ first :: rest})
      (vm.task (findMinExpBurst vm first (first :: rest))).expBurst := by
  have least := findMinExpBurst_firstLeast vm first rest
  refine ⟨⟨_, least.member, rfl⟩, ?_⟩
  rintro _ ⟨task, member, rfl⟩
  exact least.le member

theorem goodness_eq (fits : maxWaiting ≤ schedClock vm)
    (notLater : (vm.task task).lastTimeInRunqueue ≤ schedClock vm) :
    goodness vm (schedClock vm) maxWaiting minExpBurst task =
      some (machineGoodness vm minExpBurst maxWaiting task) := by
  have bound := schedClock_lt vm
  have whole : (1 + maxWaiting) % 2 ^ 64 = 1 + maxWaiting := by
    apply Nat.mod_eq_of_lt
    generalize schedClock vm = now at bound fits
    omega
  have notZero : 1 + waiting vm task ≠ 0 := by omega
  simp only [goodness, sub64_waiting notLater, one_add_waiting, whole, if_neg notZero]
  rfl

theorem goodnessLoop_eq {currentTime : Nat} (value : Task → Nat) (tasks : List Task)
    (each : ∀ task ∈ tasks, goodness vm currentTime maxWaiting minExpBurst task =
      some (value task)) : ∀ best,
      goodnessLoop vm currentTime maxWaiting minExpBurst tasks (value best) best =
        some (scanLeast value tasks best) := by
  induction tasks with
  | nil => exact fun _ => rfl
  | cons p rest induction =>
      intro best
      rcases List.forall_mem_cons.mp each with ⟨here, later⟩
      simp only [goodnessLoop, here, Option.bind_eq_bind, Option.bind_some, scanLeast]
      split_ifs
      · exact induction later p
      · exact induction later best

/-- Where nothing wraps, the code computes the truncated goodness. -/
theorem machineGoodness_eq (fits : (vm.task task).expBurst + 1 < 2 ^ 32)
    (small : truncatedGoodness vm minExpBurst maxWaiting task < 2 ^ 64) :
    machineGoodness vm minExpBurst maxWaiting task =
      truncatedGoodness vm minExpBurst maxWaiting task := by
  unfold machineGoodness
  rw [Nat.mod_eq_of_lt (show 1 + (vm.task task).expBurst < 2 ^ 32 by omega)]
  exact Nat.mod_eq_of_lt small

/-- The least truncated goodness is within a factor of four of the least exact one. -/
theorem exactGoodness_lt_four {chosen : Task}
    (least : FirstLeast (truncatedGoodness vm minExpBurst maxWaiting) tasks chosen)
    (extremes : Extremes vm tasks minExpBurst maxWaiting) (member : task ∈ tasks) :
    exactGoodness vm minExpBurst maxWaiting chosen <
      4 * exactGoodness vm minExpBurst maxWaiting task := by
  have inside := least.member
  have atMost : (truncatedGoodness vm minExpBurst maxWaiting chosen : ℚ) ≤
      truncatedGoodness vm minExpBurst maxWaiting task := by
    exact_mod_cast least.le member
  calc exactGoodness vm minExpBurst maxWaiting chosen
      < 4 * truncatedGoodness vm minExpBurst maxWaiting chosen :=
        exactGoodness_lt (extremes.shortest.2 ⟨chosen, inside, rfl⟩)
          (extremes.longest.2 ⟨chosen, inside, rfl⟩)
    _ ≤ 4 * truncatedGoodness vm minExpBurst maxWaiting task :=
        mul_le_mul_of_nonneg_left atMost (by norm_num)
    _ ≤ 4 * exactGoodness vm minExpBurst maxWaiting task :=
        mul_le_mul_of_nonneg_left truncatedGoodness_le (by norm_num)

theorem calculateGoodness_bind (vm : Vm) (first : Task) (behind : List Task) :
    calculateGoodness vm first behind =
      (goodness vm (schedClock vm) (sub64 (schedClock vm) (findMaxWaitingInRQ vm first behind))
        (vm.task (findMinExpBurst vm first behind)).expBurst first).bind fun minGoodness =>
          goodnessLoop vm (schedClock vm)
            (sub64 (schedClock vm) (findMaxWaitingInRQ vm first behind))
            (vm.task (findMinExpBurst vm first behind)).expBurst behind minGoodness first := rfl

theorem calculateGoodness_eq
    (isMin : (vm.task (findMinExpBurst vm first (first :: rest))).expBurst = minExpBurst)
    (isMax : sub64 (schedClock vm) (findMaxWaitingInRQ vm first (first :: rest)) = maxWaiting)
    (within : maxWaiting ≤ schedClock vm)
    (notLater : ∀ task ∈ first :: rest, (vm.task task).lastTimeInRunqueue ≤ schedClock vm) :
    calculateGoodness vm first (first :: rest) =
      some (scanLeast (machineGoodness vm minExpBurst maxWaiting) rest first) := by
  have each : ∀ task ∈ first :: rest, goodness vm (schedClock vm) maxWaiting minExpBurst task =
      some (machineGoodness vm minExpBurst maxWaiting task) :=
    fun task member => goodness_eq within (notLater task member)
  have scanned := goodnessLoop_eq (machineGoodness vm minExpBurst maxWaiting) (first :: rest) each first
  rw [scanLeast_self] at scanned
  rw [calculateGoodness_bind, isMin, isMax, each first List.mem_cons_self, Option.bind_some, scanned]

theorem goodness_isSome {currentTime : Nat}
    (nonzero : (1 + sub64 currentTime (vm.task task).lastTimeInRunqueue) % 2 ^ 64 ≠ 0) :
    ∃ value, goodness vm currentTime maxWaiting minExpBurst task = some value :=
  ⟨_, if_neg nonzero⟩

theorem calculateGoodness_returns (nonzero : ∀ task ∈ first :: rest,
    (1 + sub64 (schedClock vm) (vm.task task).lastTimeInRunqueue) % 2 ^ 64 ≠ 0) :
    ∃ chosen, calculateGoodness vm first (first :: rest) = some chosen := by
  rw [calculateGoodness_bind]
  generalize (vm.task (findMinExpBurst vm first (first :: rest))).expBurst = minExpBurst
  generalize sub64 (schedClock vm) (findMaxWaitingInRQ vm first (first :: rest)) = maxWaiting
  generalize schedClock vm = currentTime at nonzero ⊢
  have each : ∀ task ∈ first :: rest, goodness vm currentTime maxWaiting minExpBurst task =
      some ((goodness vm currentTime maxWaiting minExpBurst task).getD 0) := by
    intro task member
    rcases goodness_isSome (nonzero task member) with ⟨value, computed⟩
    rw [computed, Option.getD_some]
  have looped := goodnessLoop_eq
    (fun task => (goodness vm currentTime maxWaiting minExpBurst task).getD 0) (first :: rest) each first
  rw [each first List.mem_cons_self, Option.bind_some, looped]
  exact ⟨_, rfl⟩

/-- `calculate_goodness` returns a task behind the head. Where nothing wraps, it is the first one
of the least truncated goodness. -/
theorem calculateGoodness_firstLeast
    (notLater : ∀ task ∈ first :: rest, (vm.task task).lastTimeInRunqueue ≤ schedClock vm) :
    ∃ chosen minExpBurst maxWaiting, calculateGoodness vm first (first :: rest) = some chosen ∧
      chosen ∈ first :: rest ∧ Extremes vm (first :: rest) minExpBurst maxWaiting ∧
      ((∀ task ∈ first :: rest, (vm.task task).expBurst + 1 < 2 ^ 32 ∧
          truncatedGoodness vm minExpBurst maxWaiting task < 2 ^ 64) →
        FirstLeast (truncatedGoodness vm minExpBurst maxWaiting) (first :: rest) chosen ∧
        ∀ task ∈ first :: rest, exactGoodness vm minExpBurst maxWaiting chosen <
          4 * exactGoodness vm minExpBurst maxWaiting task) := by
  have shortest := minExpBurst_isLeast vm first rest
  have longest := maxWaiting_isGreatest notLater
  generalize isMin : (vm.task (findMinExpBurst vm first (first :: rest))).expBurst = minExpBurst
    at shortest
  generalize isMax : sub64 (schedClock vm) (findMaxWaitingInRQ vm first (first :: rest)) = maxWaiting
    at longest
  have extremes := Extremes.mk shortest longest
  have within : maxWaiting ≤ schedClock vm := by
    rcases longest.1 with ⟨oldest, -, same⟩
    exact same ▸ Nat.sub_le _ _
  have least := @scanLeast_firstLeast _ _ _ (machineGoodness vm minExpBurst maxWaiting) rest first
  refine ⟨_, minExpBurst, maxWaiting, calculateGoodness_eq isMin isMax within notLater, least.member,
    extremes, fun small => ?_⟩
  have truncated := least.congr fun task member =>
    (machineGoodness_eq (small task member).1 (small task member).2).symm
  exact ⟨truncated, fun task => exactGoodness_lt_four truncated extremes⟩

end

/-! ## A queue of two tasks -/

/-- Two tasks that have waited equally long, the first one with an expected burst of 2 and the
second one with 1. -/
def uneven : Vm :=
  { boot (twoJobs .sjfGoodness) with
    nrRunning := 3
    task := fun task => match task with
      | .idle => createTask (twoJobs .sjfGoodness) .idle
      | .init => ⟨50, false, some (.process 1), some (.process 0), 0, 0, 0, 0, 0, 0, 0⟩
      | .process 0 => ⟨50, false, some .init, some (.process 1), 0, 2, 0, 0, 0, 0, 0⟩
      | .process 1 => ⟨50, false, some (.process 0), some .init, 0, 1, 0, 0, 0, 0, 0⟩
      | .process (index + 2) => createTask (twoJobs .sjfGoodness) (.process (index + 2)) }

theorem uneven_runQueue : RunQueue uneven [.init, .process 0, .process 1] := by
  refine ⟨rfl, fun _ => ⟨[.process 0, .process 1], rfl, ?_, ?_⟩, rfl, ?_⟩
  · exact ⟨rfl, rfl, rfl, rfl, rfl, rfl, trivial⟩
  · decide
  · intro task
    rcases task with _ | _ | _ | _ | index
    all_goals simp [uneven, createTask]

theorem uneven_extremes : Extremes uneven [.process 0, .process 1] 1 0 := by
  refine ⟨⟨⟨.process 1, by simp, rfl⟩, ?_⟩, ⟨⟨.process 0, by simp, rfl⟩, ?_⟩⟩
  · rintro _ ⟨task, member, rfl⟩
    rcases List.mem_pair.mp member with rfl | rfl <;> decide
  · rintro _ ⟨task, member, rfl⟩
    rcases List.mem_pair.mp member with rfl | rfl <;> decide

theorem calculateGoodness_firstLeast_uneven : ∃ chosen,
    calculateGoodness uneven (.process 0) [.process 0, .process 1] = some chosen ∧
      FirstLeast (truncatedGoodness uneven 1 0) [.process 0, .process 1] chosen ∧
      ∀ task ∈ [Task.process 0, .process 1],
        exactGoodness uneven 1 0 chosen < 4 * exactGoodness uneven 1 0 task := by
  have notLater : ∀ task ∈ [Task.process 0, .process 1],
      (uneven.task task).lastTimeInRunqueue ≤ schedClock uneven := by decide
  rcases calculateGoodness_firstLeast notLater with
    ⟨chosen, minExpBurst, maxWaiting, found, -, extremes, truncates⟩
  have shortest : minExpBurst = 1 := extremes.shortest.unique uneven_extremes.shortest
  have longest : maxWaiting = 0 := extremes.longest.unique uneven_extremes.longest
  rw [shortest, longest] at truncates
  have small : ∀ task ∈ [Task.process 0, .process 1], (uneven.task task).expBurst + 1 < 2 ^ 32 ∧
      truncatedGoodness uneven 1 0 task < 2 ^ 64 := by decide
  exact ⟨chosen, found, truncates small⟩

/-- The first task is chosen, although the goodness of the second one is less. -/
theorem goodness_notLeast : RunQueue uneven [.init, .process 0, .process 1] ∧
    calculateGoodness uneven (.process 0) [.process 0, .process 1] = some (.process 0) ∧
    Extremes uneven [.process 0, .process 1] 1 0 ∧
    exactGoodness uneven 1 0 (.process 1) < exactGoodness uneven 1 0 (.process 0) := by
  refine ⟨uneven_runQueue, by decide, uneven_extremes, ?_⟩
  have waits : waiting uneven (.process 0) = 0 ∧ waiting uneven (.process 1) = 0 := ⟨rfl, rfl⟩
  have bursts : (uneven.task (.process 0)).expBurst = 2 ∧
      (uneven.task (.process 1)).expBurst = 1 := ⟨rfl, rfl⟩
  simp only [exactGoodness, waits, bursts]
  norm_num

end CE321.Vsched
