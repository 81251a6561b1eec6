import Mathlib

/-! # The least of a list

The scan through a list for the element of least value, which is the first of them if there
are several.
-/

namespace CE321

variable {α β : Type*} [LinearOrder β]

/-- An element of least value, with only greater values in front of it. -/
def FirstLeast (value : α → β) (list : List α) (chosen : α) : Prop :=
  ∃ before after, list = before ++ chosen :: after ∧
    (∀ other ∈ before, value chosen < value other) ∧ ∀ other ∈ after, value chosen ≤ value other

/-- The scan that goes over to an element if its value is less. -/
def scanLeast (value : α → β) : List α → (best : α) → α
  | [], best => best
  | next :: rest, best => scanLeast value rest (if value next < value best then next else best)

variable {value : α → β} {list : List α} {chosen : α}

theorem FirstLeast.member (least : FirstLeast value list chosen) : chosen ∈ list := by
  rcases least with ⟨before, after, rfl, -⟩
  simp

theorem FirstLeast.le (least : FirstLeast value list chosen) {other : α} (member : other ∈ list) :
    value chosen ≤ value other := by
  rcases least with ⟨before, after, rfl, less, atMost⟩
  rcases List.mem_append.mp member with early | rest
  · exact (less other early).le
  · rcases List.mem_cons.mp rest with rfl | late
    · exact le_rfl
    · exact atMost other late

theorem FirstLeast.congr {value' : α → β} (least : FirstLeast value list chosen)
    (same : ∀ other ∈ list, value' other = value other) : FirstLeast value' list chosen := by
  have here := same chosen least.member
  rcases least with ⟨before, after, rfl, less, atMost⟩
  refine ⟨before, after, rfl, fun other early => ?_, fun other late => ?_⟩
  · rw [here, same other (by simp [early])]
    exact less other early
  · rw [here, same other (by simp [late])]
    exact atMost other late

theorem scanLeast_firstLeast (rest : List α) :
    ∀ best, FirstLeast value (best :: rest) (scanLeast value rest best) := by
  induction rest with
  | nil => exact fun best => ⟨[], [], rfl, by simp, by simp⟩
  | cons next rest induction =>
      intro best
      simp only [scanLeast]
      split
      · next less =>
          have found := induction next
          have atMost := found.le List.mem_cons_self
          rcases found with ⟨before, after, split, lessBefore, atMostAfter⟩
          refine ⟨best :: before, after, by rw [split]; rfl, ?_, atMostAfter⟩
          exact List.forall_mem_cons.mpr ⟨lt_of_le_of_lt atMost less, lessBefore⟩
      · next notLess =>
          have found := induction best
          generalize scanLeast value rest best = chosen at found ⊢
          rcases found with ⟨before, after, split, lessBefore, atMostAfter⟩
          cases before with
          | nil =>
              rcases List.cons.inj split with ⟨rfl, rfl⟩
              refine ⟨[], next :: rest, rfl, by simp, ?_⟩
              exact List.forall_mem_cons.mpr ⟨not_lt.mp notLess, atMostAfter⟩
          | cons first before =>
              rcases List.cons.inj split with ⟨rfl, rfl⟩
              rcases List.forall_mem_cons.mp lessBefore with ⟨lessBest, lessBefore⟩
              refine ⟨best :: next :: before, after, rfl, ?_, atMostAfter⟩
              exact List.forall_mem_cons.mpr ⟨lessBest, List.forall_mem_cons.mpr
                ⟨lt_of_lt_of_le lessBest (not_lt.mp notLess), lessBefore⟩⟩

theorem scanLeast_self (rest : List α) (best : α) :
    scanLeast value (best :: rest) best = scanLeast value rest best := by
  simp [scanLeast]

theorem foldl_min_scanLeast (list : List α) : ∀ best,
    list.foldl (fun least next => min least (value next)) (value best) =
      value (scanLeast value list best) := by
  induction list with
  | nil => exact fun best => rfl
  | cons next rest induction =>
      intro best
      simp only [List.foldl_cons, scanLeast]
      split_ifs with less
      · rw [min_eq_right less.le, induction]
      · rw [min_eq_left (not_lt.mp less), induction]

end CE321
