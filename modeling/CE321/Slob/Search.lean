import CE321.Slob.FreeList

/-! # The best-fit search

What the walk over a page's free list and the walk over a list of pages come back
with: they end, and what they pick has room for the object and its gap.
-/

namespace CE321.Slob

open Segment

/-- The block in front of a position of the list. -/
def previousBlock (pfn : Nat) (before : List Segment) (prev : Option Nat) : Option Nat :=
  match before.getLast? with
  | some segment => some (pageUnits * pfn + segment.start)
  | none => prev

theorem previousBlock_cons (pfn : Nat) (segment : Segment) (before : List Segment)
    (prev : Option Nat) : previousBlock pfn (segment :: before) prev =
      previousBlock pfn before (some (pageUnits * pfn + segment.start)) := by
  cases before with
  | nil => rfl
  | cons next before =>
      unfold previousBlock
      rw [List.getLast?_cons_cons, List.getLast?_cons]

/-- A block has room for an object of some units and the gap in front of it. -/
def Fits (pfn units align : Nat) (segment : Segment) : Prop :=
  units + alignDelta align (pageUnits * pfn + segment.start) ≤ segment.size

instance (pfn units align : Nat) (segment : Segment) : Decidable (Fits pfn units align segment) :=
  inferInstanceAs (Decidable (_ ≤ _))

/-- The candidate is a block of the list that has room. -/
structure Picked (pfn units align : Nat) (prev : Option Nat) (before : List Segment)
    (segment : Segment) (found : Candidate) : Prop where
  block : found.block = pageUnits * pfn + segment.start
  prev : found.prev = previousBlock pfn before prev
  fits : Fits pfn units align segment
  space : found.space = segment.size - units + alignDelta align found.block

section

variable {mem : Nat → Int} {pfn units align : Nat}

/-- The candidate that a block is when the search comes to it. -/
def candidateAt (pfn units align : Nat) (prev : Option Nat) (segment : Segment) : Candidate :=
  ⟨pageUnits * pfn + segment.start, prev,
    segment.size - units + alignDelta align (pageUnits * pfn + segment.start)⟩

/-- Whether the search takes a block for the best one so far. -/
def Better (pfn units align : Nat) (segment : Segment) (best : Option Candidate) : Prop :=
  isBetter segment.size units (alignDelta align (pageUnits * pfn + segment.start)) best = true

theorem Better.fits {segment : Segment} {best : Option Candidate}
    (better : Better pfn units align segment best) : Fits pfn units align segment := by
  unfold Better isBetter at better
  have room := decide_eq_true_iff.mp (Bool.and_eq_true_iff.mp better).1
  unfold Fits
  omega

theorem better_none {segment : Segment} (fits : Fits pfn units align segment) :
    Better pfn units align segment none := by
  unfold Fits at fits
  unfold Better isBetter
  simp only [Bool.and_true, decide_eq_true_eq]
  omega

theorem minBlockLoop_round {segment : Segment} {segments : List Segment}
    (encodes : Encodes mem (pageUnits * pfn) (segment :: segments) pageUnits)
    (free : FreeList (segment :: segments)) (fuel : Nat) (prev : Option Nat)
    (best : Option Candidate) :
    ∃ best', (Better pfn units align segment best ∧
          best' = some (candidateAt pfn units align prev segment) ∨
        ¬Better pfn units align segment best ∧ best' = best) ∧
      (minBlockLoop mem units align (fuel + 1) prev (pageUnits * pfn + segment.start) best =
          some best' ∧ (segments = [] ∨ ∃ found, best' = some found ∧ found.space = 0) ∨
        segments ≠ [] ∧
        minBlockLoop mem units align (fuel + 1) prev (pageUnits * pfn + segment.start) best =
          minBlockLoop mem units align fuel (some (pageUnits * pfn + segment.start))
            (pageUnits * pfn + firstStart segments pageUnits) best') := by
  rcases OnPage.cons.mp free.onPage with ⟨⟨positive, inside⟩, -⟩
  rcases free.firstStart_bounds with ⟨goesOn, -, bounded, atEnd⟩
  have size := slobUnits_node encodes.1 positive goesOn
  have follow := slobNext_node encodes.1 positive inside goesOn
  have last := slobLast_node encodes.1 positive inside goesOn bounded
  have lastIff : (slobLast mem (pageUnits * pfn + segment.start) = true) = (segments = []) := by
    rw [last, beq_iff_eq, atEnd]
  simp only [minBlockLoop, size, follow, lastIff]
  by_cases better : Better pfn units align segment best
  · refine ⟨some (candidateAt pfn units align prev segment), .inl ⟨better, rfl⟩, ?_⟩
    have taken : isBetter segment.size units
      (alignDelta align (pageUnits * pfn + segment.start)) best = true := better
    simp only [taken, if_true]
    split
    · next exact' =>
        refine .inl ⟨rfl, .inr ⟨_, rfl, ?_⟩⟩
        simpa [candidateAt] using exact'
    · split
      · next isLast => exact .inl ⟨rfl, .inl isLast⟩
      · next notLast => exact .inr ⟨notLast, rfl⟩
  · refine ⟨best, .inr ⟨better, rfl⟩, ?_⟩
    have left : isBetter segment.size units
      (alignDelta align (pageUnits * pfn + segment.start)) best = false := by
      simpa [Better] using better
    simp only [left, Bool.false_and, Bool.false_eq_true, if_false]
    split
    · next isLast => exact .inl ⟨rfl, .inl isLast⟩
    · next notLast => exact .inr ⟨notLast, rfl⟩

/-- The search ends, and keeps the best candidate so far or picks a block of the list. -/
theorem minBlockLoop_spec (segments : List Segment) :
    ∀ (fuel : Nat) (segment : Segment) (prev : Option Nat) (best : Option Candidate),
    Encodes mem (pageUnits * pfn) (segment :: segments) pageUnits →
    FreeList (segment :: segments) → segments.length < fuel →
    ∃ result, minBlockLoop mem units align fuel prev (pageUnits * pfn + segment.start) best =
        some result ∧
      (result = best ∨ ∃ before picked after found, segment :: segments =
        before ++ picked :: after ∧ result = some found ∧
        Picked pfn units align prev before picked found) ∧
      (result = none → best = none ∧ ∀ other ∈ segment :: segments, ¬Fits pfn units align other) := by
  induction segments with
  | nil =>
      intro fuel segment prev best encodes free enough
      rcases Nat.exists_eq_add_one_of_ne_zero (Nat.ne_of_gt enough) with ⟨fuel, rfl⟩
      rcases minBlockLoop_round encodes free fuel prev best with ⟨best', kind, ends | goesOn⟩
      · refine ⟨best', ends.1, ?_, ?_⟩
        · rcases kind with ⟨better, equal⟩ | ⟨-, equal⟩
          · exact .inr ⟨[], segment, [], _, rfl, equal, ⟨rfl, rfl, better.fits, rfl⟩⟩
          · exact .inl equal
        · rintro rfl
          rcases kind with ⟨-, equal⟩ | ⟨worse, equal⟩
          · cases equal
          · refine ⟨equal.symm, fun other member fits => worse ?_⟩
            rw [List.mem_singleton.mp member] at fits
            exact equal ▸ better_none fits
      · exact absurd rfl goesOn.1
  | cons next segments induction =>
      intro fuel segment prev best encodes free enough
      rcases Nat.exists_eq_add_one_of_ne_zero (Nat.ne_of_gt (Nat.zero_lt_of_lt enough)) with
        ⟨fuel, rfl⟩
      rcases minBlockLoop_round encodes free fuel prev best with ⟨best', kind, ends | goesOn⟩
      · refine ⟨best', ends.1, ?_, fun nothing => ?_⟩
        · rcases kind with ⟨better, equal⟩ | ⟨-, equal⟩
          · exact .inr ⟨[], segment, next :: segments, _, rfl, equal,
              ⟨rfl, rfl, better.fits, rfl⟩⟩
          · exact .inl equal
        · rcases ends.2 with empty | ⟨found, stopped, -⟩
          · cases empty
          · rw [nothing] at stopped
            cases stopped
      · rcases induction fuel next (some (pageUnits * pfn + segment.start)) best' encodes.2 free.tail
          (by simp only [List.length_cons] at enough; omega) with ⟨result, returned, picked, none⟩
        refine ⟨result, goesOn.2.trans returned, ?_, fun nothing => ?_⟩
        · rcases picked with equal | ⟨before, block, after, found, split, equal, pick⟩
          · rcases kind with ⟨better, equal'⟩ | ⟨-, equal'⟩
            · exact .inr ⟨[], segment, next :: segments, _, rfl, equal.trans equal',
                ⟨rfl, rfl, better.fits, rfl⟩⟩
            · exact .inl (equal.trans equal')
          · refine .inr ⟨segment :: before, block, after, found, ?_, equal, ?_⟩
            · rw [List.cons_append, split]
            · exact ⟨pick.block, by rw [previousBlock_cons]; exact pick.prev, pick.fits,
                pick.space⟩
        · rcases none nothing with ⟨noBest, others⟩
          rcases kind with ⟨-, equal⟩ | ⟨worse, equal⟩
          · rw [noBest] at equal
            cases equal
          · refine ⟨equal.symm.trans noBest, fun other member fits => ?_⟩
            rcases List.mem_cons.mp member with rfl | later
            · exact worse (equal.symm.trans noBest ▸ better_none fits)
            · exact others other later fits

/-- The variables of the search of `find_min_block` against the best candidate so far. -/
def Tells (minSpace : Int) (minBlock : Option Nat) : Option Candidate → Prop
  | none => minBlock = none
  | some found => minSpace = found.space ∧ minBlock = some found.block

/-- The searches of `find_min_block` and `slob_page_alloc` come to the same. -/
theorem findMinBlockLoop_eq (fuel : Nat) : ∀ (prev : Option Nat) (cur : Nat) (minSpace : Int)
    (minBlock : Option Nat) (best : Option Candidate), Tells minSpace minBlock best →
    findMinBlockLoop mem units align fuel cur minSpace minBlock =
      (minBlockLoop mem units align fuel prev cur best).map fun best =>
        ((best.map Candidate.space).getD (-1), best.map Candidate.block) := by
  induction fuel with
  | zero => exact fun _ _ _ _ _ _ => rfl
  | succ fuel induction =>
      intro prev cur minSpace minBlock best tells
      have same : (slobUnits mem cur ≥ units + (alignDelta align cur : Int) &&
          (slobUnits mem cur - (units + (alignDelta align cur : Int)) < minSpace ||
            minBlock.isNone)) =
          isBetter (slobUnits mem cur) units (alignDelta align cur) best := by
        unfold isBetter
        cases best with
        | none =>
            have noBlock : minBlock = none := tells
            simp [noBlock]
        | some found =>
            rw [tells.1, tells.2]
            simp
      simp only [findMinBlockLoop, minBlockLoop, same]
      cases better : isBetter (slobUnits mem cur) units (alignDelta align cur) best with
      | true =>
          simp only [if_true, Bool.true_and, Option.isNone_some, Bool.false_eq_true, if_false]
          split
          · rfl
          · split
            · rfl
            · exact induction _ _ _ _ _ ⟨rfl, rfl⟩
      | false =>
          simp only [Bool.false_and, Bool.false_eq_true, if_false]
          split
          · cases best with
            | none =>
                have noBlock : minBlock = none := tells
                simp [noBlock]
            | some found => simp [tells.1, tells.2]
          · exact induction _ _ _ _ _ tells

theorem minBlockSpace_eq (heap : Heap) (size : Nat) : minBlockSpace heap pfn size align =
    (minBlock heap pfn size align).map fun best =>
      ((best.map Candidate.space).getD (-1), best.map Candidate.block) :=
  findMinBlockLoop_eq pageUnits none _ 0 none none rfl

theorem findMinBlock_eq (heap : Heap) (size : Nat) : findMinBlock heap pfn size align =
    (minBlock heap pfn size align).map fun best => (best.map Candidate.space).getD (-1) := by
  unfold findMinBlock
  rw [minBlockSpace_eq, Option.map_map]
  rfl

end

end CE321.Slob
