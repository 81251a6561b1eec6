import CE321.Slob.MemoryFree

/-! # Whether the best fit is best

The search compares a block by the space it leaves beside the object and the gap in
front of it, but remembers the best one by a space in which the gap counts twice the
other way. It finds the least space exactly when some block leaves the least space and
needs no gap.
-/

namespace CE321.Slob

open Segment

/-- The space that a free block leaves beside an object and the gap in front of it. -/
def leftSpace (pfn units align : Nat) (segment : Segment) : Int :=
  segment.size - (units + alignDelta align (pageUnits * pfn + segment.start))

/-- A free block with room that leaves the least space. -/
structure LeastSpace (pfn units align : Nat) (blocks : List Segment) (segment : Segment) :
    Prop where
  member : segment ∈ blocks
  fits : Fits pfn units align segment
  least : ∀ other ∈ blocks, Fits pfn units align other →
    leftSpace pfn units align segment ≤ leftSpace pfn units align other

/-- The object comes from a block that leaves the least space, and `find_min_block` says
how much that is. -/
def BestFit (heap : Heap) (pfn : Nat) (blocks : List Segment) (size align : Nat) : Prop :=
  ∃ segment, LeastSpace pfn (unitsOf size) align blocks segment ∧
    findMinBlock heap pfn size align = some (leftSpace pfn (unitsOf size) align segment) ∧
    ∃ heap', slobPageAlloc heap pfn size align = some (some (pageUnits * pfn + segment.start +
      alignDelta align (pageUnits * pfn + segment.start)), heap')

section

variable {mem : Nat → Int} {pfn units align : Nat}

theorem Fits.leftSpace_nonneg {segment : Segment} (fits : Fits pfn units align segment) :
    0 ≤ leftSpace pfn units align segment := by
  unfold Fits at fits
  unfold leftSpace
  omega

theorem candidateAt_space (prev : Option Nat) (segment : Segment) :
    (candidateAt pfn units align prev segment).space = leftSpace pfn units align segment +
      2 * alignDelta align (pageUnits * pfn + segment.start) := by
  unfold candidateAt leftSpace
  simp only
  omega

theorem better_iff {segment : Segment} {found : Candidate}
    (fits : Fits pfn units align segment) :
    Better pfn units align segment (some found) ↔
      leftSpace pfn units align segment < found.space := by
  unfold Fits at fits
  unfold Better isBetter leftSpace
  simp only [Bool.and_eq_true, decide_eq_true_eq]
  omega

/-- What the search knows of the least space: it has a candidate that keeps it, or a block
that needs no gap is still to come. -/
def Settles (pfn units align : Nat) (least : Int) (blocks : List Segment)
    (best : Option Candidate) : Prop :=
  (∃ found, best = some found ∧ found.space = least) ∨
    ∃ segment ∈ blocks, Fits pfn units align segment ∧
      leftSpace pfn units align segment = least ∧
      alignDelta align (pageUnits * pfn + segment.start) = 0

theorem Settles.round {least : Int} {segment : Segment} {segments : List Segment}
    {prev : Option Nat} {best best' : Option Candidate}
    (settles : Settles pfn units align least (segment :: segments) best)
    (bound : Fits pfn units align segment → least ≤ leftSpace pfn units align segment)
    (kept : ∀ found, best = some found → least ≤ found.space)
    (kind : Better pfn units align segment best ∧
        best' = some (candidateAt pfn units align prev segment) ∨
      ¬Better pfn units align segment best ∧ best' = best) :
    Settles pfn units align least segments best' ∧
      ∀ found, best' = some found → least ≤ found.space := by
  rcases kind with ⟨better, rfl⟩ | ⟨worse, rfl⟩
  · have fits := better.fits
    have space := @candidateAt_space pfn units align prev segment
    refine ⟨?_, ?_⟩
    · rcases settles with ⟨found, rfl, equal⟩ | ⟨target, member, targetFits, equal, noGap⟩
      · have less := (better_iff fits).mp better
        have atLeast := bound fits
        omega
      · rcases List.mem_cons.mp member with rfl | later
        · exact .inl ⟨_, rfl, by rw [space]; omega⟩
        · exact .inr ⟨target, later, targetFits, equal, noGap⟩
    · rintro found ⟨⟩
      have atLeast := bound fits
      rw [space]
      omega
  · refine ⟨?_, kept⟩
    rcases settles with ⟨found, equal⟩ | ⟨target, member, targetFits, equal, noGap⟩
    · exact .inl ⟨found, equal⟩
    · rcases List.mem_cons.mp member with rfl | later
      · cases best' with
        | none => exact absurd (better_none targetFits) worse
        | some found =>
            have notLess : ¬leftSpace pfn units align target < found.space := fun less =>
              worse ((better_iff targetFits).mpr less)
            have atLeast := kept found rfl
            exact .inl ⟨found, rfl, by omega⟩
      · exact .inr ⟨target, later, targetFits, equal, noGap⟩

theorem Settles.run {least : Int} (nonneg : 0 ≤ least) (segments : List Segment) :
    ∀ (fuel : Nat) (segment : Segment) (prev : Option Nat) (best result : Option Candidate),
    Encodes mem (pageUnits * pfn) (segment :: segments) pageUnits →
    FreeList (segment :: segments) →
    (∀ other ∈ segment :: segments, Fits pfn units align other →
      least ≤ leftSpace pfn units align other) →
    (∀ found, best = some found → least ≤ found.space) →
    Settles pfn units align least (segment :: segments) best →
    minBlockLoop mem units align fuel prev (pageUnits * pfn + segment.start) best = some result →
    ∃ found, result = some found ∧ found.space = least := by
  induction segments with
  | nil =>
      intro fuel segment prev best result encodes free bound kept settles returned
      cases fuel with
      | zero => cases returned
      | succ fuel =>
          rcases minBlockLoop_round encodes free fuel prev best with ⟨best', kind, ends | goesOn⟩
          · rw [ends.1] at returned
            cases returned
            rcases (settles.round (bound segment List.mem_cons_self) kept kind).1 with
              found | ⟨target, member, -⟩
            · exact found
            · cases member
          · exact absurd rfl goesOn.1
  | cons next segments induction =>
      intro fuel segment prev best result encodes free bound kept settles returned
      cases fuel with
      | zero => cases returned
      | succ fuel =>
          rcases minBlockLoop_round encodes free fuel prev best with ⟨best', kind, ends | goesOn⟩
          · rcases settles.round (bound segment List.mem_cons_self) kept kind with ⟨-, kept'⟩
            rw [ends.1] at returned
            cases returned
            rcases ends.2 with empty | ⟨found, equal, zero⟩
            · cases empty
            · have atLeast := kept' found equal
              exact ⟨found, equal, by omega⟩
          · rcases settles.round (bound segment List.mem_cons_self) kept kind with
              ⟨settles', kept'⟩
            rw [goesOn.2] at returned
            exact induction fuel next _ best' result encodes.2 free.tail
              (fun other member => bound other (List.mem_cons_of_mem _ member)) kept' settles'
              returned

end

section

variable {heap : Heap} {pfn : Nat} {list : SizeClass} {blocks taken : List Segment}
  {size align : Nat}

theorem PageLayout.bestFit_parts (layout : PageLayout heap pfn list blocks taken)
    (hasFree : blocks ≠ []) (positive : 0 < size)
    (room : ∃ segment ∈ blocks, Fits pfn (unitsOf size) align segment) :
    ∃ segment ∈ blocks, ∃ found, minBlock heap pfn size align = some (some found) ∧
      Fits pfn (unitsOf size) align segment ∧
      found.space = leftSpace pfn (unitsOf size) align segment +
        2 * alignDelta align (pageUnits * pfn + segment.start) ∧
      findMinBlock heap pfn size align = some found.space ∧
      ∃ heap', slobPageAlloc heap pfn size align = some (some (pageUnits * pfn + segment.start +
        alignDelta align (pageUnits * pfn + segment.start)), heap') := by
  rcases layout.minBlock_spec hasFree size align with
    ⟨-, noRoom⟩ | ⟨before, segment, after, found, split, search, picked⟩
  · rcases room with ⟨segment, member, fits⟩
    exact absurd fits (noRoom segment member)
  · have unitsPositive : 0 < unitsOf size := by
      unfold unitsOf
      omega
    subst split
    rcases layout.cut unitsPositive picked rfl with ⟨heap', cut, -⟩
    refine ⟨segment, by simp, found, search, picked.fits, ?_, ?_, heap', ?_⟩
    · rw [picked.space, picked.block]
      unfold leftSpace
      omega
    · rw [findMinBlock_eq, search]
      rfl
    · unfold slobPageAlloc
      rw [search]
      simp only [Option.bind_eq_bind, Option.bind_some, cut, picked.block, Nat.add_assoc]
      rfl

/-- The search on a page with room is a best fit exactly when a block that leaves the least
space needs no gap. -/
theorem bestFit_iff (layout : PageLayout heap pfn list blocks taken) (hasFree : blocks ≠ [])
    (positive : 1 ≤ size)
    (room : ∃ segment ∈ blocks, Fits pfn (unitsOf size) align segment) :
    BestFit heap pfn blocks size align ↔
      ∃ segment, LeastSpace pfn (unitsOf size) align blocks segment ∧
        alignDelta align (pageUnits * pfn + segment.start) = 0 := by
  rcases layout.bestFit_parts hasFree positive room with
    ⟨picked, member, found, search, fits, space, reported, heap', allocated⟩
  constructor
  · rintro ⟨segment, least, said, -⟩
    rw [reported, Option.some.injEq] at said
    have atLeast := least.least picked member fits
    refine ⟨picked, ⟨member, fits, fun other otherMember otherFits => ?_⟩, by omega⟩
    have other' := least.least other otherMember otherFits
    omega
  · rintro ⟨segment, least, noGap⟩
    have found' : found.space = leftSpace pfn (unitsOf size) align segment := by
      have encodes := layout.encodes
      have free := layout.free
      have head := layout.head
      unfold minBlock at search
      rw [head] at search
      cases blocks with
      | nil => exact absurd rfl hasFree
      | cons first rest =>
          rcases Settles.run least.fits.leftSpace_nonneg rest pageUnits first none none _ encodes
            free least.least (by simp) (.inr ⟨segment, least.member, least.fits, rfl, noGap⟩)
            search with ⟨other, same, equal⟩
          cases same
          exact equal
    have atLeast := least.least picked member fits
    refine ⟨picked, ⟨member, fits, fun other otherMember otherFits => ?_⟩, ?_, heap', allocated⟩
    · have other' := least.least other otherMember otherFits
      omega
    · rw [reported]
      congr 1
      omega

end

/-- The free blocks that page 1 of `fragmented` has. -/
def fragments : List Segment := [⟨1, 4⟩, ⟨8, 4⟩, ⟨13, 2035⟩]

theorem fragmented_layout : ∃ list taken, PageLayout fragmented.heap 1 list fragments taken := by
  have slab : (fragmented.heap.page 1).slab = true := by decide +kernel
  rcases ((fragmented_reachable.invariant 1).slob slab).2 with ⟨list, blocks, slobPage⟩
  have decoded : freeList fragmented.heap 1 = some (fragments.map (shift (pageUnits * 1))) := by
    decide +kernel
  have same := Option.some.inj (slobPage.wellFormed.decoded.symm.trans decoded)
  have injective : Function.Injective (shift (pageUnits * 1)) := by
    intro left right equal
    have start := congrArg Segment.start equal
    have size := congrArg Segment.size equal
    unfold shift at start size
    exact Segment.ext (by simp only at start; omega) size
  rw [List.map_injective_iff.mpr injective same] at slobPage
  exact ⟨list, _, slobPage.layout⟩

/-- Without an alignment the first of the two small blocks is a best fit. -/
theorem bestFit_iff_fragmented : BestFit fragmented.heap 1 fragments 2 0 := by
  rcases fragmented_layout with ⟨list, taken, layout⟩
  have first : (⟨1, 4⟩ : Segment) ∈ fragments := by decide
  have fits : Fits 1 (unitsOf 2) 0 ⟨1, 4⟩ := by decide
  apply (bestFit_iff layout (by decide) (by decide) ⟨_, first, fits⟩).mpr
  refine ⟨⟨1, 4⟩, ⟨first, fits, ?_⟩, by decide⟩
  unfold leftSpace
  decide

/-- Asked for 2 bytes aligned to 4, the search takes the block of 4 units at 2056, which
leaves 3, and not the one at 2049, which leaves 2 beside its gap. -/
theorem bestFit_missed : Reachable fragmented ∧
    freeList fragmented.heap 1 = some [⟨2049, 4⟩, ⟨2056, 4⟩, ⟨2061, 2035⟩] ∧
    (slobPageAlloc fragmented.heap 1 2 4).map Prod.fst = some (some 2056) ∧
    findMinBlock fragmented.heap 1 2 4 = some 3 ∧
    LeastSpace 1 (unitsOf 2) 4 fragments ⟨1, 4⟩ ∧ leftSpace 1 (unitsOf 2) 4 ⟨1, 4⟩ = 2 ∧
    (∃ list taken, PageLayout fragmented.heap 1 list fragments taken) ∧
    ¬BestFit fragmented.heap 1 fragments 2 4 := by
  have least : LeastSpace 1 (unitsOf 2) 4 fragments ⟨1, 4⟩ := by
    refine ⟨by decide, by decide, ?_⟩
    unfold leftSpace
    decide
  have reported : findMinBlock fragmented.heap 1 2 4 = some 3 := by decide +kernel
  refine ⟨fragmented_reachable, by decide +kernel, by decide +kernel, reported, least, by decide,
    fragmented_layout, ?_⟩
  rintro ⟨segment, least', said, -⟩
  have atMost := least'.least _ least.member least.fits
  have two : leftSpace 1 (unitsOf 2) 4 ⟨1, 4⟩ = 2 := by decide
  rw [reported, Option.some.injEq] at said
  omega

end CE321.Slob
