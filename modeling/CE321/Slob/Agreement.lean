import CE321.Slob.Runs

/-! # The search and the allocation agree

`find_min_block` and `slob_page_alloc` walk a page's free list on their own. They choose
the same block of a page, and `slob_alloc` asks for a new page exactly when no listed
page has a block with room.
-/

namespace CE321.Slob

open Segment

/-- A free block of the page has room for the object and the gap in front of it. -/
def HasRoom (heap : Heap) (pfn size align : Nat) : Prop :=
  ∃ blocks, freeList heap pfn = some blocks ∧
    ∃ block ∈ blocks, unitsOf size + alignDelta align block.start ≤ block.size

/-- What the two searches come to on a page: the block of the one is that of the other,
there is one exactly if a free block has room, and the space is negative if there is none. -/
structure SearchesAgree (heap : Heap) (pfn size align : Nat) (best : Option Candidate) : Prop where
  chosen : minBlock heap pfn size align = some best
  searched : ∃ space, minBlockSpace heap pfn size align = some (space, best.map Candidate.block) ∧
    findMinBlock heap pfn size align = some space ∧ (0 ≤ space ↔ best.isSome = true)
  allocated : ∃ heap', slobPageAlloc heap pfn size align =
    some (best.map fun found => found.block + alignDelta align found.block, heap')
  room : best.isSome = true ↔ HasRoom heap pfn size align
  fits : ∀ found, best = some found → ∃ blocks, freeList heap pfn = some blocks ∧
    ∃ block ∈ blocks, block.start = found.block ∧
      unitsOf size + alignDelta align block.start ≤ block.size

section

variable {heap heap' : Heap} {live : List Object} {pfn size align : Nat} {list : SizeClass}
  {blocks taken : List Segment}

theorem PageLayout.hasRoom_iff (layout : PageLayout heap pfn list blocks taken) :
    HasRoom heap pfn size align ↔ ∃ segment ∈ blocks, Fits pfn (unitsOf size) align segment := by
  unfold HasRoom
  rw [layout.freeList.1]
  constructor
  · rintro ⟨_, ⟨⟩, block, member, room⟩
    rcases List.mem_map.mp member with ⟨segment, here, rfl⟩
    exact ⟨segment, here, room⟩
  · rintro ⟨segment, member, fits⟩
    exact ⟨_, rfl, _, List.mem_map_of_mem member, fits⟩

theorem PageLayout.searchesAgree (layout : PageLayout heap pfn list blocks taken)
    (hasFree : blocks ≠ []) : ∃ best, SearchesAgree heap pfn size align best := by
  rcases layout.minBlock_spec hasFree size align with
    ⟨search, noRoom⟩ | ⟨before, segment, after, found, split, search, picked⟩
  · refine ⟨none, search, ⟨-1, ?_, ?_, by simp⟩, ⟨heap, ?_⟩, ?_, nofun⟩
    · rw [minBlockSpace_eq, search]
      rfl
    · rw [findMinBlock_eq, search]
      rfl
    · unfold slobPageAlloc
      rw [search]
      rfl
    · rw [layout.hasRoom_iff]
      constructor
      · intro isSome
        cases isSome
      · rintro ⟨segment, member, fits⟩
        exact absurd fits (noRoom segment member)
  · have fits := picked.fits
    have member : segment ∈ blocks := by simp [split]
    have nonneg : 0 ≤ found.space := by
      unfold Fits at fits
      rw [picked.space]
      omega
    refine ⟨some found, search, ⟨found.space, ?_, ?_, ?_⟩,
      ⟨(cutBlock heap pfn (unitsOf size) align found).2, ?_⟩, ?_, ?_⟩
    · rw [minBlockSpace_eq, search]
      rfl
    · rw [findMinBlock_eq, search]
      rfl
    · simpa using nonneg
    · unfold slobPageAlloc
      rw [search]
      rfl
    · rw [layout.hasRoom_iff]
      exact ⟨fun _ => ⟨segment, member, fits⟩, fun _ => rfl⟩
    · rintro _ ⟨⟩
      exact ⟨_, layout.freeList.1, _, List.mem_map_of_mem member, picked.block.symm, fits⟩

/-! ## The pages of a list -/

/-- A page with fewer free units than the object has is not searched, and has no room. -/
theorem PageLayout.noRoom (layout : PageLayout heap pfn list blocks taken)
    (few : (heap.page pfn).units < unitsOf size) : ¬HasRoom heap pfn size align := by
  rw [layout.hasRoom_iff]
  rintro ⟨segment, member, fits⟩
  rcases List.append_of_mem member with ⟨before, after, rfl⟩
  rw [layout.units, totalSize_append, totalSize_cons] at few
  unfold Fits at fits
  omega

/-- When the loop over a list's pages comes back without a page, none of them has room. -/
theorem HeapInvariant.bestPageLoop_none (invariant : HeapInvariant heap live)
    (pages : List Nat) : ∀ (minUnits minUnits' : Int) (best : Option Nat),
    (∀ sp ∈ pages, sp ∈ heap.free list) → (best = none → minUnits = -1) →
    bestPageLoop heap size align pages minUnits best = some (minUnits', none) →
    best = none ∧ ∀ sp ∈ pages, ¬HasRoom heap sp size align := by
  induction pages with
  | nil =>
      rintro minUnits minUnits' best - - ⟨⟩
      exact ⟨rfl, by simp⟩
  | cons sp pages induction =>
      intro minUnits minUnits' best listed unset returned
      have onward := fun minUnits best => induction minUnits minUnits' best
        fun other member => listed other (List.mem_cons_of_mem _ member)
      have whole : ∀ best, ¬HasRoom heap sp size align →
          (best = none ∧ ∀ other ∈ pages, ¬HasRoom heap other size align) →
          best = (none : Option Nat) ∧ ∀ other ∈ sp :: pages, ¬HasRoom heap other size align := by
        rintro best noRoom ⟨noBest, others⟩
        exact ⟨noBest, List.forall_mem_cons.mpr ⟨noRoom, others⟩⟩
      rcases (invariant.listed (listed sp List.mem_cons_self)).2 with ⟨blocks, slobPage, hasFree⟩
      simp only [bestPageLoop] at returned
      split at returned
      · next few => exact whole best (slobPage.layout.noRoom few) (onward _ _ unset returned)
      · rcases @PageLayout.searchesAgree _ _ size align _ _ _ slobPage.layout hasFree with
          ⟨found, agree⟩
        rcases agree.searched with ⟨space, -, reported, nonneg⟩
        rw [reported] at returned
        simp only [Option.bind_eq_bind, Option.bind_some] at returned
        split at returned
        · next positive =>
            split at returned
            · have kept := onward _ (some sp) (fun same => absurd same (Option.some_ne_none sp)) returned
              cases kept.1
            · next worse =>
                have minusOne := unset (onward _ _ unset returned).1
                exact absurd (.inr minusOne) worse
        · split at returned
          · cases returned
          · next negative =>
              refine whole best (fun room => ?_) (onward _ _ unset returned)
              have some := nonneg.mpr (agree.room.mpr room)
              omega

/-- The search over the listed pages comes back with nothing exactly when none has room. -/
theorem HeapInvariant.chosenPage_none (invariant : HeapInvariant heap live) :
    chosenPage heap size align = none ↔
      ∀ sp ∈ heap.free (sizeClass size), ¬HasRoom heap sp size align := by
  constructor
  · intro nothing
    rcases invariant.bestPageLoop_spec size align (heap.free (sizeClass size)) (-1) none
      (fun _ member => member) (.inl ⟨rfl, rfl⟩) with ⟨minUnits, best, loop, -⟩
    unfold chosenPage at nothing
    rw [loop] at nothing
    have noBest : best = none := nothing
    rw [noBest] at loop
    exact (invariant.bestPageLoop_none _ (-1) minUnits none (fun _ member => member)
      (fun _ => rfl) loop).2
  · intro noRoom
    rcases invariant.allocListed_cases size align with
      ⟨nothing, -⟩ | ⟨sp, member, -, -, found, search⟩
    · exact nothing
    · rcases (invariant.listed member).2 with ⟨blocks, slobPage, hasFree⟩
      rcases @PageLayout.searchesAgree _ _ size align _ _ _ slobPage.layout hasFree with
        ⟨best, agree⟩
      have same := agree.chosen
      rw [search, Option.some.injEq] at same
      exact absurd (agree.room.mp (same ▸ rfl)) (noRoom sp member)

/-! ## Alignment -/

theorem ValidAlign.aligned (valid : ValidAlign align) (notZero : align ≠ 0) (cur : Nat) :
    align ∣ 2 * (cur + alignDelta align cur) := by
  rcases valid with zero | ⟨k, -, rfl⟩
  · exact absurd zero notZero
  · have positive : 0 < 2 ^ k := Nat.two_pow_pos k
    have atLeast : 2 * cur ≤ alignUp (2 * cur) (2 ^ k) := by
      unfold alignUp
      have rest := @Nat.lt_div_mul_add (2 * cur + 2 ^ k - 1) (2 ^ k) positive
      omega
    have divides : 2 ^ k ∣ alignUp (2 * cur) (2 ^ k) := Dvd.intro_left _ rfl
    have even : 2 ∣ alignUp (2 * cur) (2 ^ k) := by
      cases k with
      | zero =>
          unfold alignUp
          simp
      | succ k => exact (Dvd.intro_left _ rfl : 2 ∣ 2 ^ (k + 1)).trans divides
    have whole : 2 * (cur + alignDelta (2 ^ k) cur) = alignUp (2 * cur) (2 ^ k) := by
      unfold alignDelta
      rw [if_neg notZero]
      omega
    rw [whole]
    exact divides

theorem slobPageAlloc_aligned (valid : ValidAlign align) {b : Nat}
    (returned : slobPageAlloc heap pfn size align = some (some b, heap')) :
    align = 0 ∨ align ∣ 2 * b := by
  by_cases zero : align = 0
  · exact .inl zero
  · right
    unfold slobPageAlloc at returned
    rcases Option.bind_eq_some_iff.mp returned with ⟨best, -, cut⟩
    cases best with
    | none => cases cut
    | some found =>
        cases cut
        exact valid.aligned zero found.block

theorem allocListed_aligned (valid : ValidAlign align) {b : Nat}
    (returned : allocListed heap size align = some (some b, heap')) :
    align = 0 ∨ align ∣ 2 * b := by
  unfold allocListed at returned
  rcases Option.bind_eq_some_iff.mp returned with ⟨⟨minUnits, best⟩, -, searched⟩
  simp only at searched
  split at searched
  · rcases Option.bind_eq_some_iff.mp searched with ⟨sp, -, allocated⟩
    exact slobPageAlloc_aligned valid allocated
  · cases searched

theorem slobAlloc_aligned (valid : ValidAlign align) {zero : Bool} {answer : Option Nat} {b : Nat}
    (returned : slobAlloc heap size align zero answer = some (some b, heap')) :
    align = 0 ∨ align ∣ 2 * b := by
  unfold slobAlloc at returned
  rcases Option.bind_eq_some_iff.mp returned with ⟨⟨listed, first⟩, searched, rest⟩
  cases listed with
  | some listed =>
      cases rest
      exact allocListed_aligned valid searched
  | none =>
      cases answer with
      | none => cases rest
      | some pfn =>
          rcases Option.bind_eq_some_iff.mp rest with ⟨⟨fresh, third⟩, cut, kept⟩
          cases fresh with
          | none => cases kept
          | some fresh =>
              cases kept
              exact slobPageAlloc_aligned valid cut

/-! ## Asking for a page -/

/-- Whether `slob_alloc` comes to its call of `slob_new_pages`. -/
def RequestsPage (heap : Heap) (size align : Nat) : Prop :=
  ∃ heap', allocListed (countFree heap) size align = some (none, heap')

theorem HeapInvariant.requestsPage_iff (invariant : HeapInvariant heap live) (positive : 0 < size) :
    RequestsPage heap size align ↔ chosenPage heap size align = none := by
  have counted : HeapInvariant (countFree heap) live := invariant.setMemoryFree _
  have samePage : chosenPage (countFree heap) size align = chosenPage heap size align := by
    unfold chosenPage countFree
    rw [bestPageLoop_setMemoryFree]
  unfold RequestsPage
  rcases counted.allocListed_cases size align with
    ⟨nothing, listed⟩ | ⟨sp, member, chosen, listed, found, search⟩
  · rw [samePage] at nothing
    rw [listed, nothing]
    simp
  · rw [samePage] at chosen
    rcases (counted.listed member).2 with ⟨blocks, slobPage, hasFree⟩
    rcases slobPage.layout.slobPageAlloc_spec hasFree positive search with ⟨b, heap', cut, -⟩
    rw [listed, chosen, cut]
    simp

theorem zeroObject_runs (heap : Heap) (zero : Bool) (b size : Nat) :
    (zeroObject heap zero b size).runs = heap.runs := by
  unfold zeroObject
  split <;> rfl

/-- On every listed page the search finds what the allocation takes, and a new page is asked
for exactly when no listed page has room; every object is aligned, and a new page always
gives one. -/
theorem search_agrees_allocation {machine : Machine} (reachable : Reachable machine)
    {size align : Nat} (positive : 1 ≤ size) (bound : size ≤ 4095) (valid : ValidAlign align) :
    (∀ sp ∈ machine.heap.free (sizeClass size),
      ∃ best, SearchesAgree machine.heap sp size align best) ∧
    (RequestsPage machine.heap size align ↔
      ∀ sp ∈ machine.heap.free (sizeClass size), ¬HasRoom machine.heap sp size align) ∧
    (∀ pfn, FreshPage machine.heap pfn → ∃ b heap', slobPageAlloc (newSlobPage
      (slobNewPages (countFree machine.heap) 0 (some pfn)).2 (pageUnits * pfn) (sizeClass size))
      pfn size align = some (some b, heap')) ∧
    ∀ zero answer, (∀ pfn, answer = some pfn → FreshPage machine.heap pfn) →
      ∃ b heap', slobAlloc machine.heap size align zero answer = some (b, heap') ∧
        (∀ address, b = some address → align = 0 ∨ align ∣ 2 * address) ∧
        (¬RequestsPage machine.heap size align →
          b ≠ none ∧ heap'.runs = machine.heap.runs) ∧
        (RequestsPage machine.heap size align → b.map virtToPage = answer ∧
          heap'.runs = (answer.map fun pfn => (pfn, 0)).toList ++ machine.heap.runs) := by
  have invariant := reachable.invariant
  have requests := @HeapInvariant.requestsPage_iff _ _ size align invariant positive
  have atMost : size ≤ pageSize := bound.trans (by decide)
  refine ⟨fun sp member => ?_, requests.trans invariant.chosenPage_none, fun pfn fresh => ?_,
    fun zero answer fresh => ?_⟩
  · rcases (invariant.listed member).2 with ⟨blocks, slobPage, hasFree⟩
    exact slobPage.layout.searchesAgree hasFree
  · have unlisted := ((invariant pfn).other (invariant.fresh fresh)).2
    rcases @newSlobPage_alloc (slobNewPages (countFree machine.heap) 0 (some pfn)).2 pfn size align
      unlisted positive atMost valid with ⟨b, heap', cut, -⟩
    exact ⟨b, heap', cut⟩
  · rw [requests]
    rcases invariant.slobAlloc_cases positive atMost valid zero fresh with
      ⟨nothing, noAnswer, returned⟩ | ⟨sp, member, b, heap', chosen, cut, returned⟩ |
      ⟨pfn, b, heap', nothing, got, cut, returned⟩
    · refine ⟨none, _, returned, nofun, fun chosen => absurd nothing chosen, fun _ => ?_⟩
      rw [noAnswer]
      exact ⟨rfl, rfl⟩
    · refine ⟨some b, _, returned, ?_, fun _ => ⟨nofun, ?_⟩, fun none => ?_⟩
      · rintro _ ⟨⟩
        exact slobAlloc_aligned valid returned
      · rw [zeroObject_runs]
        exact cut.quiet.runs
      · rw [chosen] at none
        cases none
    · refine ⟨some b, _, returned, ?_, fun chosen => absurd nothing chosen, fun _ => ⟨?_, ?_⟩⟩
      · rintro _ ⟨⟩
        exact slobAlloc_aligned valid returned
      · rw [got, Option.map_some, cut.onPage]
      · rw [zeroObject_runs, got]
        exact cut.quiet.runs

end

/-- Behind a first object of 100 bytes on page 1 there is room for 200 bytes aligned to 64. -/
theorem search_agrees_allocation_oneObject :
    ¬RequestsPage oneObject.heap 200 64 ∧ ∃ b heap',
      slobAlloc oneObject.heap 200 64 false none = some (some b, heap') ∧ 64 ∣ 2 * b := by
  rcases search_agrees_allocation oneObject_reachable (by decide : 1 ≤ 200) (by decide)
    (.inr ⟨6, by decide, rfl⟩ : ValidAlign 64) with ⟨-, requests, -, allocates⟩
  have room : HasRoom oneObject.heap 1 200 64 := ⟨[⟨2098, 1998⟩], by decide, by decide⟩
  have notRequested : ¬RequestsPage oneObject.heap 200 64 := fun requested =>
    requests.mp requested 1 (by decide) room
  rcases allocates false none nofun with ⟨b, heap', returned, aligned, some, -⟩
  rcases Option.ne_none_iff_exists'.mp (some notRequested).1 with ⟨address, rfl⟩
  exact ⟨notRequested, address, heap', returned, (aligned address rfl).resolve_left (by decide)⟩

end CE321.Slob
