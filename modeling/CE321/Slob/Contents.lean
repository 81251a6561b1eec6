import CE321.Slob.HeapSteps

/-! # What a call writes

`slob_alloc` writes to free units and to the object that it returns, `slob_free` to free
units and to the object that it takes back. So every other object keeps its words.
-/

namespace CE321.Slob

open Segment

section

variable {heap heap' : Heap} {live : List Object} {pfn : Nat} {list : SizeClass}
  {blocks taken : List Segment}

/-- A node is one word, and a second one for a block of more than one unit. -/
theorem setSlob_words {mem : Nat → Int} {s address : Nat} {size : Int} (target : Nat)
    (first : address ≠ s) (second : size > 1 → address ≠ s + 1) :
    setSlob mem s size target address = mem address := by
  unfold setSlob
  split
  · next large => rw [Function.update_of_ne (second large), Function.update_of_ne first]
  · rw [Function.update_of_ne first]

theorem PageLayout.slobPageAlloc_same (layout : PageLayout heap pfn list blocks taken)
    (hasFree : blocks ≠ []) {size align : Nat} (positive : 0 < size) {b : Option Nat}
    (returned : slobPageAlloc heap pfn size align = some (b, heap')) {address : Nat}
    (away : Outside pfn blocks address) : heap'.mem address = heap.mem address := by
  unfold slobPageAlloc at returned
  rcases layout.minBlock_spec hasFree size align with
    ⟨nothing, -⟩ | ⟨before, segment, after, found, split, search, picked⟩
  · rw [nothing] at returned
    cases returned
    rfl
  · subst split
    have unitsPositive : 0 < unitsOf size := by
      unfold unitsOf
      omega
    rcases cutBlock_spec layout.encodes layout.free layout.head unitsPositive picked rfl with
      ⟨mem, cut, -, same, -⟩
    simp only [search, cut, Option.bind_eq_bind, Option.bind_some] at returned
    cases returned
    rw [← same address away]
    split <;> rfl

/-- The address is in none of the segments, so it is neither the first word of one nor the
second word of one that has two. -/
theorem Outside.words {segments : List Segment} {address : Nat} (away : Outside pfn segments address)
    {segment : Segment} (member : segment ∈ segments) (positive : 0 < segment.size) :
    address ≠ pageUnits * pfn + segment.start ∧
      (1 < segment.size → address ≠ pageUnits * pfn + segment.start + 1) := by
  have apart := away segment member
  unfold stop at apart
  omega

theorem PageLayout.reinsert_front_same {object first : Segment} {rest : List Segment}
    (layout : PageLayout heap pfn list (first :: rest) (object :: taken))
    (order : object.start < first.start)
    (returned : Slob.reinsert heap pfn (pageUnits * pfn + object.start) object.size = some heap')
    {address : Nat} (away : Outside pfn (object :: first :: rest) address) :
    heap'.mem address = heap.mem address := by
  have head : (heap.page pfn).freelist = pageUnits * pfn + first.start := layout.head
  have words := away.words List.mem_cons_self (layout.tiles.positive object (by simp))
  have firstWords := away.words (by simp) (layout.free.onPage.positive first List.mem_cons_self)
  have front : pageUnits * pfn + object.start < pageUnits * pfn + first.start := by omega
  unfold Slob.reinsert at returned
  simp only [head, front, if_true] at returned
  cases returned
  simp only [Heap.setPage]
  split
  · exact setSlob_words _ words.1 (by omega)
  · exact setSlob_words _ words.1 (by omega)

theorem PageLayout.reinsert_behind_same {object prev : Segment} {before after : List Segment}
    (layout : PageLayout heap pfn list (before ++ prev :: after) (object :: taken))
    (order : prev.stop ≤ object.start)
    (notFront : ¬pageUnits * pfn + object.start < (heap.page pfn).freelist)
    (found : insertionPoint heap.mem (pageUnits * pfn + object.start) pageUnits
      (heap.page pfn).freelist = some (pageUnits * pfn + prev.start))
    (returned : Slob.reinsert heap pfn (pageUnits * pfn + object.start) object.size = some heap')
    {address : Nat} (away : Outside pfn (object :: (before ++ prev :: after)) address) :
    heap'.mem address = heap.mem address := by
  have positive : 0 < object.size := layout.tiles.positive object (by simp)
  have words := away.words List.mem_cons_self positive
  have prevPositive := layout.free.onPage.positive prev (by simp)
  have prevWords := away.words (by simp) prevPositive
  rcases encodes_append.mp layout.encodes with ⟨-, prevNode, -⟩
  have restFree : FreeList (prev :: after) := ⟨(OnPage.append.mp layout.free.onPage).2,
    (Separated.append.mp layout.free.separated).2.1⟩
  rcases restFree.firstStart_bounds with ⟨goesOn, -, bounded, atEnd⟩
  have prevInside := (OnPage.cons.mp restFree.onPage).1.2
  have next := slobNext_node prevNode prevPositive prevInside goesOn
  have last := slobLast_node prevNode prevPositive prevInside goesOn bounded
  have notNext : after ≠ [] → address ≠ pageUnits * pfn + firstStart after pageUnits := by
    intro some
    rcases List.exists_cons_of_ne_nil some with ⟨second, further, rfl⟩
    exact (away.words (by simp) (layout.free.onPage.positive second (by simp))).1
  unfold Slob.reinsert at returned
  simp only [notFront, if_false, Heap.setPage, found, Option.bind_eq_bind, Option.bind_some] at returned
  -- the memory once the object's units are a free block
  generalize written : (if (!slobLast heap.mem (pageUnits * pfn + prev.start) &&
      pageUnits * pfn + object.start + object.size ==
        slobNext heap.mem (pageUnits * pfn + prev.start)) = true then
      setSlob heap.mem (pageUnits * pfn + object.start)
        (object.size + slobUnits heap.mem (slobNext heap.mem (pageUnits * pfn + prev.start)))
        (slobNext heap.mem (slobNext heap.mem (pageUnits * pfn + prev.start)))
    else setSlob heap.mem (pageUnits * pfn + object.start) object.size
      (slobNext heap.mem (pageUnits * pfn + prev.start))) = mem
  have linked : heap'.mem =
      if ((pageUnits * pfn + prev.start : Nat) : Int) + slobUnits mem (pageUnits * pfn + prev.start) =
          (pageUnits * pfn + object.start : Nat) then
        setSlob mem (pageUnits * pfn + prev.start)
          (slobUnits mem (pageUnits * pfn + object.start) +
            slobUnits mem (pageUnits * pfn + prev.start))
          (slobNext mem (pageUnits * pfn + object.start))
      else setSlob mem (pageUnits * pfn + prev.start)
        (slobUnits mem (pageUnits * pfn + prev.start)) (pageUnits * pfn + object.start) := by
    rw [← written]
    cases returned
    rfl
  have same : mem address = heap.mem address := by
    rw [← written]
    split
    · next joins =>
        rw [last, next, Bool.and_eq_true_iff, Bool.not_eq_true', beq_eq_false_iff_ne, beq_iff_eq]
          at joins
        have apart := notNext fun none => joins.1 (atEnd.mpr none)
        exact setSlob_words _ words.1 (by omega)
    · exact setSlob_words _ words.1 (by omega)
  have units : slobUnits mem (pageUnits * pfn + prev.start) = prev.size := by
    have kept : mem (pageUnits * pfn + prev.start) = heap.mem (pageUnits * pfn + prev.start) := by
      unfold stop at order
      rw [← written]
      split
      · exact setSlob_words _ (by omega) (by omega)
      · exact setSlob_words _ (by omega) (by omega)
    unfold slobUnits
    rw [kept]
    exact slobUnits_node prevNode prevPositive goesOn
  rw [linked, units, ← same]
  split
  · exact setSlob_words _ prevWords.1 (by omega)
  · exact setSlob_words _ prevWords.1 (by omega)

/-- Giving an object back to a page with free blocks writes to them and to the object. -/
theorem PageLayout.reinsert_same {object : Segment}
    (layout : PageLayout heap pfn list blocks (object :: taken)) (hasFree : blocks ≠ [])
    (returned : Slob.reinsert heap pfn (pageUnits * pfn + object.start) object.size = some heap')
    {address : Nat} (away : Outside pfn (object :: blocks) address) :
    heap'.mem address = heap.mem address := by
  have enough := layout.length_le
  rcases List.exists_cons_of_ne_nil hasFree with ⟨first, rest, rfl⟩
  have head : (heap.page pfn).freelist = pageUnits * pfn + first.start := layout.head
  rcases Nat.lt_or_ge object.start first.start with front | notFront
  · exact layout.reinsert_front_same front returned away
  · have apart : Apart object (first :: rest) := fun block member =>
      layout.tiles.apart member List.mem_cons_self
    rcases insertionPoint_spec (layout.tiles.positive object (by simp))
      (layout.tiles.inside object (by simp)) rest pageUnits first
      (by simp only [List.length_cons] at enough; omega) layout.encodes layout.free apart
      notFront with ⟨before, prev, after, split, found, order, -⟩
    rw [split] at layout away
    rw [← head] at found
    exact layout.reinsert_behind_same order (by omega) found returned away

/-! ## The words of the other objects -/

theorem HeapInvariant.holds_page (invariant : HeapInvariant heap live) {object : Object}
    (member : object ∈ live) {address : Nat} (holds : object.Holds address) :
    object ∈ objectsOn live (virtToPage address) ∧
      object.segment.Covers (address % pageUnits) := by
  have split := Nat.div_add_mod address pageUnits
  apply invariant.holder member _ (Nat.mod_lt _ (by decide))
  unfold virtToPage
  rwa [split]

theorem HeapInvariant.slab (invariant : HeapInvariant heap live) {object : Object}
    (member : object ∈ objectsOn live pfn) : (heap.page pfn).slab = true := by
  cases isSlab : (heap.page pfn).slab with
  | true => rfl
  | false =>
      rw [((invariant pfn).other isSlab).1] at member
      cases member

theorem HeapInvariant.perm (invariant : HeapInvariant heap live) {live' : List Object}
    (same : live.Perm live') : HeapInvariant heap live' := by
  intro pfn
  have page := invariant pfn
  have objects : (objectsOn live pfn).Perm (objectsOn live' pfn) := same.filter _
  refine ⟨fun slab => ?_, fun notSlab => ?_, page.held⟩
  · rcases page.slob slab with ⟨positive, list, blocks, slobPage⟩
    refine ⟨positive, list, blocks, slobPage.layout.perm (objects.map _), fun object member => ?_,
      fun none => ?_⟩
    · exact slobPage.sameClass object (objects.mem_iff.mpr member)
    · rw [none] at objects
      exact slobPage.used objects.eq_nil
  · rcases page.other notSlab with ⟨none, unlisted⟩
    rw [none] at objects
    exact ⟨objects.symm.eq_nil, unlisted⟩

theorem HeapInvariant.apart {object other : Object} (invariant : HeapInvariant heap (object :: live))
    (member : other ∈ live) {address : Nat} (holds : object.Holds address) :
    ¬other.Holds address := by
  intro otherHolds
  rcases invariant.holds_page List.mem_cons_self holds with ⟨own, covers⟩
  rcases invariant.holds_page (List.mem_cons_of_mem _ member) otherHolds with ⟨otherOwn, otherCovers⟩
  rcases ((invariant _).slob (invariant.slab own)).2 with ⟨list, blocks, slobPage⟩
  have tiles := slobPage.layout.tiles
  rw [segmentsOn, objectsOn_cons_here (mem_objectsOn.mp own).2, List.map_cons, List.append_cons]
    at tiles
  have disjoint := tiles.apart (List.mem_append_right blocks (List.mem_singleton_self _))
    (mem_segmentsOn (mem_objectsOn.mpr ⟨member, (mem_objectsOn.mp otherOwn).2⟩))
  unfold Covers at covers otherCovers
  omega

theorem HeapInvariant.outside (invariant : HeapInvariant heap live) {address : Nat}
    (may : MayStore heap live address) (slobPage : SlobPage heap live pfn list blocks)
    (slab : (heap.page pfn).slab = true) : Outside pfn blocks address := by
  by_cases here : virtToPage address = pfn
  · rcases may with notSlab | ⟨object, isLive, holds⟩
    · rw [here, slab] at notSlab
      cases notSlab
    · rcases invariant.holds_page isLive holds with ⟨own, covers⟩
      rw [here] at own
      have split := Nat.div_add_mod address pageUnits
      unfold virtToPage at here
      rw [here] at split
      intro block member
      have apart := slobPage.layout.tiles.apart member (mem_segmentsOn own)
      unfold Covers at covers
      omega
  · exact outside_elsewhere slobPage.layout.free.onPage here

theorem zeroObject_same {zero : Bool} {b size address : Nat}
    (away : ¬(⟨b, size⟩ : Object).Holds address) :
    (zeroObject heap zero b size).mem address = heap.mem address := by
  unfold Object.Holds unitsOf at away
  simp only at away
  unfold zeroObject
  split
  · simp only [memsetZero]
    rw [if_neg (by omega), if_neg (by omega)]
  · rfl

/-- A request leaves every word that callers may store to, but for the page that the page
allocator gives. -/
theorem HeapInvariant.slobAlloc_kept {size align : Nat} (invariant : HeapInvariant heap live)
    (positive : 0 < size) (bound : size ≤ pageSize) (valid : ValidAlign align) {zero : Bool}
    {answer b : Option Nat} (fresh : ∀ pfn, answer = some pfn → FreshPage heap pfn)
    (returned : Slob.slobAlloc heap size align zero answer = some (b, heap')) {address : Nat}
    (may : MayStore heap live address) (away : ∀ pfn, answer = some pfn → virtToPage address ≠ pfn) :
    heap'.mem address = heap.mem address := by
  rcases invariant.slobAlloc positive bound valid zero fresh with ⟨b', final, returned', invariant'⟩
  rw [returned] at returned'
  cases returned'
  have counted : HeapInvariant (countFree heap) live := invariant.setMemoryFree _
  unfold Slob.slobAlloc at returned
  rcases counted.allocListed_cases size align with
    ⟨-, listed⟩ | ⟨sp, member, -, listed, found, search⟩
  · simp only [listed, Option.bind_eq_bind, Option.bind_some] at returned
    cases answer with
    | none =>
        cases returned
        rfl
    | some pfn =>
        have other := ((invariant pfn).other (invariant.fresh (fresh pfn rfl))).2
        rcases @newSlobPage_alloc (slobNewPages (countFree heap) 0 (some pfn)).2 pfn size align other
          positive bound valid with ⟨b', heap₁, cut, from'⟩
        have only := @newSlobPage_only (slobNewPages (countFree heap) 0 (some pfn)).2 pfn
          (sizeClass size)
        simp only [slobNewPages, virtToPage_page] at returned cut
        rw [cut] at returned
        cases returned
        have notHere := away pfn rfl
        rw [zeroObject_same, from'.quiet.mem address notHere, only.mem address notHere]
        · rfl
        · intro holds
          have own := (invariant'.holds_page List.mem_cons_self holds).1
          exact notHere ((mem_objectsOn.mp own).2.symm.trans from'.onPage)
  · rcases (counted.listed member).2 with ⟨blocks, slobPage, hasFree⟩
    rcases slobPage.layout.slobPageAlloc_spec hasFree positive search with ⟨b', heap₁, cut, from'⟩
    have slab := (counted.listed member).1
    simp only [listed, cut, Option.bind_eq_bind, Option.bind_some] at returned
    cases returned
    rw [zeroObject_same]
    · exact slobPage.layout.slobPageAlloc_same hasFree positive cut
        (counted.outside may slobPage slab)
    · intro holds
      have own := (invariant'.holds_page List.mem_cons_self holds).1
      have here : virtToPage address = sp := (mem_objectsOn.mp own).2.symm.trans from'.onPage
      rcases may with notSlab | ⟨object, isLive, otherHolds⟩
      · rw [here] at notSlab
        exact absurd (slab.symm.trans notSlab) (by decide)
      · exact invariant'.apart isLive holds otherHolds

/-- Giving an object back leaves every word that callers may store to behind it. -/
theorem HeapInvariant.slobFree_kept (invariant : HeapInvariant heap live) {object : Object}
    (member : object ∈ live)
    (returned : Slob.slobFree heap object.address object.size = some heap') {address : Nat}
    (may : MayStore heap (live.erase object) address) : heap'.mem address = heap.mem address := by
  generalize here : virtToPage object.address = pfn
  have own : object ∈ objectsOn live pfn := mem_objectsOn.mpr ⟨member, here⟩
  have slab := invariant.slab own
  rcases (invariant pfn).slob slab with ⟨positive, list, blocks, slobPage⟩
  have layout : PageLayout heap pfn list blocks
      (object.segment :: segmentsOn (live.erase object) pfn) :=
    slobPage.layout.perm ((objectsOn_erase member here).map Object.segment)
  have sizePositive := layout.tiles.positive object.segment (by simp)
  have notHere : ¬object.Holds address := by
    intro holds
    rcases may with notSlab | ⟨other, isLive, otherHolds⟩
    · rw [invariant.slab (invariant.holds_page member holds).1] at notSlab
      cases notSlab
    · exact (invariant.perm (List.perm_cons_erase member)).apart isLive holds otherHolds
  have away : Outside pfn (object.segment :: blocks) address := by
    intro segment isIn
    rcases List.mem_cons.mp isIn with rfl | free
    · have start := Object.address_eq here
      have size : object.segment.size = unitsOf object.size := rfl
      unfold Object.Holds at notHere
      unfold stop
      omega
    · apply invariant.outside _ slobPage slab segment free
      rcases may with notSlab | ⟨other, isLive, holds⟩
      · exact .inl notSlab
      · exact .inr ⟨other, List.mem_of_mem_erase isLive, holds⟩
  rw [slobFree_eq here positive sizePositive] at returned
  split at returned
  · cases returned
    simp only [returnPage]
    split <;> rfl
  · split at returned
    · cases returned
      have fromObject := away object.segment List.mem_cons_self
      have start := Object.address_eq here
      have size : object.segment.size = unitsOf object.size := rfl
      unfold stop at fromObject
      exact setSlob_outside _ (by omega) (by omega)
    · next notFull =>
        have hasFree : blocks ≠ [] := layout.slobFree.mp (by simpa using notFull)
        rw [Object.address_eq here] at returned
        exact layout.reinsert_same hasFree returned away

end

end CE321.Slob
