import CE321.Slob.HeapInvariant

/-! # What keeps the heap's invariant

Writing into objects, `slob_alloc` and `slob_free`.
-/

namespace CE321.Slob

open Segment

def Object.Holds (object : Object) (address : Nat) : Prop :=
  object.address ≤ address ∧ address < object.address + unitsOf object.size

/-- The addresses that others than the allocator write to: all but the units of its
pages that no object holds. -/
def MayStore (heap : Heap) (live : List Object) (address : Nat) : Prop :=
  (heap.page (virtToPage address)).slab = false ∨ ∃ object ∈ live, object.Holds address

section

variable {heap heap' : Heap} {live : List Object} {pfn : Nat}

theorem HeapInvariant.holder (invariant : HeapInvariant heap live) {object : Object} {unit : Nat}
    (member : object ∈ live) (holds : object.Holds (pageUnits * pfn + unit))
    (bound : unit < pageUnits) :
    object ∈ objectsOn live pfn ∧ object.segment.Covers unit := by
  have own : object ∈ objectsOn live (virtToPage object.address) := mem_objectsOn.mpr ⟨member, rfl⟩
  have page := invariant (virtToPage object.address)
  cases slab : (heap.page (virtToPage object.address)).slab with
  | false =>
      rw [(page.other slab).1] at own
      exact absurd own List.not_mem_nil
  | true =>
      rcases (page.slob slab).2 with ⟨list, blocks, slobPage⟩
      have inside := slobPage.layout.tiles.inside object.segment
        (List.mem_append_right _ (mem_segmentsOn own))
      have address := Nat.div_add_mod object.address pageUnits
      unfold Object.Holds at holds
      unfold Object.segment stop at inside
      have same : virtToPage object.address = pfn := by
        unfold virtToPage pageUnits at *
        simp only at inside
        omega
      refine ⟨mem_objectsOn.mpr ⟨member, same⟩, ?_⟩
      unfold Covers Object.segment stop
      unfold virtToPage pageUnits at *
      simp only
      omega

theorem HeapInvariant.store (invariant : HeapInvariant heap live) {mem : Nat → Int}
    (may : ∀ address, mem address ≠ heap.mem address → MayStore heap live address) :
    HeapInvariant { heap with mem := mem } live := by
  intro pfn
  have old := invariant pfn
  refine ⟨fun slab => ?_, old.other, old.held⟩
  rcases old.slob slab with ⟨positive, list, blocks, slobPage⟩
  refine ⟨positive, list, blocks, slobPage.layout.store ?_, slobPage.sameClass, slobPage.used⟩
  intro block member unit covers
  by_contra changed
  have inside := slobPage.layout.free.onPage.inside block member
  have bound : unit < pageUnits := lt_of_lt_of_le covers.2 inside
  rcases may _ changed with notSlab | ⟨object, isLive, holds⟩
  · rw [virtToPage_add bound, slab] at notSlab
    cases notSlab
  · rcases invariant.holder isLive holds bound with ⟨here, also⟩
    rcases slobPage.layout.tiles.apart member (mem_segmentsOn here) with before | behind
    · unfold Covers at *
      omega
    · unfold Covers at *
      omega

theorem HeapInvariant.zeroObject (invariant : HeapInvariant heap live) {object : Object}
    (member : object ∈ live) (zero : Bool) :
    HeapInvariant (Slob.zeroObject heap zero object.address object.size) live := by
  unfold Slob.zeroObject
  split
  · apply invariant.store
    intro address changed
    right
    refine ⟨object, member, ?_⟩
    unfold memsetZero at changed
    unfold Object.Holds unitsOf
    split at changed
    · omega
    · split at changed
      · omega
      · exact absurd rfl changed
  · exact invariant

/-- `slob_alloc` returns, and an object that it returns is one more live object. -/
theorem HeapInvariant.slobAlloc {size align : Nat} (invariant : HeapInvariant heap live)
    (positive : 0 < size) (bound : size ≤ pageSize) (valid : ValidAlign align) (zero : Bool)
    {answer : Option Nat} (fresh : ∀ pfn, answer = some pfn → FreshPage heap pfn) :
    ∃ b heap', Slob.slobAlloc heap size align zero answer = some (b, heap') ∧
      HeapInvariant heap' (match b with
        | some b => ⟨b, size⟩ :: live
        | none => live) := by
  have counted : HeapInvariant (countFree heap) live := invariant.setMemoryFree _
  rcases invariant.slobAlloc_cases positive bound valid zero fresh with
    ⟨-, -, returned⟩ | ⟨sp, member, b, heap', -, from', returned⟩ |
    ⟨pfn, b, heap', -, got, from', returned⟩
  · exact ⟨none, _, returned, counted⟩
  · refine ⟨some b, _, returned, ?_⟩
    rcases counted.listed member with ⟨slab, blocks, slobPage, -⟩
    rcases from'.layout with ⟨-, blocks', -, layout⟩
    have added : HeapInvariant heap' (⟨b, size⟩ :: live) := by
      apply counted.added from'.quiet.toOnlyPage from'.onPage ((counted sp).slob slab).1 layout
        slobPage.sameClass rfl (from'.quiet.slab.trans slab)
      · intro other _ order
        rw [from'.quiet.runs]
      · intro order
        rw [from'.quiet.runs, (counted sp).held, slab]
        simp
    exact @HeapInvariant.zeroObject _ _ (added.setMemoryFree _) ⟨b, size⟩ List.mem_cons_self zero
  · refine ⟨some b, _, returned, ?_⟩
    have isFresh := fresh pfn got
    have noObjects := ((invariant pfn).other (invariant.fresh isFresh)).1
    have noRuns (order : Nat) : heap.runs.count (pfn, order) = 0 := by
      rw [(invariant pfn).held, invariant.fresh isFresh]
      simp
    have runs : heap'.runs = (pfn, 0) :: heap.runs := from'.quiet.runs
    rcases from'.layout with ⟨-, blocks', -, layout⟩
    have only := @newSlobPage_only (slobNewPages (countFree heap) 0 (some pfn)).2 pfn (sizeClass size)
    have fromCounted : OnlyPage pfn (countFree heap) (newSlobPage
        (slobNewPages (countFree heap) 0 (some pfn)).2 (pageUnits * pfn) (sizeClass size)) :=
      ⟨only.page, only.mem, only.listed⟩
    have noSegments : segmentsOn live pfn = [] := by rw [segmentsOn, noObjects, List.map_nil]
    have isSlab : (heap'.page pfn).slab = true := by
      rw [from'.quiet.slab]
      simp [newSlobPage, setSlobPageFree, Heap.setPage, virtToPage_page]
    have added : HeapInvariant heap' (⟨b, size⟩ :: live) := by
      apply counted.added (fromCounted.trans from'.quiet.toOnlyPage) from'.onPage isFresh.1
        (noSegments.symm ▸ layout) (by simp [noObjects]) rfl isSlab
      · intro other away order
        rw [runs, List.count_cons_of_ne (by simp [away.symm])]
        rfl
      · intro order
        rw [runs, List.count_cons, noRuns]
        by_cases zeroth : order = 0
        · simp [zeroth]
        · simp [zeroth, Ne.symm zeroth]
    exact @HeapInvariant.zeroObject _ _ added ⟨b, size⟩ List.mem_cons_self zero

/-! ## Freeing -/

theorem PageLayout.perm {list : SizeClass} {blocks taken taken' : List Segment}
    (layout : PageLayout heap pfn list blocks taken) (same : taken.Perm taken') :
    PageLayout heap pfn list blocks taken' :=
  { layout with tiles := layout.tiles.perm (same.append_left blocks) }

theorem objectsOn_erase {object : Object} (member : object ∈ live)
    (here : virtToPage object.address = pfn) :
    (objectsOn live pfn).Perm (object :: objectsOn (live.erase object) pfn) := by
  have perm : (objectsOn live pfn).Perm (objectsOn (object :: live.erase object) pfn) :=
    (List.perm_cons_erase member).filter _
  rwa [objectsOn_cons_here here] at perm

theorem objectsOn_erase_elsewhere {object : Object} (away : pfn ≠ virtToPage object.address) :
    objectsOn (live.erase object) pfn = objectsOn live pfn := by
  unfold objectsOn
  rw [← List.erase_filter]
  exact List.erase_of_not_mem (by simp [away.symm])

theorem Object.address_eq {object : Object} (here : virtToPage object.address = pfn) :
    object.address = pageUnits * pfn + object.segment.start := by
  have split := Nat.div_add_mod object.address pageUnits
  unfold virtToPage at here
  rw [← here]
  exact split.symm

theorem notNull {object : Object} (here : virtToPage object.address = pfn) (positive : 0 < pfn) :
    zeroOrNullPtr object.address = false := by
  unfold zeroOrNullPtr virtToPage pageUnits at *
  rw [decide_eq_false_iff_not]
  omega

theorem slobFree_eq {object : Object} (here : virtToPage object.address = pfn) (positive : 0 < pfn)
    (sizePositive : 0 < object.segment.size) :
    slobFree heap object.address object.size =
      if (heap.page pfn).units + object.segment.size = pageUnits then
        some (returnPage heap pfn object.address)
      else if !(heap.page pfn).slobFree then some (firstFree heap pfn object.address object.size)
      else reinsert heap pfn object.address object.segment.size := by
  have size : object.size ≠ 0 := by
    unfold Object.segment unitsOf at sizePositive
    simp only at sizePositive
    omega
  unfold slobFree
  rw [notNull here positive, if_neg (by simp), if_neg size, here]
  rfl

theorem PageLayout.returnPage {list : SizeClass} {blocks taken : List Segment}
    (layout : PageLayout heap pfn list blocks taken) {b : Nat} (here : virtToPage b = pfn) :
    OnlyPage pfn heap (Slob.returnPage heap pfn b) ∧
      ((Slob.returnPage heap pfn b).page pfn).slab = false ∧
      (∀ other, ((Slob.returnPage heap pfn b).free other).count pfn = 0) ∧
      (Slob.returnPage heap pfn b).runs = heap.runs.erase (pfn, 0) := by
  by_cases flag : (heap.page pfn).slobFree = true
  · simp only [Slob.returnPage, flag, if_true, slobFreePages, here]
    refine ⟨?_, by simp [Heap.setPage], fun other => ?_, rfl⟩
    · have only := (quiet_clearSlobPageFree heap pfn).toOnlyPage.trans (onlyPage_setPage
        (clearSlobPageFree heap pfn) pfn { (clearSlobPageFree heap pfn).page pfn with slab := false })
      exact ⟨only.page, only.mem, only.listed⟩
    · have listed := layout.listed other
      simp only [Heap.setPage, clearSlobPageFree, List.count_erase_self, listed]
      split <;> rfl
  · have full : blocks = [] := by
      by_contra some
      exact flag (layout.slobFree.mpr some)
    have notFree : (heap.page pfn).slobFree = false := by simpa using flag
    simp only [Slob.returnPage, notFree, Bool.false_eq_true, if_false, slobFreePages, here]
    refine ⟨?_, by simp [Heap.setPage], fun other => ?_, rfl⟩
    · exact ⟨fun other away => Function.update_of_ne away _ _, fun _ _ => rfl, fun _ _ _ => rfl⟩
    · have listed := layout.listed other
      simpa [Heap.setPage, full] using listed

theorem PageLayout.firstFree {list : SizeClass} {taken : List Segment} {object : Object}
    (layout : PageLayout heap pfn list [] (object.segment :: taken))
    (here : virtToPage object.address = pfn) (isClass : sizeClass object.size = list) :
    OnlyPage pfn heap (Slob.firstFree heap pfn object.address object.size) ∧
      ((Slob.firstFree heap pfn object.address object.size).page pfn).slab = (heap.page pfn).slab ∧
      (Slob.firstFree heap pfn object.address object.size).runs = heap.runs ∧
      PageLayout (Slob.firstFree heap pfn object.address object.size) pfn list [object.segment]
        taken := by
  have positive := layout.tiles.positive object.segment (by simp)
  have inside := layout.tiles.inside object.segment (by simp)
  have address := Object.address_eq here
  have pageEnd : pageBase (object.address + pageUnits) = pageUnits * pfn + pageUnits := by
    rw [address]
    unfold stop at inside
    unfold pageBase pageUnits at *
    omega
  have node := @setSlob_node heap.mem pfn pageUnits object.segment positive inside
  rw [← address, ← pageEnd] at node
  refine ⟨⟨fun other away => ?_, fun other away => ?_, fun other away class' => ?_⟩, ?_, rfl,
    ⟨node, trivial⟩, ⟨OnPage.cons.mpr ⟨⟨positive, inside⟩, OnPage.nil⟩,
      List.pairwise_singleton _ _⟩, ?_, ?_, layout.tiles, ?_, fun other => ?_⟩
  · simp [Slob.firstFree, setSlobPageFree, Heap.setPage, away]
  · have outside : setSlob heap.mem object.address object.segment.size
        (pageBase (object.address + pageUnits)) other = heap.mem other := by
      apply setSlob_outside _ _ (by omega)
      unfold stop at inside
      unfold virtToPage pageUnits at *
      omega
    exact outside
  · exact setSlobPageFree_elsewhere _ away _ _
  · simp [Slob.firstFree, setSlobPageFree, Heap.setPage]
  · simp [Slob.firstFree, setSlobPageFree, Heap.setPage, firstStart, address]
  · simp [Slob.firstFree, setSlobPageFree, Heap.setPage, Object.segment]
  · simp [Slob.firstFree, setSlobPageFree, Heap.setPage]
  · refine (setSlobPageFree_here _ (fun class' => ?_) other).trans (by simp [isClass])
    exact (layout.listed class').trans (if_neg (by simp))

theorem PageInvariant.kept {list : SizeClass} {blocks : List Segment} {object : Object}
    (page : PageInvariant heap live pfn) (slobPage : SlobPage heap live pfn list blocks)
    (wasSlab : (heap.page pfn).slab = true) (slab : (heap'.page pfn).slab = true)
    (runs : heap'.runs = heap.runs) {blocks' : List Segment}
    (layout : PageLayout heap' pfn list blocks' (segmentsOn (live.erase object) pfn))
    (used : objectsOn (live.erase object) pfn ≠ []) :
    PageInvariant heap' (live.erase object) pfn := by
  constructor
  · intro _
    refine ⟨(page.slob wasSlab).1, list, blocks', layout, fun other member => ?_, used⟩
    rcases mem_objectsOn.mp member with ⟨isLive, here⟩
    exact slobPage.sameClass other (mem_objectsOn.mpr ⟨List.mem_of_mem_erase isLive, here⟩)
  · intro notSlab
    rw [slab] at notSlab
    cases notSlab
  · intro order
    rw [runs, page.held, wasSlab, slab]

theorem PageLayout.giveBack {list : SizeClass} {blocks taken : List Segment} {object : Object}
    (layout : PageLayout heap pfn list blocks (object.segment :: taken))
    (here : virtToPage object.address = pfn) (positive : 0 < pfn)
    (isClass : sizeClass object.size = list) (kept : taken ≠ []) :
    ∃ heap' blocks', Slob.slobFree heap object.address object.size = some heap' ∧
      OnlyPage pfn heap heap' ∧ (heap'.page pfn).slab = (heap.page pfn).slab ∧
      heap'.runs = heap.runs ∧ PageLayout heap' pfn list blocks' taken := by
  have whole := layout.tiles.totalSize
  have sizePositive := layout.tiles.positive object.segment (by simp)
  have rest : totalSize taken ≠ 0 := by
    rw [ne_eq, totalSize_eq_zero fun segment isIn => layout.tiles.positive segment (by simp [isIn])]
    exact kept
  have units := layout.units
  rw [totalSize_append, totalSize_cons] at whole
  rw [slobFree_eq here positive sizePositive, if_neg (by omega)]
  by_cases full : blocks = []
  · subst full
    have notFree : (heap.page pfn).slobFree = false := by simpa using layout.slobFree
    rcases layout.firstFree here isClass with ⟨only, sameSlab, runs, layout'⟩
    rw [notFree]
    exact ⟨_, _, rfl, only, sameSlab, runs, layout'⟩
  · rw [layout.slobFree.mpr full, Object.address_eq here]
    rcases layout.reinsert full with ⟨mem, blocks', given, layout', same⟩
    have quiet := quiet_rewrite (pageUnits * pfn + firstStart blocks' pageUnits)
      ((heap.page pfn).units + object.segment.size) same
    exact ⟨_, _, given, quiet.toOnlyPage, quiet.slab, rfl, layout'⟩

theorem HeapInvariant.slobFree (invariant : HeapInvariant heap live) {object : Object}
    (member : object ∈ live) :
    ∃ heap', Slob.slobFree heap object.address object.size = some heap' ∧
      HeapInvariant heap' (live.erase object) := by
  generalize here : virtToPage object.address = pfn
  have page := invariant pfn
  have own : object ∈ objectsOn live pfn := mem_objectsOn.mpr ⟨member, here⟩
  have slab : (heap.page pfn).slab = true := by
    cases isSlab : (heap.page pfn).slab with
    | true => rfl
    | false =>
        rw [(page.other isSlab).1] at own
        exact absurd own List.not_mem_nil
  rcases page.slob slab with ⟨positive, list, blocks, slobPage⟩
  have split := (objectsOn_erase member here).map Object.segment
  have layout : PageLayout heap pfn list blocks
      (object.segment :: segmentsOn (live.erase object) pfn) := slobPage.layout.perm split
  have elsewhere (other : Nat) (away : other ≠ pfn) :
      objectsOn (live.erase object) other = objectsOn live other :=
    objectsOn_erase_elsewhere (here.symm ▸ away)
  by_cases last : objectsOn (live.erase object) pfn = []
  · have whole := layout.tiles.totalSize
    have sizePositive := layout.tiles.positive object.segment (by simp)
    have units := layout.units
    rw [totalSize_append, totalSize_cons, segmentsOn, last, List.map_nil, totalSize_nil] at whole
    rcases layout.returnPage here with ⟨only, notSlab, unlisted, runs⟩
    rw [slobFree_eq here positive sizePositive]
    refine ⟨_, if_pos (by omega), invariant.update only elsewhere ?_ ?_⟩
    · intro other away order
      rw [runs, List.count_erase_of_ne (by simp [away])]
    · refine ⟨fun isSlab => ?_, fun _ => ⟨last, unlisted⟩, fun order => ?_⟩
      · rw [notSlab] at isSlab
        cases isSlab
      · have held := page.held order
        rw [runs, notSlab, List.count_erase, held, slab]
        by_cases zeroth : order = 0
        · simp [zeroth]
        · simp [zeroth, Ne.symm zeroth]
  · have kept : segmentsOn (live.erase object) pfn ≠ [] := by
      rw [segmentsOn, ne_eq, List.map_eq_nil_iff]
      exact last
    rcases layout.giveBack here positive (slobPage.sameClass object own) kept with
      ⟨heap', blocks', returned, only, sameSlab, runs, layout'⟩
    refine ⟨heap', returned, invariant.update only elsewhere (fun _ _ _ => by rw [runs]) ?_⟩
    exact page.kept slobPage slab (sameSlab.trans slab) runs layout' last

end

end CE321.Slob
