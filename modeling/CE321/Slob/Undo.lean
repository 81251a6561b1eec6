import CE321.Slob.BestFit

/-! # Freeing undoes allocating

Objects cut from a page that keeps another one, given back in any order, leave the page
as it was: its free blocks are a canonical form of the units that no object holds.
-/

namespace CE321.Slob

open Segment

theorem PageLayout.blocks_unique {heap heap' : Heap} {pfn : Nat} {list list' : SizeClass}
    {blocks blocks' taken : List Segment} (layout : PageLayout heap pfn list blocks taken)
    (layout' : PageLayout heap' pfn list' blocks' taken) : blocks = blocks' := by
  apply layout.free.separated.unique layout'.free.separated layout.free.onPage.positive
    layout'.free.onPage.positive
  intro unit
  rcases Nat.lt_or_ge unit pageUnits with inside | behind
  · have once := layout.tiles.once unit inside
    have once' := layout'.tiles.once unit inside
    rw [cover_append] at once once'
    omega
  · have none := layout.tiles.cover_behind behind
    have none' := layout'.tiles.cover_behind behind
    rw [cover_append] at none none'
    omega

/-- Calls of `slob_page_alloc` on a page of the list, each while the page is partially free,
and the objects that they return. -/
inductive Allocates (pfn : Nat) (list : SizeClass) : Heap → List Object → Heap → Prop
  | done (heap : Heap) : Allocates pfn list heap [] heap
  | alloc {heap heap' heap'' : Heap} {objects : List Object} {size align b : Nat}
      (partlyFree : (heap.page pfn).slobFree = true) (positive : 1 ≤ size)
      (sameClass : sizeClass size = list)
      (allocated : slobPageAlloc heap pfn size align = some (some b, heap'))
      (rest : Allocates pfn list heap' objects heap'') :
      Allocates pfn list heap (⟨b, size⟩ :: objects) heap''

def freeAll (heap : Heap) : List Object → Option Heap
  | [] => some heap
  | object :: objects => do
      let heap ← slobFree heap object.address object.size
      freeAll heap objects

section

variable {heap heap' : Heap} {pfn : Nat} {list : SizeClass} {blocks taken : List Segment}

theorem PageLayout.allocated {size align b : Nat}
    (layout : PageLayout heap pfn list blocks taken)
    (partlyFree : (heap.page pfn).slobFree = true) (positive : 0 < size)
    (allocated : slobPageAlloc heap pfn size align = some (some b, heap')) :
    virtToPage b = pfn ∧ ∃ blocks', PageLayout heap' pfn list blocks'
      (Object.segment ⟨b, size⟩ :: taken) := by
  have hasFree := layout.slobFree.mp partlyFree
  rcases layout.minBlock_spec hasFree size align with
    ⟨search, -⟩ | ⟨-, -, -, found, -, search, -⟩
  · unfold slobPageAlloc at allocated
    rw [search] at allocated
    cases allocated
  · rcases layout.slobPageAlloc_spec hasFree positive search with ⟨b', heap'', returned, cut⟩
    rw [returned] at allocated
    cases allocated
    rcases cut.layout with ⟨-, blocks', -, layout'⟩
    exact ⟨cut.onPage, blocks', layout'⟩

theorem Allocates.layout {objects : List Object} (calls : Allocates pfn list heap objects heap') :
    ∀ {blocks taken : List Segment}, PageLayout heap pfn list blocks taken →
    (∀ object ∈ objects, virtToPage object.address = pfn ∧ sizeClass object.size = list) ∧
      ∃ blocks', PageLayout heap' pfn list blocks' (objects.map Object.segment ++ taken) := by
  induction calls with
  | done heap => exact fun layout => ⟨by simp, _, layout⟩
  | alloc partlyFree positive sameClass allocated rest induction =>
      intro blocks taken layout
      rcases layout.allocated partlyFree positive allocated with ⟨onPage, blocks', layout'⟩
      rcases induction layout' with ⟨others, blocks'', layout''⟩
      exact ⟨List.forall_mem_cons.mpr ⟨⟨onPage, sameClass⟩, others⟩, blocks'',
        layout''.perm List.perm_middle⟩

theorem PageLayout.freeAll (notNull : 0 < pfn) (kept : taken ≠ []) (order : List Object) :
    ∀ {heap : Heap} {blocks : List Segment},
    PageLayout heap pfn list blocks (order.map Object.segment ++ taken) →
    (∀ object ∈ order, virtToPage object.address = pfn ∧ sizeClass object.size = list) →
    ∃ heap' blocks', Slob.freeAll heap order = some heap' ∧
      PageLayout heap' pfn list blocks' taken := by
  induction order with
  | nil => exact fun layout _ => ⟨_, _, rfl, layout⟩
  | cons object order induction =>
      intro heap blocks layout onPage
      rcases onPage object List.mem_cons_self with ⟨here, isClass⟩
      rcases layout.giveBack here notNull isClass (List.append_ne_nil_of_right_ne_nil _ kept) with
        ⟨heap', blocks', returned, -, -, -, layout'⟩
      rcases induction layout' fun other member => onPage other (List.mem_cons_of_mem _ member) with
        ⟨heap'', blocks'', freed, layout''⟩
      refine ⟨heap'', blocks'', ?_, layout''⟩
      unfold Slob.freeAll
      rw [returned]
      exact freed

theorem PageLayout.written {objects : List Object} {mem : Nat → Int}
    (layout : PageLayout heap pfn list blocks (objects.map Object.segment ++ taken))
    (onPage : ∀ object ∈ objects, virtToPage object.address = pfn)
    (writes : ∀ address, mem address ≠ heap.mem address →
      ∃ object ∈ objects, object.Holds address) :
    PageLayout { heap with mem := mem } pfn list blocks (objects.map Object.segment ++ taken) := by
  apply layout.store
  intro block member unit covers
  by_contra changed
  rcases writes _ changed with ⟨object, isIn, holds⟩
  have inside := layout.free.onPage.inside block member
  have apart := layout.tiles.apart member
    (List.mem_append_left _ (List.mem_map_of_mem isIn) : object.segment ∈ _)
  have address := Object.address_eq (onPage object isIn)
  have size : object.segment.size = unitsOf object.size := rfl
  unfold Object.Holds at holds
  unfold Covers at covers
  unfold stop at *
  omega

/-- Whatever objects of its class were cut from a partially free page that keeps another
one, and whatever was written into them, once they are freed in any order the page has the
free list, the count and the place in the lists that it had. -/
theorem frees_undo_allocs (layout : PageLayout heap pfn list blocks taken) (notNull : 0 < pfn)
    (partlyFree : blocks ≠ []) (kept : taken ≠ []) {objects order : List Object}
    (calls : Allocates pfn list heap objects heap') (anyOrder : order.Perm objects)
    {mem : Nat → Int} (writes : ∀ address, mem address ≠ heap'.mem address →
      ∃ object ∈ objects, object.Holds address) :
    ∃ freed, freeAll { heap' with mem := mem } order = some freed ∧
      freeList freed pfn = freeList heap pfn ∧
      (freed.page pfn).units = (heap.page pfn).units ∧
      (freed.page pfn).freelist = (heap.page pfn).freelist ∧
      (freed.page pfn).slobFree = (heap.page pfn).slobFree ∧
      ∀ other, (freed.free other).count pfn = (heap.free other).count pfn := by
  rcases calls.layout layout with ⟨onPage, blocks', layout'⟩
  have written := layout'.written (fun object member => (onPage object member).1) writes
  have ordered := written.perm ((anyOrder.symm.map Object.segment).append_right taken)
  rcases PageLayout.freeAll notNull kept order ordered fun object member =>
    onPage object (anyOrder.mem_iff.mp member) with ⟨freed, blocks'', returned, layout''⟩
  rw [← layout.blocks_unique layout''] at layout''
  refine ⟨freed, returned, ?_, ?_, ?_, ?_, fun other => ?_⟩
  · rw [layout''.freeList.1, layout.freeList.1]
  · rw [layout''.units, layout.units]
  · rw [layout''.head, layout.head]
  · rw [layout''.slobFree.mpr partlyFree, layout.slobFree.mpr partlyFree]
  · rw [layout''.listed, layout.listed]

end

def afterAlloc (heap : Heap) (pfn size align : Nat) : Heap :=
  ((slobPageAlloc heap pfn size align).getD (none, heap)).2

theorem afterAlloc_eq {heap : Heap} {pfn size align b : Nat}
    (first : (slobPageAlloc heap pfn size align).map Prod.fst = some (some b)) :
    slobPageAlloc heap pfn size align = some (some b, afterAlloc heap pfn size align) := by
  rcases Option.map_eq_some_iff.mp first with ⟨⟨found, heap'⟩, returned, rfl⟩
  unfold afterAlloc
  rw [returned]
  rfl

/-- Behind a first object of 100 bytes, one of 30 bytes and one of 10 bytes aligned to 64,
freed in the order in which they were cut. -/
theorem frees_undo_allocs_oneObject :
    ∃ freed, freeAll (afterAlloc (afterAlloc oneObject.heap 1 30 0) 1 10 64)
        [⟨2098, 30⟩, ⟨2144, 10⟩] = some freed ∧ freeList freed 1 = some [⟨2098, 1998⟩] ∧
      (freed.page 1).units = 1998 := by
  have slab : (oneObject.heap.page 1).slab = true := by decide
  rcases ((oneObject_reachable.invariant 1).slob slab).2 with ⟨list, blocks, slobPage⟩
  have small : list = .small :=
    (slobPage.sameClass ⟨2048, 100⟩ (by decide)).symm.trans (by decide)
  subst small
  have calls : Allocates 1 .small oneObject.heap [⟨2098, 30⟩, ⟨2144, 10⟩]
      (afterAlloc (afterAlloc oneObject.heap 1 30 0) 1 10 64) :=
    .alloc (by decide) (by decide) rfl (afterAlloc_eq (by decide +kernel))
      (.alloc (by decide +kernel) (by decide) rfl (afterAlloc_eq (by decide +kernel)) (.done _))
  rcases frees_undo_allocs slobPage.layout (by decide)
    (slobPage.layout.slobFree.mp (by decide)) (by decide) calls (List.Perm.refl _)
    (fun address changed => absurd rfl changed) with ⟨freed, returned, restored, units, -⟩
  exact ⟨freed, returned, restored.trans (by decide), units.trans (by decide)⟩

end CE321.Slob
