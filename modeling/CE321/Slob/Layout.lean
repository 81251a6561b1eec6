import CE321.Slob.Cut

/-! # The layout of a page

What holds of a page that `slob_alloc` got: its free list, the units that objects
hold, the count of free units and the list that the page is on. Cutting an object
keeps it, and touches no other page.
-/

namespace CE321.Slob

open Segment

/-- The layout of a page with these free blocks whose other units are taken. -/
structure PageLayout (heap : Heap) (pfn : Nat) (list : SizeClass) (blocks taken : List Segment) :
    Prop where
  encodes : Encodes heap.mem (pageUnits * pfn) blocks pageUnits
  free : FreeList blocks
  head : (heap.page pfn).freelist = pageUnits * pfn + firstStart blocks pageUnits
  units : (heap.page pfn).units = totalSize blocks
  tiles : Tiles pageUnits (blocks ++ taken)
  slobFree : (heap.page pfn).slobFree = true ↔ blocks ≠ []
  listed : ∀ other, (heap.free other).count pfn = if other = list ∧ blocks ≠ [] then 1 else 0

/-- A step that touches one page. -/
structure OnlyPage (pfn : Nat) (heap heap' : Heap) : Prop where
  page : ∀ other, other ≠ pfn → heap'.page other = heap.page other
  mem : ∀ address, virtToPage address ≠ pfn → heap'.mem address = heap.mem address
  listed : ∀ other, other ≠ pfn → ∀ list,
    (heap'.free list).count other = (heap.free list).count other

theorem OnlyPage.trans {pfn : Nat} {heap heap' heap'' : Heap} (first : OnlyPage pfn heap heap')
    (second : OnlyPage pfn heap' heap'') : OnlyPage pfn heap heap'' where
  page := fun other away => (second.page other away).trans (first.page other away)
  mem := fun address away => (second.mem address away).trans (first.mem address away)
  listed := fun other away list =>
    (second.listed other away list).trans (first.listed other away list)

/-- A step that changes the free list of one page and what goes with it. -/
structure Quiet (pfn : Nat) (heap heap' : Heap) : Prop extends OnlyPage pfn heap heap' where
  slab : (heap'.page pfn).slab = (heap.page pfn).slab
  runs : heap'.runs = heap.runs
  memoryAlloc : heap'.memoryAlloc = heap.memoryAlloc
  memoryFree : heap'.memoryFree = heap.memoryFree

theorem onlyPage_setPage (heap : Heap) (pfn : Nat) (page : Page) :
    OnlyPage pfn heap (heap.setPage pfn page) where
  page := fun _ away => Function.update_of_ne away _ _
  mem := fun _ _ => rfl
  listed := fun _ _ _ => rfl

theorem quiet_rewrite {heap : Heap} {pfn : Nat} {mem : Nat → Int} (freelist : Nat) (units : Int)
    (same : ∀ address, virtToPage address ≠ pfn → mem address = heap.mem address) :
    Quiet pfn heap (heap.rewrite pfn mem freelist units) where
  page := fun _ away => Function.update_of_ne away _ _
  mem := same
  listed := fun _ _ _ => rfl
  slab := by simp [Heap.rewrite]
  runs := rfl
  memoryAlloc := rfl
  memoryFree := rfl

theorem quiet_clearSlobPageFree (heap : Heap) (pfn : Nat) :
    Quiet pfn heap (clearSlobPageFree heap pfn) where
  page := fun _ away => Function.update_of_ne away _ _
  mem := fun _ _ => rfl
  listed := fun _ away _ => List.count_erase_of_ne away
  slab := by simp [clearSlobPageFree, Heap.setPage]
  runs := rfl
  memoryAlloc := rfl
  memoryFree := rfl

theorem Quiet.trans {pfn : Nat} {heap heap' heap'' : Heap} (first : Quiet pfn heap heap')
    (second : Quiet pfn heap' heap'') : Quiet pfn heap heap'' :=
  { first.toOnlyPage.trans second.toOnlyPage with
    slab := second.slab.trans first.slab
    runs := second.runs.trans first.runs
    memoryAlloc := second.memoryAlloc.trans first.memoryAlloc
    memoryFree := second.memoryFree.trans first.memoryFree }

theorem setSlobPageFree_here {heap : Heap} {pfn : Nat} (list : SizeClass)
    (unlisted : ∀ other, (heap.free other).count pfn = 0) (other : SizeClass) :
    ((setSlobPageFree heap pfn list).free other).count pfn = if other = list then 1 else 0 := by
  have old := unlisted other
  simp only [setSlobPageFree, Heap.setPage]
  by_cases same : other = list
  · rw [same] at old
    rw [same, Function.update_self, List.count_cons_self, old, if_pos rfl]
  · rw [Function.update_of_ne same, old, if_neg same]

theorem setSlobPageFree_elsewhere (heap : Heap) {pfn other : Nat} (away : other ≠ pfn)
    (list class' : SizeClass) :
    ((setSlobPageFree heap pfn list).free class').count other = (heap.free class').count other := by
  simp only [setSlobPageFree, Heap.setPage]
  by_cases same : class' = list
  · rw [same, Function.update_self, List.count_cons_of_ne away.symm]
  · rw [Function.update_of_ne same]

theorem virtToPage_covers {pfn unit : Nat} {segment : Segment} (covers : segment.Covers unit)
    (inside : segment.stop ≤ pageUnits) : virtToPage (pageUnits * pfn + unit) = pfn :=
  virtToPage_add (lt_of_lt_of_le covers.2 inside)

theorem outside_elsewhere {pfn address : Nat} {segments : List Segment} (onPage : OnPage segments)
    (away : virtToPage address ≠ pfn) : Outside pfn segments address := by
  intro segment member
  have inside := onPage.inside segment member
  unfold virtToPage pageUnits at *
  omega

theorem PageLayout.store {heap : Heap} {pfn : Nat} {list : SizeClass} {blocks taken : List Segment}
    (layout : PageLayout heap pfn list blocks taken) {mem : Nat → Int}
    (same : Agree heap.mem mem (pageUnits * pfn) blocks) :
    PageLayout { heap with mem := mem } pfn list blocks taken :=
  { layout with encodes := layout.encodes.frame layout.free.onPage.positive same }

theorem PageLayout.elsewhere {heap heap' : Heap} {pfn other : Nat} {list : SizeClass}
    {blocks taken : List Segment} (layout : PageLayout heap pfn list blocks taken)
    (only : OnlyPage other heap heap') (away : pfn ≠ other) :
    PageLayout heap' pfn list blocks taken where
  encodes := by
    apply layout.encodes.frame layout.free.onPage.positive
    intro segment member unit covers
    apply only.mem
    rw [virtToPage_covers covers (layout.free.onPage.inside segment member)]
    exact away
  free := layout.free
  head := by rw [only.page pfn away, layout.head]
  units := by rw [only.page pfn away, layout.units]
  tiles := layout.tiles
  slobFree := by rw [only.page pfn away, layout.slobFree]
  listed := fun class' => by rw [only.listed pfn away, layout.listed]

theorem totalSize_eq_zero {segments : List Segment}
    (positive : ∀ segment ∈ segments, 0 < segment.size) :
    totalSize segments = 0 ↔ segments = [] := by
  cases segments with
  | nil => simp
  | cons segment segments =>
      have here := positive segment List.mem_cons_self
      simp only [totalSize_cons, reduceCtorEq, iff_false]
      omega

theorem length_le_totalSize {segments : List Segment}
    (positive : ∀ segment ∈ segments, 0 < segment.size) :
    segments.length ≤ totalSize segments := by
  induction segments with
  | nil => simp
  | cons segment segments induction =>
      have here := positive segment List.mem_cons_self
      have rest := induction fun other member => positive other (List.mem_cons_of_mem _ member)
      simp only [List.length_cons, totalSize_cons]
      omega

section

variable {heap : Heap} {pfn : Nat} {list : SizeClass} {blocks taken : List Segment}

theorem PageLayout.length_le (layout : PageLayout heap pfn list blocks taken) :
    blocks.length ≤ pageUnits := by
  have bound := length_le_totalSize layout.free.onPage.positive
  have whole := layout.tiles.totalSize
  rw [totalSize_append] at whole
  omega

theorem PageLayout.minBlock_spec (layout : PageLayout heap pfn list blocks taken)
    (hasFree : blocks ≠ []) (size align : Nat) :
    (minBlock heap pfn size align = some none ∧
      ∀ segment ∈ blocks, ¬Fits pfn (unitsOf size) align segment) ∨
    ∃ before segment after found, blocks = before ++ segment :: after ∧
      minBlock heap pfn size align = some (some found) ∧
      Picked pfn (unitsOf size) align none before segment found := by
  have enough := layout.length_le
  have encodes := layout.encodes
  have free := layout.free
  have head := layout.head
  cases blocks with
  | nil => exact absurd rfl hasFree
  | cons first rest =>
      rcases minBlockLoop_spec rest pageUnits first none none encodes free
        (by simp only [List.length_cons] at enough; omega) with ⟨result, returned, picked, nothing⟩
      have search : minBlock heap pfn size align = some result := by
        unfold minBlock
        rw [head]
        exact returned
      rcases picked with rfl | ⟨before, segment, after, found, split, rfl, pick⟩
      · exact .inl ⟨search, (nothing rfl).2⟩
      · exact .inr ⟨before, segment, after, found, split, search, pick⟩

theorem PageLayout.cut {before after : List Segment} {segment : Segment} {units align gap : Nat}
    {found : Candidate} (layout : PageLayout heap pfn list (before ++ segment :: after) taken)
    (positive : 0 < units) (picked : Picked pfn units align none before segment found)
    (isGap : gap = alignDelta align found.block) :
    ∃ heap', cutBlock heap pfn units align found =
        (pageUnits * pfn + (segment.start + gap), heap') ∧
      PageLayout heap' pfn list (before ++ (leftover segment gap units ++ after))
        (⟨segment.start + gap, units⟩ :: taken) ∧
      Quiet pfn heap heap' ∧
      slobUnits heap'.mem (pageUnits * pfn + (segment.start + gap)) = segment.size - gap := by
  have fits := picked.fits
  unfold Fits at fits
  rw [← picked.block, ← isGap] at fits
  have room : gap + units ≤ segment.size := by omega
  rcases cutBlock_spec layout.encodes layout.free layout.head positive picked isGap with
    ⟨mem, cut, encodes, same, stale⟩
  have free := layout.free.cut positive room
  have tiles := layout.tiles.cut positive room
  have quiet := quiet_rewrite (pageUnits * pfn + firstStart
    (before ++ (leftover segment gap units ++ after)) pageUnits) ((heap.page pfn).units - units)
    fun address away => same address (outside_elsewhere layout.free.onPage away)
  have flag : (heap.page pfn).slobFree = true := layout.slobFree.mpr (by simp)
  have listed (other : SizeClass) : (heap.free other).count pfn = if other = list then 1 else 0 := by
    rw [layout.listed]
    simp
  generalize (before ++ (leftover segment gap units ++ after)) = rest at *
  have size : (heap.page pfn).units - units = totalSize rest := by
    have whole := tiles.totalSize
    have whole' := layout.tiles.totalSize
    rw [totalSize_append, totalSize_cons] at whole
    rw [totalSize_append] at whole'
    rw [layout.units]
    simp only at whole
    omega
  have empty := totalSize_eq_zero free.onPage.positive
  rw [cut]
  refine ⟨_, rfl, ?_⟩
  simp only
  split
  · next isFull =>
      have full : rest = [] := empty.mp (by omega)
      refine ⟨⟨encodes, free, ?_, ?_, tiles, ?_, fun other => ?_⟩,
        quiet.trans (quiet_clearSlobPageFree _ _), stale⟩
      · simp [clearSlobPageFree, Heap.setPage, Heap.rewrite]
      · simpa [clearSlobPageFree, Heap.setPage, Heap.rewrite] using size
      · simp [clearSlobPageFree, Heap.setPage, full]
      · have here := listed other
        simp only [clearSlobPageFree, Heap.setPage, Heap.rewrite, List.count_erase_self, here]
        split <;> simp [full]
  · next notFull =>
      have some : rest ≠ [] := fun none => notFull (by rw [size, none]; rfl)
      refine ⟨⟨encodes, free, ?_, ?_, tiles, ?_, fun other => ?_⟩, quiet, stale⟩
      · simp [Heap.rewrite]
      · simpa [Heap.rewrite] using size
      · simp [Heap.rewrite, flag, some]
      · have here := listed other
        simpa [Heap.rewrite, some] using here

end

end CE321.Slob
