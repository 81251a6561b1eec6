import CE321.Slob.Give

/-! # The invariant of the heap

The layouts of all pages together with the objects that the callers hold, and what
`slob_alloc` and `slob_free` make of it.
-/

namespace CE321.Slob

open Segment

/-- What a call of `slob_alloc` returned and was asked for. -/
structure Object where
  address : Nat
  size : Nat
  deriving DecidableEq

/-- The units of its page that an object holds. -/
def Object.segment (object : Object) : Segment := ⟨object.address % pageUnits, unitsOf object.size⟩

def objectsOn (live : List Object) (pfn : Nat) : List Object :=
  live.filter fun object => virtToPage object.address = pfn

def segmentsOn (live : List Object) (pfn : Nat) : List Segment :=
  (objectsOn live pfn).map Object.segment

theorem mem_objectsOn {live : List Object} {pfn : Nat} {object : Object} :
    object ∈ objectsOn live pfn ↔ object ∈ live ∧ virtToPage object.address = pfn := by
  simp [objectsOn]

theorem mem_segmentsOn {live : List Object} {pfn : Nat} {object : Object}
    (member : object ∈ objectsOn live pfn) : object.segment ∈ segmentsOn live pfn :=
  List.mem_map_of_mem member

theorem objectsOn_cons_here {live : List Object} {pfn : Nat} {object : Object}
    (here : virtToPage object.address = pfn) :
    objectsOn (object :: live) pfn = object :: objectsOn live pfn :=
  List.filter_cons_of_pos (decide_eq_true here)

theorem objectsOn_cons_elsewhere {live : List Object} {pfn : Nat} {object : Object}
    (away : pfn ≠ virtToPage object.address) :
    objectsOn (object :: live) pfn = objectsOn live pfn :=
  List.filter_cons_of_neg (by simpa using away.symm)

/-- A page that holds objects, with the list that they belong to. -/
structure SlobPage (heap : Heap) (live : List Object) (pfn : Nat) (list : SizeClass)
    (blocks : List Segment) : Prop where
  layout : PageLayout heap pfn list blocks (segmentsOn live pfn)
  sameClass : ∀ object ∈ objectsOn live pfn, sizeClass object.size = list
  used : objectsOn live pfn ≠ []

/-- What holds of each page. -/
structure PageInvariant (heap : Heap) (live : List Object) (pfn : Nat) : Prop where
  slob : (heap.page pfn).slab = true → 0 < pfn ∧ ∃ list blocks, SlobPage heap live pfn list blocks
  other : (heap.page pfn).slab = false →
    objectsOn live pfn = [] ∧ ∀ list, (heap.free list).count pfn = 0
  held : ∀ order, heap.runs.count (pfn, order) =
    if (heap.page pfn).slab = true ∧ order = 0 then 1 else 0

def HeapInvariant (heap : Heap) (live : List Object) : Prop :=
  ∀ pfn, PageInvariant heap live pfn

section

variable {heap heap' : Heap} {live live' : List Object} {pfn : Nat}

theorem HeapInvariant.update (invariant : HeapInvariant heap live) (only : OnlyPage pfn heap heap')
    (objects : ∀ other, other ≠ pfn → objectsOn live' other = objectsOn live other)
    (runs : ∀ other, other ≠ pfn → ∀ order,
      heap'.runs.count (other, order) = heap.runs.count (other, order))
    (here : PageInvariant heap' live' pfn) : HeapInvariant heap' live' := by
  intro other
  by_cases same : other = pfn
  · exact same ▸ here
  · have old := invariant other
    have page := only.page other same
    have held := objects other same
    constructor
    · intro slab
      rw [page] at slab
      rcases old.slob slab with ⟨positive, list, blocks, slobPage⟩
      refine ⟨positive, list, blocks, ?_, ?_, ?_⟩
      · unfold segmentsOn
        rw [held]
        exact slobPage.layout.elsewhere only same
      · rw [held]
        exact slobPage.sameClass
      · rw [held]
        exact slobPage.used
    · intro slab
      rw [page] at slab
      rcases old.other slab with ⟨nothing, unlisted⟩
      refine ⟨held.trans nothing, fun list => ?_⟩
      rw [only.listed other same, unlisted]
    · intro order
      rw [runs other same, page, old.held]

theorem HeapInvariant.setMemoryFree (invariant : HeapInvariant heap live) (bytes : Int) :
    HeapInvariant { heap with memoryFree := bytes } live := by
  intro pfn
  have old := invariant pfn
  refine ⟨fun slab => ?_, old.other, old.held⟩
  rcases old.slob slab with ⟨positive, list, blocks, layout, sameClass, used⟩
  exact ⟨positive, list, blocks, { layout with }, sameClass, used⟩

theorem HeapInvariant.listed (invariant : HeapInvariant heap live) {list : SizeClass}
    (member : pfn ∈ heap.free list) : (heap.page pfn).slab = true ∧
      ∃ blocks, SlobPage heap live pfn list blocks ∧ blocks ≠ [] := by
  have counted := List.count_pos_iff.mpr member
  cases slab : (heap.page pfn).slab with
  | false =>
      have unlisted := ((invariant pfn).other slab).2 list
      omega
  | true =>
      rcases (invariant pfn).slob slab with ⟨-, list', blocks, slobPage⟩
      have listed := slobPage.layout.listed list
      split at listed
      · next holds => exact ⟨rfl, blocks, holds.1 ▸ slobPage, holds.2⟩
      · omega

/-! ## The page a search picks -/

/-- The state of the loop over a list's pages: no page yet, or one with room. -/
def Chosen (heap : Heap) (pages : List Nat) (size align : Nat) (minUnits : Int)
    (best : Option Nat) : Prop :=
  minUnits = -1 ∧ best = none ∨
    0 ≤ minUnits ∧ ∃ sp ∈ pages, best = some sp ∧
      ∃ found, minBlock heap sp size align = some (some found)

theorem SlobPage.findMinBlock_spec {list : SizeClass} {blocks : List Segment}
    (slobPage : SlobPage heap live pfn list blocks) (hasFree : blocks ≠ []) (size align : Nat) :
    findMinBlock heap pfn size align = some (-1) ∨
      ∃ space, findMinBlock heap pfn size align = some space ∧ 0 ≤ space ∧
        ∃ found, minBlock heap pfn size align = some (some found) := by
  rw [findMinBlock_eq]
  rcases slobPage.layout.minBlock_spec hasFree size align with
    ⟨search, -⟩ | ⟨before, segment, after, found, -, search, picked⟩
  · left
    rw [search]
    rfl
  · right
    refine ⟨found.space, by rw [search]; rfl, ?_, found, search⟩
    have fits := picked.fits
    unfold Fits at fits
    rw [picked.space]
    omega

/-- The loop over a list's pages ends, and the page it comes back with has room. -/
theorem HeapInvariant.bestPageLoop_spec (invariant : HeapInvariant heap live) (size align : Nat)
    {list : SizeClass} (pages : List Nat) : ∀ (minUnits : Int) (best : Option Nat),
    (∀ sp ∈ pages, sp ∈ heap.free list) →
    Chosen heap (heap.free list) size align minUnits best →
    ∃ minUnits' best', bestPageLoop heap size align pages minUnits best = some (minUnits', best') ∧
      Chosen heap (heap.free list) size align minUnits' best' := by
  induction pages with
  | nil => exact fun minUnits best _ chosen => ⟨minUnits, best, rfl, chosen⟩
  | cons sp pages induction =>
      intro minUnits best listed chosen
      have here := listed sp List.mem_cons_self
      have onward := fun minUnits best => induction minUnits best
        fun other member => listed other (List.mem_cons_of_mem _ member)
      rcases (invariant.listed here).2 with ⟨blocks, slobPage, hasFree⟩
      have units : 0 ≤ (heap.page sp).units := by
        rw [slobPage.layout.units]
        omega
      simp only [bestPageLoop]
      split
      · exact onward minUnits best chosen
      · rcases slobPage.findMinBlock_spec hasFree size align with
          noRoom | ⟨space, room, positive, found, search⟩
        · rw [noRoom]
          simp only [Option.bind_eq_bind, Option.bind_some]
          rw [if_neg (by decide), if_neg (by decide)]
          exact onward minUnits best chosen
        · have taken : Chosen heap (heap.free list) size align (heap.page sp).units (some sp) :=
            .inr ⟨units, sp, here, rfl, found, search⟩
          rw [room]
          simp only [Option.bind_eq_bind, Option.bind_some]
          split
          · split
            · exact onward _ _ taken
            · exact onward minUnits best chosen
          · rw [if_pos (by omega)]
            exact ⟨_, _, rfl, taken⟩

/-! ## Allocating on a page -/

/-- What `slob_page_alloc` makes of a page: the object, the layout behind it, and the
word that stays at the object. -/
structure CutFrom (heap heap' : Heap) (pfn : Nat) (list : SizeClass) (taken : List Segment)
    (size align b : Nat) : Prop where
  onPage : virtToPage b = pfn
  layout : ∃ blocks blocks', PageLayout heap pfn list blocks taken ∧
    PageLayout heap' pfn list blocks' (Object.segment ⟨b, size⟩ :: taken)
  quiet : Quiet pfn heap heap'
  stale : ∃ found, minBlock heap pfn size align = some (some found) ∧
    slobUnits heap'.mem b = slobUnits heap.mem found.block - alignDelta align found.block

theorem PageLayout.slobPageAlloc_spec {list : SizeClass} {blocks taken : List Segment}
    {size align : Nat} {found : Candidate} (layout : PageLayout heap pfn list blocks taken)
    (hasFree : blocks ≠ []) (positive : 0 < size)
    (search : minBlock heap pfn size align = some (some found)) :
    ∃ b heap', slobPageAlloc heap pfn size align = some (some b, heap') ∧
      CutFrom heap heap' pfn list taken size align b := by
  rcases layout.minBlock_spec hasFree size align with
    ⟨nothing, -⟩ | ⟨before, segment, after, found', split, search', picked⟩
  · rw [nothing] at search
    cases search
  · rw [search] at search'
    cases search'
    subst split
    have unitsPositive : 0 < unitsOf size := by
      unfold unitsOf
      omega
    rcases layout.cut unitsPositive picked rfl with ⟨heap', cut, layout', quiet, stale⟩
    have fits := picked.fits
    unfold Fits at fits
    rw [← picked.block] at fits
    rcases OnPage.append.mp layout.free.onPage with ⟨-, onRest⟩
    rcases OnPage.cons.mp onRest with ⟨⟨sizePositive, inside⟩, -⟩
    have onPage : segment.start + alignDelta align found.block < pageUnits := by
      unfold stop at inside
      omega
    have object : Object.segment ⟨pageUnits * pfn + (segment.start + alignDelta align found.block),
        size⟩ = ⟨segment.start + alignDelta align found.block, unitsOf size⟩ := by
      unfold Object.segment
      rw [Nat.mul_add_mod, Nat.mod_eq_of_lt onPage]
    refine ⟨_, heap', ?_, virtToPage_add onPage, ⟨_, _, layout, object ▸ layout'⟩, quiet, found,
      search, ?_⟩
    · unfold slobPageAlloc
      rw [search]
      simp only [Option.bind_eq_bind, Option.bind_some, cut]
      rfl
    · rcases encodes_append.mp layout.encodes with ⟨-, node, -⟩
      have restFree : FreeList (segment :: after) :=
        ⟨onRest, (Separated.append.mp layout.free.separated).2.1⟩
      rw [stale, picked.block, slobUnits_node node sizePositive restFree.firstStart_bounds.1,
        ← picked.block]

theorem HeapInvariant.added {list : SizeClass} {blocks : List Segment} {object : Object}
    (invariant : HeapInvariant heap live) (only : OnlyPage pfn heap heap')
    (here : virtToPage object.address = pfn) (positive : 0 < pfn)
    (layout : PageLayout heap' pfn list blocks (object.segment :: segmentsOn live pfn))
    (sameClass : ∀ other ∈ objectsOn live pfn, sizeClass other.size = list)
    (isClass : sizeClass object.size = list) (slab : (heap'.page pfn).slab = true)
    (runs : ∀ other, other ≠ pfn → ∀ order,
      heap'.runs.count (other, order) = heap.runs.count (other, order))
    (held : ∀ order, heap'.runs.count (pfn, order) = if order = 0 then 1 else 0) :
    HeapInvariant heap' (object :: live) := by
  apply invariant.update only
  · intro other away
    exact objectsOn_cons_elsewhere (here.symm ▸ away)
  · exact runs
  · have objects := @objectsOn_cons_here live pfn object here
    constructor
    · intro _
      refine ⟨positive, list, blocks, ?_, ?_, ?_⟩
      · unfold segmentsOn
        rw [objects]
        exact layout
      · rw [objects]
        intro other member
        rcases List.mem_cons.mp member with rfl | old
        · exact isClass
        · exact sameClass other old
      · rw [objects]
        exact List.cons_ne_nil _ _
    · intro notSlab
      rw [slab] at notSlab
      cases notSlab
    · intro order
      rw [held]
      simp [slab]

/-- The alignments that a request may have. -/
def ValidAlign (align : Nat) : Prop := align = 0 ∨ ∃ k, k ≤ 12 ∧ align = 2 ^ k

theorem ValidAlign.alignDelta_page {align : Nat} (valid : ValidAlign align) (pfn : Nat) :
    alignDelta align (pageUnits * pfn) = 0 := by
  unfold alignDelta
  split
  · rfl
  · next notZero =>
      rcases valid with zero | ⟨k, bound, rfl⟩
      · exact absurd zero notZero
      · have divides : 2 ^ k ∣ 2 * (pageUnits * pfn) := by
          have whole : 2 ^ k ∣ 2 ^ 12 := Nat.pow_dvd_pow 2 bound
          have address : 2 * (pageUnits * pfn) = 2 ^ 12 * pfn := by
            unfold pageUnits
            omega
          rw [address]
          exact whole.mul_right pfn
        rcases divides with ⟨count, multiple⟩
        have positive : 0 < 2 ^ k := Nat.two_pow_pos k
        have rounded : alignUp (2 * (pageUnits * pfn)) (2 ^ k) = 2 * (pageUnits * pfn) := by
          unfold alignUp
          rw [multiple, Nat.add_sub_assoc positive, Nat.mul_add_div positive,
            Nat.div_eq_of_lt (by omega), Nat.add_zero, Nat.mul_comm]
        rw [rounded]
        omega

theorem virtToPage_page (pfn : Nat) : virtToPage (pageUnits * pfn) = pfn := by
  unfold virtToPage pageUnits
  omega

theorem newSlobPage_layout (pfn : Nat) (list : SizeClass)
    (unlisted : ∀ other, (heap.free other).count pfn = 0) :
    PageLayout (newSlobPage heap (pageUnits * pfn) list) pfn list [⟨0, pageUnits⟩] [] where
  encodes := by
    refine ⟨?_, trivial⟩
    have node := @setSlob_node heap.mem pfn pageUnits ⟨0, pageUnits⟩ (by decide) le_rfl
    simp only [Nat.add_zero] at node
    simpa [newSlobPage, setSlobPageFree, Heap.setPage, firstStart] using node
  free := ⟨OnPage.cons.mpr ⟨⟨by decide, le_rfl⟩, OnPage.nil⟩, List.pairwise_singleton _ _⟩
  head := by simp [newSlobPage, setSlobPageFree, Heap.setPage, virtToPage_page, firstStart]
  units := by simp [newSlobPage, setSlobPageFree, Heap.setPage, virtToPage_page]
  tiles := by
    refine ⟨by decide, by decide, fun unit bound => ?_⟩
    rw [List.append_nil, cover_single, if_pos (by simpa using bound)]
  slobFree := by simp [newSlobPage, setSlobPageFree, Heap.setPage, virtToPage_page]
  listed := by
    intro other
    unfold newSlobPage
    rw [virtToPage_page]
    refine (setSlobPageFree_here list ?_ other).trans (by simp)
    exact unlisted

theorem newSlobPage_only (pfn : Nat) (list : SizeClass) :
    OnlyPage pfn heap (newSlobPage heap (pageUnits * pfn) list) where
  page := by
    intro other away
    simp [newSlobPage, setSlobPageFree, Heap.setPage, virtToPage_page, away]
  mem := by
    intro address away
    have outside : setSlob heap.mem (pageUnits * pfn) pageUnits (pageUnits * pfn + pageUnits)
        address = heap.mem address := by
      apply setSlob_outside _ _ (by decide)
      unfold virtToPage pageUnits at *
      omega
    exact outside
  listed := by
    intro other away class'
    unfold newSlobPage
    rw [virtToPage_page]
    exact setSlobPageFree_elsewhere _ away list class'

theorem newSlobPage_alloc {pfn size align : Nat}
    (unlisted : ∀ other, (heap.free other).count pfn = 0) (positive : 0 < size)
    (bound : size ≤ pageSize) (valid : ValidAlign align) :
    ∃ b heap', slobPageAlloc (newSlobPage heap (pageUnits * pfn) (sizeClass size)) pfn size align =
        some (some b, heap') ∧
      CutFrom (newSlobPage heap (pageUnits * pfn) (sizeClass size)) heap' pfn (sizeClass size) []
        size align b := by
  have layout := newSlobPage_layout pfn (sizeClass size) unlisted
  have fits : Fits pfn (unitsOf size) align ⟨0, pageUnits⟩ := by
    unfold Fits
    rw [Nat.add_zero, valid.alignDelta_page]
    unfold unitsOf pageSize pageUnits at *
    simp only
    omega
  rcases layout.minBlock_spec (by simp) size align with
    ⟨-, noRoom⟩ | ⟨-, -, -, found, -, search, -⟩
  · exact absurd fits (noRoom _ (List.mem_singleton_self _))
  · exact layout.slobPageAlloc_spec (by simp) positive search

/-! ## The cases of `slob_alloc` -/

/-- The page of the request's list that the search picks. -/
def chosenPage (heap : Heap) (size align : Nat) : Option Nat :=
  (bestPageLoop heap size align (heap.free (sizeClass size)) (-1) none).bind Prod.snd

theorem bestPageLoop_setMemoryFree (bytes : Int) (size align : Nat) (pages : List Nat) :
    ∀ (minUnits : Int) (best : Option Nat),
    bestPageLoop { heap with memoryFree := bytes } size align pages minUnits best =
      bestPageLoop heap size align pages minUnits best := by
  induction pages with
  | nil => exact fun _ _ => rfl
  | cons sp pages induction =>
      intro minUnits best
      have search : findMinBlock { heap with memoryFree := bytes } sp size align =
        findMinBlock heap sp size align := rfl
      simp only [bestPageLoop, induction, search]

theorem HeapInvariant.allocListed_cases (invariant : HeapInvariant heap live) (size align : Nat) :
    (chosenPage heap size align = none ∧ allocListed heap size align = some (none, heap)) ∨
    ∃ sp ∈ heap.free (sizeClass size), chosenPage heap size align = some sp ∧
      allocListed heap size align = slobPageAlloc heap sp size align ∧
      ∃ found, minBlock heap sp size align = some (some found) := by
  rcases invariant.bestPageLoop_spec size align (heap.free (sizeClass size)) (-1) none
    (fun _ member => member) (.inl ⟨rfl, rfl⟩) with ⟨minUnits, best, loop, chosen⟩
  unfold chosenPage allocListed
  rw [loop]
  simp only [Option.bind_eq_bind, Option.bind_some]
  rcases chosen with ⟨rfl, rfl⟩ | ⟨room, sp, member, rfl, found⟩
  · exact .inl ⟨rfl, rfl⟩
  · exact .inr ⟨sp, member, rfl, by rw [if_pos room]; rfl, found⟩

/-- A page that the page allocator may give: none that is held. -/
def FreshPage (heap : Heap) (pfn : Nat) : Prop := 0 < pfn ∧ ∀ run ∈ heap.runs, run.1 ≠ pfn

theorem HeapInvariant.fresh (invariant : HeapInvariant heap live) (fresh : FreshPage heap pfn) :
    (heap.page pfn).slab = false := by
  cases slab : (heap.page pfn).slab with
  | false => rfl
  | true =>
      have held := (invariant pfn).held 0
      rw [slab, if_pos ⟨rfl, rfl⟩] at held
      have member := List.count_pos_iff.mp (by omega : 0 < heap.runs.count (pfn, 0))
      exact absurd rfl (fresh.2 _ member)

/-- How a call of `slob_alloc` goes: no page, an object from a listed page, or one from
a page that the page allocator gives. -/
theorem HeapInvariant.slobAlloc_cases {size align : Nat} (invariant : HeapInvariant heap live)
    (positive : 0 < size) (bound : size ≤ pageSize) (valid : ValidAlign align) (zero : Bool)
    {answer : Option Nat} (fresh : ∀ pfn, answer = some pfn → FreshPage heap pfn) :
    (chosenPage heap size align = none ∧ answer = none ∧
      slobAlloc heap size align zero answer = some (none, countFree heap)) ∨
    (∃ sp ∈ heap.free (sizeClass size), ∃ b heap', chosenPage heap size align = some sp ∧
      CutFrom (countFree heap) heap' sp (sizeClass size) (segmentsOn live sp) size align b ∧
      slobAlloc heap size align zero answer = some (some b, zeroObject { heap' with
        memoryFree := heap'.memoryFree - slobUnits heap'.mem b * 2 } zero b size)) ∨
    ∃ pfn b heap', chosenPage heap size align = none ∧ answer = some pfn ∧
      CutFrom (newSlobPage (slobNewPages (countFree heap) 0 (some pfn)).2 (pageUnits * pfn)
        (sizeClass size)) heap' pfn (sizeClass size) [] size align b ∧
      slobAlloc heap size align zero answer = some (some b, zeroObject heap' zero b size) := by
  have counted : HeapInvariant (countFree heap) live := invariant.setMemoryFree _
  have samePage : chosenPage (countFree heap) size align = chosenPage heap size align := by
    unfold chosenPage countFree
    rw [bestPageLoop_setMemoryFree]
  rcases counted.allocListed_cases size align with
    ⟨nothing, listed⟩ | ⟨sp, member, chosen, listed, found, search⟩
  · rw [samePage] at nothing
    cases answer with
    | none =>
        refine .inl ⟨nothing, rfl, ?_⟩
        unfold slobAlloc
        simp only [listed, Option.bind_eq_bind, Option.bind_some]
        rfl
    | some pfn =>
        right
        right
        have other := ((invariant pfn).other (invariant.fresh (fresh pfn rfl))).2
        rcases @newSlobPage_alloc (slobNewPages (countFree heap) 0 (some pfn)).2 pfn size align other
          positive bound valid with ⟨b, heap', cut, from'⟩
        refine ⟨pfn, b, heap', nothing, rfl, from', ?_⟩
        unfold slobAlloc
        simp only [listed, Option.bind_eq_bind, Option.bind_some, slobNewPages, virtToPage_page]
        simp only [slobNewPages] at cut
        rw [cut]
        rfl
  · right
    left
    rcases (counted.listed member).2 with ⟨blocks, slobPage, hasFree⟩
    rcases slobPage.layout.slobPageAlloc_spec hasFree positive search with ⟨b, heap', cut, from'⟩
    refine ⟨sp, member, b, heap', samePage ▸ chosen, from', ?_⟩
    unfold slobAlloc
    simp only [listed, cut, Option.bind_eq_bind, Option.bind_some]
    rfl

end

end CE321.Slob
