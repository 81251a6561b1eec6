import CE321.Slob.Runs

/-! # The counter of free memory

`slob_alloc` counts the free bytes of the listed pages before it serves the request and
then corrects the count by the word it finds at the object. The correction is right
exactly when the object took the whole rest of its block.
-/

namespace CE321.Slob

open Segment

/-- The free bytes that a page adds to the listed ones. -/
def pageBytes (heap : Heap) (pfn : Nat) : Int :=
  ([SizeClass.small, .medium, .large].map fun list =>
    ((heap.free list).count pfn : Int) * ((heap.page pfn).units * 2)).sum

theorem sum_map_elsewhere (pages : List Nat) (bytes : Nat → Int) (pfn : Nat) :
    (pages.map bytes).sum =
      ((pages.filter (· ≠ pfn)).map bytes).sum + pages.count pfn * bytes pfn := by
  induction pages with
  | nil => simp
  | cons page pages induction =>
      by_cases same : page = pfn
      · rw [same, List.map_cons, List.sum_cons, induction, List.filter_cons_of_neg (by simp),
          List.count_cons_self]
        push_cast
        ring
      · rw [List.map_cons, List.sum_cons, induction, List.filter_cons_of_pos (by simpa using same),
          List.map_cons, List.sum_cons, List.count_cons_of_ne same]
        ring

section

variable {heap heap' : Heap} {pfn : Nat}

theorem OnlyPage.listedBytes (only : OnlyPage pfn heap heap') :
    Slob.listedBytes heap' - pageBytes heap' pfn = Slob.listedBytes heap - pageBytes heap pfn := by
  have share (list : SizeClass) :
      (((heap'.free list).filter (· ≠ pfn)).map fun page => (heap'.page page).units * 2).sum =
      (((heap.free list).filter (· ≠ pfn)).map fun page => (heap.page page).units * 2).sum := by
    have perm : ((heap'.free list).filter (· ≠ pfn)).Perm ((heap.free list).filter (· ≠ pfn)) := by
      rw [List.perm_iff_count]
      intro page
      by_cases same : page = pfn
      · rw [same, List.count_eq_zero_of_not_mem (by simp), List.count_eq_zero_of_not_mem (by simp)]
      · rw [List.count_filter (by simpa using same), List.count_filter (by simpa using same),
          only.listed page same]
    rw [(perm.map _).sum_eq]
    congr 1
    apply List.map_congr_left
    intro page member
    rw [only.page page (by simpa using (List.mem_filter.mp member).2)]
  unfold Slob.listedBytes pageBytes
  simp only [List.map_cons, List.map_nil, List.sum_cons, List.sum_nil]
  rw [sum_map_elsewhere _ _ pfn, sum_map_elsewhere (heap'.free .medium) _ pfn,
    sum_map_elsewhere (heap'.free .large) _ pfn, sum_map_elsewhere (heap.free .small) _ pfn,
    sum_map_elsewhere (heap.free .medium) _ pfn, sum_map_elsewhere (heap.free .large) _ pfn,
    share, share, share]
  ring

theorem PageLayout.pageBytes {list : SizeClass} {blocks taken : List Segment}
    (layout : PageLayout heap pfn list blocks taken) :
    Slob.pageBytes heap pfn = 2 * totalSize blocks := by
  unfold Slob.pageBytes
  simp only [List.map_cons, List.map_nil, List.sum_cons, List.sum_nil, layout.listed, layout.units]
  by_cases empty : blocks = []
  · simp [empty]
  · cases list <;> simp [empty] <;> ring

theorem CutFrom.listedBytes {list : SizeClass} {taken : List Segment} {size align b : Nat}
    (cut : CutFrom heap heap' pfn list taken size align b) :
    Slob.listedBytes heap' = Slob.listedBytes heap - 2 * unitsOf size := by
  rcases cut.layout with ⟨blocks, blocks', layout, layout'⟩
  have step := cut.quiet.toOnlyPage.listedBytes
  have whole := layout.tiles.totalSize
  have whole' := layout'.tiles.totalSize
  rw [totalSize_append] at whole
  rw [totalSize_append, totalSize_cons] at whole'
  have units : (Object.segment ⟨b, size⟩).size = unitsOf size := rfl
  rw [layout.pageBytes, layout'.pageBytes] at step
  omega

end

/-- The search picks a block that the object and its gap fill, or no listed page has
room and the object fills a page. -/
def ExactFit (heap : Heap) (size align : Nat) : Prop :=
  match chosenPage heap size align with
  | some sp => ∃ found, minBlock heap sp size align = some (some found) ∧
      slobUnits heap.mem found.block = unitsOf size + alignDelta align found.block
  | none => unitsOf size = pageUnits

theorem newSlobPage_listedBytes {heap : Heap} {pfn : Nat} (list : SizeClass)
    (unlisted : ∀ other, (heap.free other).count pfn = 0) :
    listedBytes (newSlobPage heap (pageUnits * pfn) list) = listedBytes heap + 2 * pageUnits := by
  have step := (@newSlobPage_only heap pfn list).listedBytes
  have before : pageBytes heap pfn = 0 := by simp [pageBytes, unlisted]
  rw [(newSlobPage_layout pfn list unlisted).pageBytes, before] at step
  simp only [totalSize_cons, totalSize_nil, Nat.add_zero] at step
  omega

theorem zeroObject_memoryFree (heap : Heap) (zero : Bool) (b size : Nat) :
    (zeroObject heap zero b size).memoryFree = heap.memoryFree ∧
      listedBytes (zeroObject heap zero b size) = listedBytes heap := by
  unfold zeroObject
  split <;> exact ⟨rfl, rfl⟩

/-- `memory_free` is right after a request exactly when the object fills its block. -/
theorem memoryFree_exact {machine : Machine} (reachable : Reachable machine) {size align : Nat}
    {zero : Bool} {answer : Option Nat} (legal : (Call.alloc size align zero answer).Legal machine)
    {b : Nat} {heap : Heap}
    (returned : slobAlloc machine.heap size align zero answer = some (some b, heap)) :
    heap.memoryFree = listedBytes heap ↔ ExactFit machine.heap size align := by
  have invariant := reachable.invariant
  rcases legal with ⟨positive, bound, valid, fresh⟩
  rcases invariant.slobAlloc_cases positive (bound.trans (by decide)) valid zero fresh with
    ⟨-, -, none⟩ | ⟨sp, member, b', heap', chosen, cut, some⟩ |
    ⟨pfn, b', heap', chosen, got, cut, some⟩
  · rw [none] at returned
    cases returned
  · rw [some] at returned
    cases returned
    rcases cut.stale with ⟨found, search, stale⟩
    have search' : minBlock machine.heap sp size align = .some (.some found) := search
    have counted : heap'.memoryFree = listedBytes machine.heap := cut.quiet.memoryFree
    have listed : listedBytes heap' = listedBytes machine.heap - 2 * unitsOf size := cut.listedBytes
    have unchanged : listedBytes { heap' with
      memoryFree := heap'.memoryFree - slobUnits heap'.mem b * 2 } = listedBytes heap' := rfl
    have word : slobUnits heap'.mem b =
      slobUnits machine.heap.mem found.block - alignDelta align found.block := stale
    rw [(zeroObject_memoryFree _ zero b size).1, (zeroObject_memoryFree _ zero b size).2, unchanged,
      listed, counted, word]
    unfold ExactFit
    rw [chosen]
    simp only [search', Option.some.injEq, exists_eq_left']
    constructor
    · intro equal
      omega
    · intro fits
      omega
  · rw [some] at returned
    cases returned
    have unlisted := ((invariant pfn).other (invariant.fresh (fresh pfn got))).2
    have counted : heap'.memoryFree = listedBytes machine.heap := cut.quiet.memoryFree
    have obtained : listedBytes (newSlobPage (slobNewPages (countFree machine.heap) 0 (.some pfn)).2
        (pageUnits * pfn) (sizeClass size)) = listedBytes machine.heap + 2 * pageUnits :=
      newSlobPage_listedBytes (sizeClass size) unlisted
    rw [(zeroObject_memoryFree _ zero b size).1, (zeroObject_memoryFree _ zero b size).2,
      cut.listedBytes, counted, obtained]
    unfold ExactFit
    rw [chosen]
    simp only
    omega

theorem blank_reachable : Reachable blank := Reachable.start _ _ _

/-- What a first object of 4095 bytes leaves. -/
def wholePage : Heap := ((slobAlloc blank.heap 4095 0 false (some 1)).get (by decide)).2

theorem memoryFree_exact_wholePage :
    slobAlloc blank.heap 4095 0 false (some 1) = some (some 2048, wholePage) ∧
      wholePage.memoryFree = listedBytes wholePage := by
  have returned : slobAlloc blank.heap 4095 0 false (some 1) = some (some 2048, wholePage) := by
    have first : ((slobAlloc blank.heap 4095 0 false (some 1)).get (by decide)).1 = some 2048 := by
      decide
    rw [← @Option.some_get _ (slobAlloc blank.heap 4095 0 false (some 1)) (by decide)]
    exact congrArg some (Prod.ext first rfl)
  refine ⟨returned, (memoryFree_exact blank_reachable (legal_blank (by decide) (by decide)
    (.inl rfl)) returned).mpr ?_⟩
  have noPage : chosenPage blank.heap 4095 0 = none := by decide
  unfold ExactFit
  rw [noPage]
  rfl

/-- The counter and the listed bytes behind a request. -/
def countsAfter (heap : Heap) (size align : Nat) (answer : Option Nat) :
    Option (Option Nat × Int × Int) :=
  (slobAlloc heap size align false answer).map fun (b, heap) =>
    (b, heap.memoryFree, listedBytes heap)

/-- A first object of 100 bytes leaves 3996 bytes of its page free and a second one of 100
bytes leaves 3896, but `memory_free` is 0 both times. -/
theorem memoryFree_stale :
    (Reachable blank ∧ (Call.alloc 100 0 false (some 1)).Legal blank ∧
      countsAfter blank.heap 100 0 (some 1) = some (some 2048, 0, 3996)) ∧
    Reachable oneObject ∧ (Call.alloc 100 0 false none).Legal oneObject ∧
      countsAfter oneObject.heap 100 0 none = some (some 2098, 0, 3896) := by
  refine ⟨⟨blank_reachable, legal_blank (by decide) (by decide) (.inl rfl), by decide⟩,
    oneObject_reachable, ⟨by decide, by decide, .inl rfl, ?_⟩, by decide⟩
  rintro pfn ⟨⟩

end CE321.Slob
