import CE321.Slob.Contents
import CE321.Slob.Frontend

/-! # Objects beside page runs

The page allocator serves `slob_alloc`, which takes single pages for its objects, and the
large blocks of `kmalloc` and the caches, which are page runs of their own. Here the heap
has both: what `slob_alloc` and `slob_free` do does not depend on the other page runs.
-/

namespace CE321.Slob

open Segment

def Heap.withRuns (heap : Heap) (runs : List (Nat × Nat)) : Heap := { heap with runs := runs }

/-! ## The record of the page runs is only written -/

section

variable {heap heap' : Heap} {size align pfn : Nat}

theorem takeFront_withRuns (runs : List (Nat × Nat)) (units : Nat) (prev : Option Nat)
    (block : Nat) : takeFront (heap.withRuns runs) pfn units prev block =
      (takeFront heap pfn units prev block).withRuns runs := by
  by_cases whole : slobUnits heap.mem block = units
  · cases prev <;> simp [takeFront, relink, Heap.withRuns, Heap.setPage, whole]
  · cases prev <;> simp [takeFront, relink, Heap.withRuns, Heap.setPage, whole]

theorem takeAligned_withRuns (runs : List (Nat × Nat)) (units delta : Nat) (found : Candidate) :
    takeAligned (heap.withRuns runs) pfn units delta found =
      (takeAligned heap pfn units delta found).withRuns runs := by
  unfold takeAligned
  split
  · exact @takeFront_withRuns { heap with mem := fragmentHead heap.mem found.block delta } pfn runs
      units (some found.block) (found.block + delta)
  · exact takeFront_withRuns runs units _ _

theorem slobPageAlloc_withRuns (runs : List (Nat × Nat)) :
    slobPageAlloc (heap.withRuns runs) pfn size align =
      (slobPageAlloc heap pfn size align).map fun result => (result.1, result.2.withRuns runs) := by
  have search : minBlock (heap.withRuns runs) pfn size align = minBlock heap pfn size align := rfl
  unfold slobPageAlloc
  rw [search]
  cases minBlock heap pfn size align with
  | none => rfl
  | some best =>
      cases best with
      | none => rfl
      | some found =>
          simp only [Option.bind_eq_bind, Option.bind_some, cutBlock, takeAligned_withRuns]
          generalize takeAligned heap pfn (unitsOf size) _ found = cut
          by_cases full : (cut.page pfn).units - unitsOf size = 0
          · simp [Heap.withRuns, Heap.setPage, clearSlobPageFree, full]
          · simp [Heap.withRuns, Heap.setPage, full]

theorem bestPageLoop_withRuns (runs : List (Nat × Nat)) (pages : List Nat) :
    ∀ (minUnits : Int) (best : Option Nat),
    bestPageLoop (heap.withRuns runs) size align pages minUnits best =
      bestPageLoop heap size align pages minUnits best := by
  induction pages with
  | nil => exact fun _ _ => rfl
  | cons sp pages induction =>
      intro minUnits best
      have search : findMinBlock (heap.withRuns runs) sp size align =
        findMinBlock heap sp size align := rfl
      have page : (heap.withRuns runs).page = heap.page := rfl
      simp only [bestPageLoop, induction, search, page]

theorem allocListed_withRuns (runs : List (Nat × Nat)) :
    allocListed (heap.withRuns runs) size align =
      (allocListed heap size align).map fun result => (result.1, result.2.withRuns runs) := by
  have free : (heap.withRuns runs).free = heap.free := rfl
  unfold allocListed
  rw [bestPageLoop_withRuns, free]
  cases bestPageLoop heap size align (heap.free (sizeClass size)) (-1) none with
  | none => rfl
  | some found =>
      simp only [Option.bind_eq_bind, Option.bind_some]
      split
      · cases found.2 with
        | none => rfl
        | some sp => exact slobPageAlloc_withRuns runs
      · rfl

theorem newSlobPage_withRuns (runs : List (Nat × Nat)) :
    slobPageAlloc (newSlobPage (slobNewPages (heap.withRuns runs) 0 (some pfn)).2 (pageUnits * pfn)
        (sizeClass size)) (virtToPage (pageUnits * pfn)) size align =
      (slobPageAlloc (newSlobPage (slobNewPages heap 0 (some pfn)).2 (pageUnits * pfn)
        (sizeClass size)) (virtToPage (pageUnits * pfn)) size align).map
          fun result => (result.1, result.2.withRuns ((pfn, 0) :: runs)) :=
  @slobPageAlloc_withRuns (newSlobPage (slobNewPages heap 0 (some pfn)).2 (pageUnits * pfn)
    (sizeClass size)) size align (virtToPage (pageUnits * pfn)) ((pfn, 0) :: runs)

/-- A request adds at most the page that the page allocator gives to the record, whatever
else is in it. -/
theorem slobAlloc_withRuns {runs : List (Nat × Nat)} (runs' : List (Nat × Nat)) {zero : Bool}
    {answer b : Option Nat}
    (returned : slobAlloc (heap.withRuns runs) size align zero answer = some (b, heap')) :
    ∃ added, (added = [] ∨ ∃ pfn, answer = some pfn ∧ added = [(pfn, 0)]) ∧
      heap'.runs = added ++ runs ∧
      slobAlloc (heap.withRuns runs') size align zero answer =
        some (b, heap'.withRuns (added ++ runs')) := by
  have counted (other : List (Nat × Nat)) :
      countFree (heap.withRuns other) = (countFree heap).withRuns other := rfl
  unfold slobAlloc at returned ⊢
  simp only [counted, allocListed_withRuns, Option.bind_eq_bind] at returned ⊢
  generalize allocListed (countFree heap) size align = searched at returned ⊢
  cases searched with
  | none => cases returned
  | some listed =>
      rcases listed with ⟨object, heap₁⟩
      cases object with
      | some object =>
          refine ⟨[], .inl rfl, ?_⟩
          cases returned
          unfold zeroObject
          cases zero <;> exact ⟨rfl, rfl⟩
      | none =>
          cases answer with
          | none =>
              cases returned
              exact ⟨[], .inl rfl, rfl, rfl⟩
          | some pfn =>
              refine ⟨[(pfn, 0)], .inr ⟨pfn, rfl, rfl⟩, ?_⟩
              have page (other : List (Nat × Nat)) :=
                @newSlobPage_withRuns heap₁ size align pfn other
              simp only [Option.map_some, Option.bind_some, slobNewPages] at returned page ⊢
              rw [page] at returned ⊢
              generalize slobPageAlloc _ _ size align = cut at returned ⊢
              cases cut with
              | none => cases returned
              | some cut =>
                  rcases cut with ⟨object, heap₂⟩
                  cases object with
                  | none => cases returned
                  | some object =>
                      cases returned
                      unfold zeroObject
                      cases zero <;> exact ⟨rfl, rfl⟩

theorem reinsert_withRuns (runs : List (Nat × Nat)) (b units : Nat) :
    reinsert (heap.withRuns runs) pfn b units =
      (reinsert heap pfn b units).map fun heap => heap.withRuns runs := by
  by_cases front : b < (heap.page pfn).freelist
  · by_cases touches : b + units = (heap.page pfn).freelist
    · simp [reinsert, front, Heap.withRuns, Heap.setPage, touches]
    · simp [reinsert, front, Heap.withRuns, Heap.setPage, touches]
  · have walk : insertionPoint (heap.withRuns runs).mem b pageUnits (heap.page pfn).freelist =
      insertionPoint heap.mem b pageUnits (heap.page pfn).freelist := rfl
    have page : (heap.withRuns runs).page = heap.page := rfl
    unfold reinsert
    simp only [page, if_neg front]
    simp only [Heap.setPage, walk]
    cases insertionPoint heap.mem b pageUnits (heap.page pfn).freelist <;> rfl

theorem slobFree_withRuns {runs : List (Nat × Nat)} (runs' : List (Nat × Nat)) {b : Nat}
    (returned : slobFree (heap.withRuns runs) b size = some heap') :
    (heap'.runs = runs ∧ slobFree (heap.withRuns runs') b size = some (heap'.withRuns runs')) ∨
      heap'.runs = runs.erase (virtToPage b, 0) ∧ slobFree (heap.withRuns runs') b size =
        some (heap'.withRuns (runs'.erase (virtToPage b, 0))) := by
  have page (other : List (Nat × Nat)) : (heap.withRuns other).page = heap.page := rfl
  unfold slobFree at returned ⊢
  simp only [page, reinsert_withRuns] at returned ⊢
  by_cases null : zeroOrNullPtr b = true
  · rw [if_pos null] at returned ⊢
    cases returned
    exact .inl ⟨rfl, rfl⟩
  · by_cases empty : size = 0
    · rw [if_neg null, if_pos empty] at returned
      cases returned
    · by_cases whole : (heap.page (virtToPage b)).units + unitsOf size = pageUnits
      · right
        rw [if_neg null, if_neg empty, if_pos whole] at returned ⊢
        cases returned
        unfold returnPage
        simp only [page]
        cases (heap.page (virtToPage b)).slobFree <;> exact ⟨rfl, rfl⟩
      · left
        rw [if_neg null, if_neg empty, if_neg whole] at returned ⊢
        cases flag : (heap.page (virtToPage b)).slobFree with
        | false =>
            rw [flag] at returned
            cases returned
            exact ⟨rfl, rfl⟩
        | true =>
            rw [flag] at returned
            rcases Option.map_eq_some_iff.mp returned with ⟨given, reinserted, rfl⟩
            simp only [reinserted, Bool.not_true, Bool.false_eq_true, if_false, Option.map_some]
            exact ⟨rfl, rfl⟩

end

/-! ## The invariant of a heap with large blocks -/

/-- Two page runs have no page in common. -/
def RunsApart (left right : Nat × Nat) : Prop :=
  left.1 + 2 ^ left.2 ≤ right.1 ∨ right.1 + 2 ^ right.2 ≤ left.1

instance : Std.Symm RunsApart := ⟨fun _ _ => Or.symm⟩

/-- The page run has the unit. -/
def InRun (run : Nat × Nat) (address : Nat) : Prop :=
  run.1 ≤ virtToPage address ∧ virtToPage address < run.1 + 2 ^ run.2

/-- A heap with objects of `slob_alloc`, and page runs that are not for objects. -/
structure MixedInvariant (heap : Heap) (objects : List Object) (large : List (Nat × Nat)) :
    Prop where
  split : ∃ single, heap.runs.Perm (single ++ large) ∧ HeapInvariant (heap.withRuns single) objects
  apart : heap.runs.Pairwise RunsApart
  positive : ∀ run ∈ heap.runs, 0 < run.1

/-- The units of the objects and of the other page runs. -/
def Owned (objects : List Object) (large : List (Nat × Nat)) (address : Nat) : Prop :=
  (∃ object ∈ objects, object.Holds address) ∨ ∃ run ∈ large, InRun run address

theorem HeapInvariant.setMemoryAlloc {heap : Heap} {live : List Object}
    (invariant : HeapInvariant heap live) (bytes : Int) :
    HeapInvariant { heap with memoryAlloc := bytes } live := by
  intro pfn
  have old := invariant pfn
  refine ⟨fun slab => ?_, old.other, old.held⟩
  rcases old.slob slab with ⟨positive, list, blocks, layout, sameClass, used⟩
  exact ⟨positive, list, blocks, { layout with }, sameClass, used⟩

section

variable {heap : Heap} {objects objects' : List Object} {large large' : List (Nat × Nat)}
  {pfn order : Nat}

theorem MixedInvariant.perm (mixed : MixedInvariant heap objects large)
    (sameObjects : objects.Perm objects') (sameRuns : large.Perm large') :
    MixedInvariant heap objects' large' := by
  rcases mixed.split with ⟨single, runs, invariant⟩
  exact ⟨⟨single, runs.trans (sameRuns.append_left single), invariant.perm sameObjects⟩,
    mixed.apart, mixed.positive⟩

theorem MixedInvariant.notSlab (mixed : MixedInvariant heap objects large) {run : Nat × Nat}
    (member : run ∈ large) (from' : run.1 ≤ pfn) (upTo : pfn < run.1 + 2 ^ run.2) :
    (heap.page pfn).slab = false := by
  rcases mixed.split with ⟨single, runs, invariant⟩
  cases slab : (heap.page pfn).slab with
  | false => rfl
  | true =>
      have held : single.count (pfn, 0) = 1 := ((invariant pfn).held 0).trans (if_pos ⟨slab, rfl⟩)
      have isSingle : (pfn, 0) ∈ single := List.count_pos_iff.mp (by omega)
      have apart := runs.pairwise mixed.apart Or.symm
      have disjoint := (List.pairwise_append.mp apart).2.2 (pfn, 0) isSingle run member
      simp only [RunsApart, Nat.pow_zero] at disjoint
      omega

theorem MixedInvariant.compoundOrder (mixed : MixedInvariant heap objects large)
    (member : (pfn, order) ∈ heap.runs) : Slob.compoundOrder heap pfn = order := by
  unfold Slob.compoundOrder
  cases found : heap.runs.find? fun run => run.1 == pfn with
  | none => simpa using List.find?_eq_none.mp found _ member
  | some run =>
      have isHere : run.1 = pfn := by simpa using List.find?_some found
      by_cases same : run = (pfn, order)
      · rw [same]
        rfl
      · have apart := mixed.apart.forall (List.mem_of_find?_eq_some found) member same
        have positive := Nat.two_pow_pos run.2
        have positive' := Nat.two_pow_pos order
        simp only [RunsApart] at apart
        omega

/-- A word in an object, or in a run that is not for objects, is one that callers may store to. -/
theorem MixedInvariant.mayStore (mixed : MixedInvariant heap objects large)
    (single : List (Nat × Nat)) {address : Nat} (owned : Owned objects large address) :
    MayStore (heap.withRuns single) objects address := by
  rcases owned with holds | ⟨run, member, from', upTo⟩
  · exact .inr holds
  · exact .inl (mixed.notSlab member from' upTo)

theorem MixedInvariant.ownedElsewhere (mixed : MixedInvariant heap objects large)
    (fresh : FreshRun heap order pfn) {address : Nat} (owned : Owned objects large address) :
    ¬InRun (pfn, order) address := by
  rcases mixed.split with ⟨single, runs, invariant⟩
  rintro ⟨from', upTo⟩
  simp only at from' upTo
  rcases owned with ⟨object, member, holds⟩ | ⟨run, member, start, stop⟩
  · have own := (invariant.holds_page member holds).1
    have held := (invariant.held_iff (virtToPage address)).mpr
      ⟨object, member, (mem_objectsOn.mp own).2⟩
    have apart := fresh.2 _ (runs.mem_iff.mpr (List.mem_append_left large held))
    simp only [Nat.pow_zero] at apart
    omega
  · have apart := fresh.2 run (runs.mem_iff.mpr (List.mem_append_right single member))
    omega

theorem FreshRun.page (fresh : FreshRun heap 0 pfn) {single : List (Nat × Nat)}
    (some : ∀ run ∈ single, run ∈ heap.runs) : FreshPage (heap.withRuns single) pfn := by
  refine ⟨fresh.1, fun run member => ?_⟩
  have apart := fresh.2 run (some run member)
  have positive := Nat.two_pow_pos run.2
  omega

/-- `slob_alloc` beside other page runs: it returns, and writes to nothing that is held. -/
theorem MixedInvariant.slobAlloc {size align : Nat} (mixed : MixedInvariant heap objects large)
    (positive : 0 < size) (bound : size ≤ pageSize) (valid : ValidAlign align) (zero : Bool)
    {answer : Option Nat} (fresh : ∀ pfn, answer = some pfn → FreshRun heap 0 pfn) :
    ∃ b heap', Slob.slobAlloc heap size align zero answer = some (b, heap') ∧
      MixedInvariant heap' (match b with
        | some b => ⟨b, size⟩ :: objects
        | none => objects) large ∧
      ∀ address, Owned objects large address → heap'.mem address = heap.mem address := by
  rcases mixed.split with ⟨single, runs, invariant⟩
  have freshPage : ∀ pfn, answer = some pfn → FreshPage (heap.withRuns single) pfn :=
    fun pfn got => (fresh pfn got).page fun run member =>
      runs.mem_iff.mpr (List.mem_append_left large member)
  rcases invariant.slobAlloc positive bound valid zero freshPage with ⟨b, heap', returned, kept⟩
  rcases slobAlloc_withRuns heap.runs returned with ⟨added, isAdded, runs', returned'⟩
  refine ⟨b, heap'.withRuns (added ++ heap.runs), returned', ⟨⟨heap'.runs, ?_, kept⟩, ?_, ?_⟩, ?_⟩
  · rw [runs', List.append_assoc]
    exact runs.append_left added
  · rcases isAdded with rfl | ⟨pfn, got, rfl⟩
    · exact mixed.apart
    · exact List.pairwise_cons.mpr ⟨fun run member => (fresh pfn got).2 run member, mixed.apart⟩
  · rcases isAdded with rfl | ⟨pfn, got, rfl⟩
    · exact mixed.positive
    · exact List.forall_mem_cons.mpr ⟨(fresh pfn got).1, mixed.positive⟩
  · intro address owned
    have same := invariant.slobAlloc_kept positive bound valid freshPage returned
      (mixed.mayStore single owned) fun pfn got here =>
        mixed.ownedElsewhere (fresh pfn got) owned ⟨here.ge, by simp only; omega⟩
    exact same

theorem MixedInvariant.slobFree {object : Object}
    (mixed : MixedInvariant heap (object :: objects) large) :
    ∃ heap', Slob.slobFree heap object.address object.size = some heap' ∧
      MixedInvariant heap' objects large ∧
      ∀ address, Owned objects large address → heap'.mem address = heap.mem address := by
  rcases mixed.split with ⟨single, runs, invariant⟩
  rcases invariant.slobFree List.mem_cons_self with ⟨heap', returned, kept⟩
  have same : ∀ address, Owned objects large address → heap'.mem address = heap.mem address := by
    intro address owned
    apply invariant.slobFree_kept List.mem_cons_self returned
    rw [List.erase_cons_head]
    rcases owned with holds | ⟨run, member, from', upTo⟩
    · exact .inr holds
    · exact .inl (mixed.notSlab member from' upTo)
  rw [List.erase_cons_head] at kept
  rcases slobFree_withRuns heap.runs returned with ⟨runs', returned'⟩ | ⟨runs', returned'⟩
  · refine ⟨heap'.withRuns heap.runs, returned', ⟨⟨heap'.runs, ?_, kept⟩, mixed.apart,
      mixed.positive⟩, same⟩
    rw [runs']
    exact runs
  · have held := (invariant.held_iff (virtToPage object.address)).mpr
      ⟨object, List.mem_cons_self, rfl⟩
    have isSingle : (virtToPage object.address, 0) ∈ single := held
    refine ⟨heap'.withRuns (heap.runs.erase (virtToPage object.address, 0)), returned',
      ⟨⟨heap'.runs, ?_, kept⟩, mixed.apart.sublist List.erase_sublist,
        fun run member => mixed.positive run (List.mem_of_mem_erase member)⟩, same⟩
    rw [runs', ← List.erase_append_left large isSingle]
    exact runs.erase _

theorem MixedInvariant.newRun (mixed : MixedInvariant heap objects large)
    (fresh : FreshRun heap order pfn) (memoryAlloc : Int) :
    MixedInvariant { heap with memoryAlloc := memoryAlloc, runs := (pfn, order) :: heap.runs }
      objects ((pfn, order) :: large) := by
  rcases mixed.split with ⟨single, runs, invariant⟩
  refine ⟨⟨single, (runs.cons _).trans List.perm_middle.symm, ?_⟩,
    List.pairwise_cons.mpr ⟨fresh.2, mixed.apart⟩,
    List.forall_mem_cons.mpr ⟨fresh.1, mixed.positive⟩⟩
  exact invariant.setMemoryAlloc memoryAlloc

theorem MixedInvariant.eraseRun (mixed : MixedInvariant heap objects ((pfn, order) :: large))
    (memoryAlloc : Int) :
    MixedInvariant { heap with memoryAlloc := memoryAlloc, runs := heap.runs.erase (pfn, order) }
      objects large := by
  rcases mixed.split with ⟨single, runs, invariant⟩
  have rest := (runs.trans List.perm_middle).erase (pfn, order)
  rw [List.erase_cons_head] at rest
  exact ⟨⟨single, rest, invariant.setMemoryAlloc memoryAlloc⟩,
    mixed.apart.sublist List.erase_sublist,
    fun run member => mixed.positive run (List.mem_of_mem_erase member)⟩

theorem MixedInvariant.store (mixed : MixedInvariant heap objects large) {mem : Nat → Int}
    (may : ∀ address, mem address ≠ heap.mem address → MayStore heap objects address) :
    MixedInvariant { heap with mem := mem } objects large := by
  rcases mixed.split with ⟨single, runs, invariant⟩
  exact ⟨⟨single, runs, @HeapInvariant.store _ _ invariant mem may⟩, mixed.apart, mixed.positive⟩

end

end CE321.Slob
