import CE321.Slob.HeapSteps

/-! # Runs of the allocator

Sequences of `slob_alloc` and `slob_free`, between which the callers write into their
objects, and what holds of the heap after any of them.
-/

namespace CE321.Slob

open Segment

/-- The heap, and the objects that the callers hold. -/
structure Machine where
  heap : Heap
  live : List Object

def Machine.start (wide : Bool) (mem : Nat → Int) (page : Nat → Page) : Machine where
  heap := {
    wide := wide
    mem := mem
    page := fun pfn => { page pfn with slab := false }
    free := fun _ => []
    memoryAlloc := 0
    memoryFree := 0
    runs := [] }
  live := []

inductive Call where
  | alloc (size align : Nat) (zero : Bool) (answer : Option Nat)
  | free (object : Object)
  | store (address : Nat) (value : Int)

/-- The calls that may be made, and the pages that the page allocator may give. -/
def Call.Legal (machine : Machine) : Call → Prop
  | .alloc size align _ answer => 1 ≤ size ∧ size ≤ 4095 ∧ ValidAlign align ∧
      ∀ pfn, answer = some pfn → FreshPage machine.heap pfn
  | .free object => object ∈ machine.live
  | .store address _ => MayStore machine.heap machine.live address

def Machine.step (machine : Machine) : Call → Option Machine
  | .alloc size align zero answer => do
      let (b, heap) ← slobAlloc machine.heap size align zero answer
      match b with
      | some b => pure ⟨heap, ⟨b, size⟩ :: machine.live⟩
      | none => pure ⟨heap, machine.live⟩
  | .free object => do
      let heap ← slobFree machine.heap object.address object.size
      pure ⟨heap, machine.live.erase object⟩
  | .store address value =>
      some ⟨{ machine.heap with mem := Function.update machine.heap.mem address value },
        machine.live⟩

inductive Reachable : Machine → Prop
  | start (wide : Bool) (mem : Nat → Int) (page : Nat → Page) :
      Reachable (Machine.start wide mem page)
  | step {machine next : Machine} (reachable : Reachable machine) (call : Call)
      (legal : call.Legal machine) (taken : machine.step call = some next) : Reachable next

theorem HeapInvariant.start (wide : Bool) (mem : Nat → Int) (page : Nat → Page) :
    HeapInvariant (Machine.start wide mem page).heap (Machine.start wide mem page).live := by
  intro pfn
  refine ⟨fun slab => ?_, fun _ => ⟨rfl, fun _ => rfl⟩, fun order => ?_⟩
  · cases slab
  · simp [Machine.start]

theorem HeapInvariant.step {machine : Machine} (invariant : HeapInvariant machine.heap machine.live)
    {call : Call} (legal : call.Legal machine) :
    ∃ next, machine.step call = some next ∧ HeapInvariant next.heap next.live := by
  cases call with
  | alloc size align zero answer =>
      rcases legal with ⟨positive, bound, valid, fresh⟩
      rcases invariant.slobAlloc positive (bound.trans (by decide)) valid zero fresh with
        ⟨b, heap, returned, kept⟩
      simp only [Machine.step, returned, Option.bind_eq_bind, Option.bind_some]
      cases b with
      | none => exact ⟨_, rfl, kept⟩
      | some b => exact ⟨_, rfl, kept⟩
  | free object =>
      rcases invariant.slobFree legal with ⟨heap, returned, kept⟩
      simp only [Machine.step, returned, Option.bind_eq_bind, Option.bind_some]
      exact ⟨_, rfl, kept⟩
  | store address value =>
      refine ⟨_, rfl, invariant.store fun other changed => ?_⟩
      have same : other = address := by
        by_contra away
        exact changed (Function.update_of_ne away _ _)
      exact same ▸ legal

theorem Reachable.invariant {machine : Machine} (reachable : Reachable machine) :
    HeapInvariant machine.heap machine.live := by
  induction reachable with
  | start wide mem page => exact HeapInvariant.start wide mem page
  | step reachable call legal taken induction =>
      rcases induction.step legal with ⟨next, taken', kept⟩
      rw [taken] at taken'
      cases taken'
      exact kept

/-! ## What a caller can see -/

/-- The free blocks from one of them on, by `slob_units` and `slob_next` up to `slob_last`. -/
def walkFree (mem : Nat → Int) : (fuel : Nat) → (s : Nat) → Option (List Segment)
  | 0, _ => none
  | fuel + 1, s =>
      if slobLast mem s then some [⟨s, (slobUnits mem s).toNat⟩]
      else (walkFree mem fuel (slobNext mem s)).map (⟨s, (slobUnits mem s).toNat⟩ :: ·)

def freeList (heap : Heap) (pfn : Nat) : Option (List Segment) :=
  if (heap.page pfn).units = 0 then some []
  else walkFree heap.mem pageUnits (heap.page pfn).freelist

/-- A page whose free blocks and objects make it up. -/
structure WellFormed (machine : Machine) (pfn : Nat) (blocks : List Segment) : Prop where
  decoded : freeList machine.heap pfn = some blocks
  increasing : blocks.Pairwise fun left right => left.start < right.start
  pageEnd : ∀ last ∈ blocks.getLast?,
    slobNext machine.heap.mem last.start = pageUnits * (pfn + 1)
  partition : ∀ address, cover (blocks ++ (objectsOn machine.live pfn).map fun object =>
      ⟨object.address, unitsOf object.size⟩) address =
    if pageUnits * pfn ≤ address ∧ address < pageUnits * (pfn + 1) then 1 else 0
  apart : blocks.Pairwise fun left right => left.stop ≠ right.start ∧ right.stop ≠ left.start
  units : (machine.heap.page pfn).units = totalSize blocks
  listed : ∃ list, (∀ object ∈ objectsOn machine.live pfn, sizeClass object.size = list) ∧
    ∀ other, (machine.heap.free other).count pfn =
      if other = list ∧ 0 < (machine.heap.page pfn).units then 1 else 0

theorem walkFree_spec {mem : Nat → Int} {pfn : Nat} (rest : List Segment) :
    ∀ (fuel : Nat) (first : Segment), rest.length < fuel →
    Encodes mem (pageUnits * pfn) (first :: rest) pageUnits → FreeList (first :: rest) →
    walkFree mem fuel (pageUnits * pfn + first.start) =
      some ((first :: rest).map (shift (pageUnits * pfn))) ∧
    ∀ last ∈ ((first :: rest).map (shift (pageUnits * pfn))).getLast?,
      slobNext mem last.start = pageUnits * pfn + pageUnits := by
  induction rest with
  | nil =>
      intro fuel first enough encodes free
      rcases Nat.exists_eq_add_one_of_ne_zero (Nat.ne_of_gt enough) with ⟨fuel, rfl⟩
      rcases OnPage.cons.mp free.onPage with ⟨⟨positive, inside⟩, -⟩
      rcases free.firstStart_bounds with ⟨goesOn, -, bounded, -⟩
      have units := slobUnits_node encodes.1 positive goesOn
      have last := slobLast_node encodes.1 positive inside goesOn bounded
      have next := slobNext_node encodes.1 positive inside goesOn
      constructor
      · simp [walkFree, last, units, firstStart, shift]
      · simpa [shift, firstStart] using next
  | cons next rest induction =>
      intro fuel first enough encodes free
      rcases Nat.exists_eq_add_one_of_ne_zero (Nat.ne_of_gt (Nat.zero_lt_of_lt enough)) with
        ⟨fuel, rfl⟩
      rcases OnPage.cons.mp free.onPage with ⟨⟨positive, inside⟩, -⟩
      rcases free.firstStart_bounds with ⟨goesOn, -, bounded, atEnd⟩
      have units := slobUnits_node encodes.1 positive goesOn
      have last := slobLast_node encodes.1 positive inside goesOn bounded
      have follow := slobNext_node encodes.1 positive inside goesOn
      have onward : firstStart (next :: rest) pageUnits = next.start := rfl
      have notEnd : ¬next.start = pageUnits := by
        rw [← onward, atEnd]
        exact List.cons_ne_nil _ _
      rw [onward] at last follow
      rcases induction fuel next (by simp only [List.length_cons] at enough; omega) encodes.2
        free.tail with ⟨walked, ends⟩
      constructor
      · simp only [walkFree, last, beq_eq_false_iff_ne.mpr notEnd, Bool.false_eq_true, if_false,
          follow, walked, units, Option.map_some, Int.toNat_natCast]
        rfl
      · simpa only [List.map_cons, List.getLast?_cons_cons] using ends

theorem segmentsOn_shift (live : List Object) (pfn : Nat) :
    (segmentsOn live pfn).map (shift (pageUnits * pfn)) =
      (objectsOn live pfn).map fun object => ⟨object.address, unitsOf object.size⟩ := by
  unfold segmentsOn
  rw [List.map_map]
  apply List.map_congr_left
  intro object member
  apply Segment.ext
  · exact (Object.address_eq (mem_objectsOn.mp member).2).symm
  · rfl

theorem PageLayout.freeList {heap : Heap} {pfn : Nat} {list : SizeClass}
    {blocks taken : List Segment} (layout : PageLayout heap pfn list blocks taken) :
    Slob.freeList heap pfn = some (blocks.map (shift (pageUnits * pfn))) ∧
    ∀ last ∈ (blocks.map (shift (pageUnits * pfn))).getLast?,
      slobNext heap.mem last.start = pageUnits * pfn + pageUnits := by
  have total := totalSize_eq_zero layout.free.onPage.positive
  have enough := layout.length_le
  have encodes := layout.encodes
  have free := layout.free
  unfold Slob.freeList
  rw [layout.units, layout.head]
  cases blocks with
  | nil => simp
  | cons first rest =>
      have some : ¬((totalSize (first :: rest) : Int) = 0) := by
        rw [Nat.cast_eq_zero, total]
        exact List.cons_ne_nil _ _
      rw [if_neg some]
      exact walkFree_spec rest pageUnits first
        (by simp only [List.length_cons] at enough; omega) encodes free

theorem SlobPage.wellFormed {machine : Machine} {pfn : Nat} {list : SizeClass}
    {blocks : List Segment} (slobPage : SlobPage machine.heap machine.live pfn list blocks) :
    WellFormed machine pfn (blocks.map (shift (pageUnits * pfn))) := by
  have layout := slobPage.layout
  have total := totalSize_eq_zero layout.free.onPage.positive
  have walked := layout.freeList
  constructor
  · exact walked.1
  · apply List.Pairwise.map _ _ layout.free.separated
    intro left right apart
    unfold stop at apart
    unfold shift
    simp only
    omega
  · exact fun last member => (walked.2 last member).trans (by ring)
  · intro address
    have nextPage : pageUnits * (pfn + 1) = pageUnits * pfn + pageUnits := Nat.mul_succ _ _
    rw [← segmentsOn_shift, ← List.map_append]
    rcases Nat.lt_or_ge address (pageUnits * pfn) with before | fromStart
    · rw [cover_shift_before _ before, if_neg (by omega)]
    · rcases Nat.exists_eq_add_of_le fromStart with ⟨unit, rfl⟩
      rw [cover_shift]
      rcases Nat.lt_or_ge unit pageUnits with inside | behind
      · rw [layout.tiles.once unit inside, if_pos (by omega)]
      · rw [layout.tiles.cover_behind behind, if_neg (by omega)]
  · apply List.Pairwise.map _ _ layout.free.separated
    intro left right apart
    unfold shift stop at *
    simp only
    omega
  · rw [totalSize_shift, layout.units]
  · refine ⟨list, slobPage.sameClass, fun other => ?_⟩
    rw [layout.listed, layout.units]
    apply if_congr _ rfl rfl
    have positive : 0 < (totalSize blocks : Int) ↔ blocks ≠ [] := by
      rw [ne_eq, ← total]
      omega
    rw [positive]

theorem HeapInvariant.held_iff {heap : Heap} {live : List Object} (invariant : HeapInvariant heap live)
    (pfn : Nat) : (pfn, 0) ∈ heap.runs ↔ ∃ object ∈ live, virtToPage object.address = pfn := by
  have page := invariant pfn
  have held := page.held 0
  have objects : (∃ object ∈ live, virtToPage object.address = pfn) ↔ objectsOn live pfn ≠ [] := by
    constructor
    · rintro ⟨object, isLive, here⟩
      exact List.ne_nil_of_mem (mem_objectsOn.mpr ⟨isLive, here⟩)
    · intro some
      rcases List.exists_mem_of_ne_nil _ some with ⟨object, member⟩
      exact ⟨object, mem_objectsOn.mp member⟩
  rw [objects, ← List.count_pos_iff, held]
  cases slab : (heap.page pfn).slab with
  | false => simp [(page.other slab).1]
  | true =>
      rcases (page.slob slab).2 with ⟨list, blocks, slobPage⟩
      simp [slobPage.used]

theorem HeapInvariant.runs_nodup {heap : Heap} {live : List Object}
    (invariant : HeapInvariant heap live) :
    heap.runs.Nodup ∧ ∀ run ∈ heap.runs, run.2 = 0 := by
  constructor
  · apply List.nodup_iff_count_le_one.mpr
    intro run
    rw [(invariant run.1).held run.2]
    split <;> simp
  · intro run member
    have counted := List.count_pos_iff.mpr member
    rw [(invariant run.1).held run.2] at counted
    split at counted
    · next holds => exact holds.2
    · cases counted

theorem HeapInvariant.goes_back {machine next : Machine}
    (invariant : HeapInvariant machine.heap machine.live)
    (invariant' : HeapInvariant next.heap next.live) {call : Call}
    (taken : machine.step call = some next) {pfn : Nat} (held : (pfn, 0) ∈ machine.heap.runs) :
    (pfn, 0) ∉ next.heap.runs ↔ ∃ object, call = .free object ∧ virtToPage object.address = pfn ∧
      ∀ other ∈ next.live, virtToPage other.address ≠ pfn := by
  rw [invariant'.held_iff]
  rcases (invariant.held_iff pfn).mp held with ⟨object, isLive, here⟩
  constructor
  · intro gone
    have none : ∀ other ∈ next.live, virtToPage other.address ≠ pfn := fun other member here =>
      gone ⟨other, member, here⟩
    cases call with
    | alloc size align zero answer =>
        have kept : object ∈ next.live := by
          rcases Option.bind_eq_some_iff.mp taken with ⟨⟨b, heap⟩, -, returned⟩
          cases b with
          | none =>
              cases returned
              exact isLive
          | some b =>
              cases returned
              exact List.mem_cons_of_mem _ isLive
        exact absurd here (none object kept)
    | free freed =>
        refine ⟨freed, rfl, ?_, none⟩
        rcases Option.bind_eq_some_iff.mp taken with ⟨heap, -, returned⟩
        cases returned
        by_cases same : object = freed
        · exact same ▸ here
        · exact absurd here (none object ((List.mem_erase_of_ne same).mpr isLive))
    | store address value =>
        cases taken
        exact absurd here (none object isLive)
  · rintro ⟨freed, -, -, none⟩ ⟨other, member, here'⟩
    exact none other member here'

/-- Whatever calls were made: every page of the allocator is well formed, the objects are
on pages of the allocator, no other page is listed, and every call that may come next
returns, where a page goes back exactly when its last object is freed. -/
theorem heap_wellFormed {machine : Machine} (reachable : Reachable machine) :
    (∀ pfn, (machine.heap.page pfn).slab = true → ∃ blocks, WellFormed machine pfn blocks) ∧
    (∀ pfn, (machine.heap.page pfn).slab = true ↔ (pfn, 0) ∈ machine.heap.runs) ∧
    (∀ object ∈ machine.live, (virtToPage object.address, 0) ∈ machine.heap.runs) ∧
    (∀ pfn list, pfn ∈ machine.heap.free list → (pfn, 0) ∈ machine.heap.runs) ∧
    ∀ call, call.Legal machine → ∃ next, machine.step call = some next ∧
      ∀ pfn, (pfn, 0) ∈ machine.heap.runs →
        ((pfn, 0) ∉ next.heap.runs ↔ ∃ object, call = .free object ∧
          virtToPage object.address = pfn ∧
          ∀ other ∈ next.live, virtToPage other.address ≠ pfn) := by
  have invariant := reachable.invariant
  have slabIff (pfn : Nat) :
      (machine.heap.page pfn).slab = true ↔ (pfn, 0) ∈ machine.heap.runs := by
    rw [← List.count_pos_iff, (invariant pfn).held]
    cases (machine.heap.page pfn).slab <;> simp
  refine ⟨fun pfn slab => ?_, slabIff, fun object member => ?_, fun pfn list member => ?_,
    fun call legal => ?_⟩
  · rcases ((invariant pfn).slob slab).2 with ⟨list, blocks, slobPage⟩
    exact ⟨_, slobPage.wellFormed⟩
  · exact (invariant.held_iff _).mpr ⟨object, member, rfl⟩
  · exact (slabIff pfn).mp (invariant.listed member).1
  · rcases invariant.step legal with ⟨next, taken, invariant'⟩
    exact ⟨next, taken, fun pfn held => invariant.goes_back invariant' taken held⟩

/-- Before the first call, with zeros in memory. -/
def blank : Machine := Machine.start true (fun _ => 0) fun _ => ⟨0, 0, false, false⟩

theorem legal_blank {size align : Nat} (positive : 1 ≤ size) (bound : size ≤ 4095)
    (valid : ValidAlign align) : (Call.alloc size align false (some 1)).Legal blank := by
  refine ⟨positive, bound, valid, ?_⟩
  rintro pfn ⟨⟩
  exact ⟨by decide, fun run member => absurd member List.not_mem_nil⟩

/-- A first object of 100 bytes, aligned to 8, on page 1. -/
def oneObject : Machine :=
  (blank.step (.alloc 100 8 false (some 1))).get (by decide)

theorem oneObject_reachable : Reachable oneObject :=
  (Reachable.start _ _ _).step _ (legal_blank (by decide) (by decide) (.inr ⟨3, by decide, rfl⟩))
    (Option.some_get _).symm

def Machine.next (machine : Machine) (call : Call) : Machine := (machine.step call).getD machine

theorem Reachable.next {machine : Machine} (reachable : Reachable machine) (call : Call)
    (legal : call.Legal machine) : Reachable (machine.next call) := by
  rcases reachable.invariant.step legal with ⟨next, taken, -⟩
  unfold Machine.next
  rw [taken]
  exact reachable.step call legal taken

/-- A page with objects of 2, 8, 6, 8 and 2 bytes, of which the second and the fourth have
been freed. -/
def fragmented : Machine :=
  [.alloc 2 0 false (some 1), .alloc 8 0 false none, .alloc 6 0 false none,
    .alloc 8 0 false none, .alloc 2 0 false none, .free ⟨2049, 8⟩, .free ⟨2056, 8⟩].foldl
    Machine.next blank

theorem fragmented_reachable : Reachable fragmented := by
  unfold fragmented
  simp only [List.foldl_cons, List.foldl_nil]
  have first := (Reachable.start _ _ _).next (.alloc 2 0 false (some 1))
    (legal_blank (by decide) (by decide) (.inl rfl))
  have second := first.next (.alloc 8 0 false none) ⟨by decide, by decide, .inl rfl, nofun⟩
  have third := second.next (.alloc 6 0 false none) ⟨by decide, by decide, .inl rfl, nofun⟩
  have fourth := third.next (.alloc 8 0 false none) ⟨by decide, by decide, .inl rfl, nofun⟩
  have fifth := fourth.next (.alloc 2 0 false none) ⟨by decide, by decide, .inl rfl, nofun⟩
  apply Reachable.next (Reachable.next fifth _ ?_)
  · unfold Call.Legal
    decide +kernel
  · unfold Call.Legal
    decide +kernel

/-- The same, and a second page with an object of 300 bytes. -/
def mixed : Machine := fragmented.next (.alloc 300 0 false (some 2))

theorem mixed_reachable : Reachable mixed := by
  refine fragmented_reachable.next _ ⟨by decide, by decide, .inl rfl, ?_⟩
  rintro pfn ⟨⟩
  unfold FreshPage
  decide +kernel

/-- There are free blocks between the objects of the first page, and the second page goes back
with its object. -/
theorem heap_wellFormed_mixed :
    mixed.live = [⟨4096, 300⟩, ⟨2060, 2⟩, ⟨2053, 6⟩, ⟨2048, 2⟩] ∧
    freeList mixed.heap 1 = some [⟨2049, 4⟩, ⟨2056, 4⟩, ⟨2061, 2035⟩] ∧
    (∃ blocks, WellFormed mixed 1 blocks) ∧ (∃ blocks, WellFormed mixed 2 blocks) ∧
    ∃ next, mixed.step (.free ⟨4096, 300⟩) = some next ∧ (2, 0) ∉ next.heap.runs ∧
      (1, 0) ∈ next.heap.runs := by
  rcases heap_wellFormed mixed_reachable with ⟨wellFormed, -, -, -, calls⟩
  have live : mixed.live = [⟨4096, 300⟩, ⟨2060, 2⟩, ⟨2053, 6⟩, ⟨2048, 2⟩] := by decide +kernel
  have legal : (Call.free ⟨4096, 300⟩).Legal mixed := by
    unfold Call.Legal
    rw [live]
    exact List.mem_cons_self
  have left : (mixed.step (.free ⟨4096, 300⟩)).any (fun next =>
      next.live = [⟨2060, 2⟩, ⟨2053, 6⟩, ⟨2048, 2⟩]) = true := by
    decide +kernel
  rcases calls _ legal with ⟨next, taken, returns⟩
  rw [taken, Option.any_some, decide_eq_true_eq] at left
  refine ⟨live, by decide +kernel, wellFormed 1 (by decide +kernel), wellFormed 2 (by decide +kernel),
    next, taken, ?_, ?_⟩
  · apply (returns 2 (by decide +kernel)).mpr
    rw [left]
    exact ⟨⟨4096, 300⟩, rfl, by decide, by decide⟩
  · by_contra gone
    rcases (returns 1 (by decide +kernel)).mp gone with ⟨object, isFreed, onPage, -⟩
    cases isFreed
    exact absurd onPage (by decide)

end CE321.Slob
