import CE321.Slob.Agreement
import CE321.Slob.PageRuns

/-! # What the callers of `kmalloc` and of the caches have

A block is served by an object of `slob_alloc` or by a page run. Here is what holds of all
blocks that callers have, and of the objects that wait for their RCU callback, after any
legal calls.
-/

namespace CE321.Slob

/-- `ksize`. The block of `kfree` is found again by the size in front of it. -/
def ksize (minAlign : Nat) (heap : Heap) (block : Nat) : Option Nat :=
  if block = 0 then none
  else if block = zeroSizePtr then some 0
  else
    let sp := virtToPage block
    if (heap.page sp).slab then some (unitsOf (readHeader heap.mem (block - minAlign / 2)) * 2)
    else some (pageSize * 2 ^ compoundOrder heap sp)

/-- The object that serves a block, with the size in front of a block of `kmalloc`. -/
def Allocated.object (minAlign : Nat) : Allocated → Option Object
  | .kmalloc block size =>
      if size ≠ 0 ∧ size < pageSize - minAlign then
        some ⟨block - minAlign / 2, size + minAlign⟩
      else none
  | .cache c b => if c.size < pageSize then some ⟨b, c.size⟩ else none

/-- The page run that serves a block. -/
def Allocated.pageRun (minAlign : Nat) : Allocated → Option (Nat × Nat)
  | .kmalloc block size =>
      if size < pageSize - minAlign then none else some (virtToPage block, getOrder size)
  | .cache c b => if c.size < pageSize then none else some (virtToPage b, getOrder c.size)

def Allocated.Space (minAlign : Nat) (allocated : Allocated) (address : Nat) : Prop :=
  (∃ object, allocated.object minAlign = some object ∧ object.Holds address) ∨
    ∃ run, allocated.pageRun minAlign = some run ∧ InRun run address

/-- Where a block lies, and the size in front of it. -/
def Allocated.Placed (minAlign : Nat) (heap : Heap) : Allocated → Prop
  | .kmalloc block size =>
      if size = 0 then block = zeroSizePtr
      else if size < pageSize - minAlign then
        minAlign / 2 ≤ block ∧ minAlign ∣ 2 * block ∧
          readHeader heap.mem (block - minAlign / 2) = size
      else pageUnits ∣ block
  | .cache c b => (c.align = 0 ∨ c.align ∣ 2 * b) ∧ (c.size < pageSize ∨ pageUnits ∣ b)

/-- The blocks of the callers, and the objects that wait for their callback. -/
def Kernel.held (kernel : Kernel) : List Allocated :=
  kernel.live ++ kernel.deferred.map fun (b, size) => .cache ⟨size, 0, true⟩ b

/-- The blocks make up what the heap has given out. -/
structure CallersInvariant (minAlign : Nat) (heap : Heap) (held : List Allocated) : Prop where
  mixed : MixedInvariant heap (held.filterMap (Allocated.object minAlign))
    (held.filterMap (Allocated.pageRun minAlign))
  placed : ∀ allocated ∈ held, allocated.Placed minAlign heap

/-- The alignments that an architecture may ask `kmalloc` for: the size fits in front of a
block. -/
structure ValidMinAlign (minAlign : Nat) : Prop where
  valid : ValidAlign minAlign
  room : 4 ≤ minAlign
  small : minAlign < pageSize

section

variable {minAlign : Nat} {heap heap' : Heap} {held held' : List Allocated}

theorem ValidMinAlign.even (valid : ValidMinAlign minAlign) : 2 * (minAlign / 2) = minAlign := by
  have room := valid.room
  rcases valid.valid with zero | ⟨k, -, rfl⟩
  · omega
  · cases k with
    | zero => omega
    | succ k => omega

theorem ValidAlign.dvd_page {align b : Nat} (valid : ValidAlign align) (page : pageUnits ∣ b) :
    align = 0 ∨ align ∣ 2 * b := by
  rcases page with ⟨pfn, rfl⟩
  by_cases zero : align = 0
  · exact .inl zero
  · have aligned := valid.aligned zero (pageUnits * pfn)
    rw [valid.alignDelta_page, Nat.add_zero] at aligned
    exact .inr aligned

theorem ValidMinAlign.unitsOf (valid : ValidMinAlign minAlign) (size : Nat) :
    Slob.unitsOf (size + minAlign) = Slob.unitsOf size + minAlign / 2 := by
  have even := valid.even
  unfold Slob.unitsOf
  omega

theorem size_le_order {size : Nat} : size ≤ pageSize * 2 ^ getOrder size := by
  have bound : (size - 1) / pageSize < 2 ^ getOrder size := Nat.lt_size_self _
  unfold pageSize at *
  omega

theorem inRun_block {block size address : Nat} (aligned : pageUnits ∣ block) (from' : block ≤ address)
    (upTo : address < block + pageSize * 2 ^ getOrder size / 2) :
    InRun (virtToPage block, getOrder size) address := by
  rcases aligned with ⟨pfn, rfl⟩
  unfold InRun
  simp only [virtToPage_page]
  generalize 2 ^ getOrder size = pages at *
  unfold virtToPage pageUnits pageSize at *
  omega

theorem Allocated.object_or_run (allocated : Allocated) :
    allocated.object minAlign = none ∨ allocated.pageRun minAlign = none := by
  cases allocated with
  | kmalloc block size =>
      by_cases small : size < pageSize - minAlign
      · exact .inr (if_pos small)
      · exact .inl (if_neg fun both => small both.2)
  | cache c b =>
      by_cases small : c.size < pageSize
      · exact .inr (if_pos small)
      · exact .inl (if_neg small)

theorem owned_iff {address : Nat} : Owned (held.filterMap (Allocated.object minAlign))
    (held.filterMap (Allocated.pageRun minAlign)) address ↔
      ∃ allocated ∈ held, allocated.Space minAlign address := by
  unfold Owned Allocated.Space
  simp only [List.mem_filterMap]
  constructor
  · rintro (⟨object, ⟨allocated, member, isObject⟩, holds⟩ | ⟨run, ⟨allocated, member, isRun⟩, inRun⟩)
    · exact ⟨allocated, member, .inl ⟨object, isObject, holds⟩⟩
    · exact ⟨allocated, member, .inr ⟨run, isRun, inRun⟩⟩
  · rintro ⟨allocated, member, ⟨object, isObject, holds⟩ | ⟨run, isRun, inRun⟩⟩
    · exact .inl ⟨object, ⟨allocated, member, isObject⟩, holds⟩
    · exact .inr ⟨run, ⟨allocated, member, isRun⟩, inRun⟩

theorem CallersInvariant.perm (callers : CallersInvariant minAlign heap held)
    (same : held.Perm held') : CallersInvariant minAlign heap held' :=
  ⟨callers.mixed.perm (same.filterMap _) (same.filterMap _),
    fun allocated member => callers.placed allocated (same.mem_iff.mpr member)⟩

theorem CallersInvariant.drop {allocated : Allocated}
    (callers : CallersInvariant minAlign heap (allocated :: held))
    (noObject : allocated.object minAlign = none) (noRun : allocated.pageRun minAlign = none) :
    CallersInvariant minAlign heap held := by
  refine ⟨?_, fun other member => callers.placed other (List.mem_cons_of_mem _ member)⟩
  have mixed := callers.mixed
  rwa [List.filterMap_cons_none noObject, List.filterMap_cons_none noRun] at mixed

/-! ## Blocks are apart -/

theorem MixedInvariant.object_apart {object : Object} {objects : List Object}
    {large : List (Nat × Nat)} (mixed : MixedInvariant heap (object :: objects) large) {address : Nat}
    (holds : object.Holds address) : ¬Owned objects large address := by
  rcases mixed.split with ⟨single, -, invariant⟩
  rintro (⟨other, member, otherHolds⟩ | ⟨run, member, from', upTo⟩)
  · exact invariant.apart member holds otherHolds
  · have slab := invariant.slab (invariant.holds_page List.mem_cons_self holds).1
    have notSlab := mixed.notSlab member from' upTo
    exact absurd (slab.symm.trans notSlab) (by decide)

theorem MixedInvariant.run_apart {run : Nat × Nat} {objects : List Object}
    {large : List (Nat × Nat)} (mixed : MixedInvariant heap objects (run :: large)) {address : Nat}
    (inRun : InRun run address) : ¬Owned objects large address := by
  rcases mixed.split with ⟨single, runs, invariant⟩
  rintro (⟨object, member, holds⟩ | ⟨other, member, from', upTo⟩)
  · have slab := invariant.slab (invariant.holds_page member holds).1
    have notSlab := mixed.notSlab List.mem_cons_self inRun.1 inRun.2
    exact absurd (slab.symm.trans notSlab) (by decide)
  · have apart := runs.pairwise mixed.apart Or.symm
    have disjoint := (List.pairwise_cons.mp (List.pairwise_append.mp apart).2.1).1 other member
    unfold InRun at inRun
    unfold RunsApart at disjoint
    omega

theorem CallersInvariant.apart {allocated other : Allocated}
    (callers : CallersInvariant minAlign heap (allocated :: held)) (member : other ∈ held)
    {address : Nat} (space : allocated.Space minAlign address) : ¬other.Space minAlign address := by
  intro otherSpace
  have owned := owned_iff.mpr ⟨other, member, otherSpace⟩
  have mixed := callers.mixed
  rcases space with ⟨object, isObject, holds⟩ | ⟨run, isRun, inRun⟩
  · have noRun : allocated.pageRun minAlign = none := by
      apply (allocated.object_or_run).resolve_left
      rw [isObject]
      exact Option.some_ne_none object
    rw [List.filterMap_cons_some isObject, List.filterMap_cons_none noRun] at mixed
    exact mixed.object_apart holds owned
  · have noObject : allocated.object minAlign = none := by
      apply (allocated.object_or_run).resolve_right
      rw [isRun]
      exact Option.some_ne_none run
    rw [List.filterMap_cons_none noObject, List.filterMap_cons_some isRun] at mixed
    exact mixed.run_apart inRun owned

theorem Allocated.Placed.space (valid : ValidMinAlign minAlign) {allocated : Allocated}
    (placed : allocated.Placed minAlign heap) {address : Nat} (holds : allocated.Holds address) :
    allocated.Space minAlign address := by
  cases allocated with
  | kmalloc block size =>
      rcases holds with ⟨from', upTo⟩
      simp only [Allocated.Placed] at placed
      split at placed
      · next zero =>
          unfold unitsOf at upTo
          omega
      · next notZero =>
          split at placed
          · next small =>
              refine .inl ⟨_, if_pos ⟨notZero, small⟩, ?_⟩
              unfold Object.Holds
              simp only [valid.unitsOf]
              omega
          · next large =>
              refine .inr ⟨_, if_neg large, inRun_block placed from' ?_⟩
              have bound := @size_le_order size
              unfold unitsOf at upTo
              unfold pageSize at *
              omega
  | cache c b =>
      rcases holds with ⟨from', upTo⟩
      by_cases small : c.size < pageSize
      · exact .inl ⟨_, if_pos small, from', upTo⟩
      · refine .inr ⟨_, if_neg small, inRun_block (placed.2.resolve_left small) from' ?_⟩
        have bound := @size_le_order c.size
        unfold unitsOf at upTo
        unfold pageSize at *
        omega

/-- The two units with the size in front of a block of `kmalloc`. -/
def Allocated.Header (minAlign : Nat) : Allocated → (address : Nat) → Prop
  | .kmalloc block size, address => (size ≠ 0 ∧ size < pageSize - minAlign) ∧
      (address = block - minAlign / 2 ∨ address = block - minAlign / 2 + 1)
  | .cache _ _, _ => False

theorem Allocated.Header.object (valid : ValidMinAlign minAlign) {allocated : Allocated}
    {address : Nat} (header : allocated.Header minAlign address) :
    ∃ object, allocated.object minAlign = some object ∧ object.Holds address := by
  cases allocated with
  | kmalloc block size =>
      rcases header with ⟨small, isHeader⟩
      have room := valid.room
      have units := valid.unitsOf size
      refine ⟨_, if_pos small, ?_⟩
      unfold Object.Holds
      simp only
      omega
  | cache c b => cases header

theorem Allocated.Header.notHolds (valid : ValidMinAlign minAlign) {allocated : Allocated}
    {address : Nat} (header : allocated.Header minAlign address)
    (placed : allocated.Placed minAlign heap) : ¬allocated.Holds address := by
  cases allocated with
  | kmalloc block size =>
      rcases header with ⟨⟨notEmpty, small⟩, isHeader⟩
      simp only [Allocated.Placed] at placed
      rw [if_neg notEmpty, if_pos small] at placed
      have room := valid.room
      rintro ⟨from', -⟩
      omega
  | cache c b => cases header

theorem Allocated.Placed.kept {allocated : Allocated} (placed : allocated.Placed minAlign heap)
    (same : ∀ address, allocated.Header minAlign address → heap'.mem address = heap.mem address) :
    allocated.Placed minAlign heap' := by
  cases allocated with
  | kmalloc block size =>
      simp only [Allocated.Placed] at placed ⊢
      split
      · next zero =>
          rw [if_pos zero] at placed
          exact placed
      · next notZero =>
          rw [if_neg notZero] at placed
          split
          · next small =>
              rw [if_pos small] at placed
              refine ⟨placed.1, placed.2.1, placed.2.2 ▸ ?_⟩
              have first := same _ ⟨⟨notZero, small⟩, .inl rfl⟩
              have second := same _ ⟨⟨notZero, small⟩, .inr rfl⟩
              unfold readHeader
              rw [first, second]
          · next large =>
              rw [if_neg large] at placed
              exact placed
  | cache c b => exact placed

/-! ## The functions of the front end -/

/-- The words of all blocks stay. -/
def Keeps (minAlign : Nat) (held : List Allocated) (heap heap' : Heap) : Prop :=
  ∀ allocated ∈ held, ∀ address, allocated.Space minAlign address →
    heap'.mem address = heap.mem address

theorem Allocated.Placed.keeps (valid : ValidMinAlign minAlign) {allocated : Allocated}
    (placed : allocated.Placed minAlign heap) (kept : Keeps minAlign held heap heap')
    (member : allocated ∈ held) : allocated.Placed minAlign heap' :=
  placed.kept fun address header => kept allocated member address (.inl (header.object valid))

theorem CallersInvariant.keeps (valid : ValidMinAlign minAlign)
    (callers : CallersInvariant minAlign heap held)
    (mixed : MixedInvariant heap' (held.filterMap (Allocated.object minAlign))
      (held.filterMap (Allocated.pageRun minAlign)))
    (kept : Keeps minAlign held heap heap') : CallersInvariant minAlign heap' held :=
  ⟨mixed, fun allocated member => (callers.placed allocated member).keeps valid kept member⟩

theorem CallersInvariant.grow (valid : ValidMinAlign minAlign)
    (callers : CallersInvariant minAlign heap held) {allocated : Allocated}
    (mixed : MixedInvariant heap' ((allocated :: held).filterMap (Allocated.object minAlign))
      ((allocated :: held).filterMap (Allocated.pageRun minAlign)))
    (kept : Keeps minAlign held heap heap') (placed : allocated.Placed minAlign heap') :
    CallersInvariant minAlign heap' (allocated :: held) := by
  refine ⟨mixed, fun other member => ?_⟩
  rcases List.mem_cons.mp member with rfl | old
  · exact placed
  · exact (callers.placed other old).keeps valid kept old

theorem readHeader_writeHeader (mem : Nat → Int) (m : Nat) {size : Nat} (bound : size < 4294967296) :
    readHeader (writeHeader mem m size) m = size := by
  unfold readHeader writeHeader
  rw [Function.update_of_ne (by omega), Function.update_self, Function.update_self]
  omega

theorem writeHeader_same (mem : Nat → Int) {m address size : Nat}
    (away : address ≠ m ∧ address ≠ m + 1) : writeHeader mem m size address = mem address := by
  unfold writeHeader
  rw [Function.update_of_ne away.2, Function.update_of_ne away.1]

theorem CallersInvariant.newPages (callers : CallersInvariant minAlign heap held)
    (valid : ValidMinAlign minAlign) {order : Nat} {answer : Option Nat}
    (fresh : ∀ pfn, answer = some pfn → FreshRun heap order pfn) (block : Nat → Allocated)
    (noObject : ∀ b, (block b).object minAlign = none)
    (isRun : ∀ pfn, (block (pageUnits * pfn)).pageRun minAlign = some (pfn, order))
    (placed : ∀ pfn heap, (block (pageUnits * pfn)).Placed minAlign heap) :
    ∃ b heap', slobNewPages heap order answer = (b, heap') ∧
      CallersInvariant minAlign heap' (match b with
        | some b => block b :: held
        | none => held) ∧
      Keeps minAlign held heap heap' := by
  cases answer with
  | none => exact ⟨none, heap, rfl, callers, fun _ _ _ _ => rfl⟩
  | some pfn =>
      refine ⟨some (pageUnits * pfn), _, rfl, callers.grow valid ?_ (fun _ _ _ _ => rfl)
        (placed pfn _), fun _ _ _ _ => rfl⟩
      rw [List.filterMap_cons_none (noObject _), List.filterMap_cons_some (isRun pfn)]
      exact callers.mixed.newRun (fresh pfn rfl) _

theorem CallersInvariant.header (callers : CallersInvariant minAlign heap held)
    (valid : ValidMinAlign minAlign) {m size : Nat} (notEmpty : size ≠ 0)
    (small : size < pageSize - minAlign) (aligned : minAlign ∣ 2 * m)
    (mixed : MixedInvariant heap' (⟨m, size + minAlign⟩ :: held.filterMap (Allocated.object minAlign))
      (held.filterMap (Allocated.pageRun minAlign)))
    (keeps : Keeps minAlign held heap heap') :
    CallersInvariant minAlign { heap' with mem := writeHeader heap'.mem m size }
      (.kmalloc (m + minAlign / 2) size :: held) ∧
    Keeps minAlign held heap { heap' with mem := writeHeader heap'.mem m size } := by
  have room := valid.room
  have even := valid.even
  have units := valid.unitsOf size
  have header : ∀ address, address = m ∨ address = m + 1 →
      (⟨m, size + minAlign⟩ : Object).Holds address := by
    intro address isHeader
    unfold Object.Holds
    simp only
    omega
  have keeps' : Keeps minAlign held heap { heap' with mem := writeHeader heap'.mem m size } := by
    intro allocated member address space
    have owned := owned_iff.mpr ⟨allocated, member, space⟩
    rw [← keeps allocated member address space]
    apply writeHeader_same
    constructor
    · exact fun isFirst => mixed.object_apart (header address (.inl isFirst)) owned
    · exact fun isSecond => mixed.object_apart (header address (.inr isSecond)) owned
  refine ⟨callers.grow valid ?_ keeps' ?_, keeps'⟩
  · have isObject : (Allocated.kmalloc (m + minAlign / 2) size).object minAlign =
        some ⟨m, size + minAlign⟩ := by
      refine (if_pos ⟨notEmpty, small⟩).trans ?_
      rw [Nat.add_sub_cancel]
    have noRun : (Allocated.kmalloc (m + minAlign / 2) size).pageRun minAlign = none := if_pos small
    rw [List.filterMap_cons_some isObject, List.filterMap_cons_none noRun]
    apply mixed.store
    intro address changed
    right
    refine ⟨_, List.mem_cons_self, header address ?_⟩
    by_contra away
    exact changed (writeHeader_same _ (not_or.mp away))
  · have behind : 2 * (m + minAlign / 2) = 2 * m + minAlign := by omega
    simp only [Allocated.Placed]
    rw [if_neg notEmpty, if_pos small, behind, Nat.add_sub_cancel]
    exact ⟨by omega, dvd_add aligned dvd_rfl,
      readHeader_writeHeader _ _ (by unfold pageSize at *; omega)⟩

theorem CallersInvariant.kmalloc (callers : CallersInvariant minAlign heap held)
    (valid : ValidMinAlign minAlign) (size : Nat) (zero : Bool) {answer : Option Nat}
    (fresh : ∀ pfn, answer = some pfn → FreshRun heap (getOrder size) pfn) :
    ∃ block heap', Slob.kmalloc minAlign heap size zero answer = some (block, heap') ∧
      CallersInvariant minAlign heap' (match block with
        | some block => .kmalloc block size :: held
        | none => held) ∧
      Keeps minAlign held heap heap' := by
  have room := valid.room
  have alignSmall := valid.small
  unfold Slob.kmalloc
  by_cases small : size < pageSize - minAlign
  · rw [if_pos small]
    by_cases empty : size = 0
    · rw [if_pos empty]
      refine ⟨some zeroSizePtr, heap, rfl, callers.grow valid ?_ (fun _ _ _ _ => rfl) ?_,
        fun _ _ _ _ => rfl⟩
      · have noObject : (Allocated.kmalloc zeroSizePtr size).object minAlign = none :=
          if_neg fun both => both.1 empty
        have noRun : (Allocated.kmalloc zeroSizePtr size).pageRun minAlign = none := if_pos small
        rw [List.filterMap_cons_none noObject, List.filterMap_cons_none noRun]
        exact callers.mixed
      · simp only [Allocated.Placed, if_pos empty]
    · rw [if_neg empty]
      have order : getOrder size = 0 := by
        unfold getOrder
        rw [Nat.div_eq_of_lt (by omega)]
        rfl
      rw [order] at fresh
      rcases callers.mixed.slobAlloc (by omega : 0 < size + minAlign) (by omega) valid.valid zero
        fresh with ⟨m, heap', returned, mixed, kept⟩
      have keeps : Keeps minAlign held heap heap' := fun allocated member address space =>
        kept address (owned_iff.mpr ⟨allocated, member, space⟩)
      simp only [returned, Option.bind_eq_bind, Option.bind_some]
      cases m with
      | none => exact ⟨none, heap', rfl, callers.keeps valid mixed keeps, keeps⟩
      | some m =>
          have aligned := (slobAlloc_aligned valid.valid returned).resolve_left (by omega)
          exact ⟨some (m + minAlign / 2), _, rfl,
            callers.header valid empty small aligned mixed keeps⟩
  · rw [if_neg small]
    rcases callers.newPages valid fresh (Allocated.kmalloc · size)
      (fun _ => if_neg fun both => small both.2)
      (fun pfn => (if_neg small).trans (by rw [virtToPage_page])) (fun pfn _ => by
        simp only [Allocated.Placed]
        rw [if_neg (by omega), if_neg small]
        exact Dvd.intro pfn rfl) with ⟨b, heap', given, callers', keeps⟩
    rw [given]
    exact ⟨b, heap', rfl, callers', keeps⟩

theorem CallersInvariant.kmemCacheAlloc (callers : CallersInvariant minAlign heap held)
    (valid : ValidMinAlign minAlign) {c : KmemCache} (positive : 1 ≤ c.size)
    (validAlign : ValidAlign c.align) (zero : Bool) {answer : Option Nat}
    (fresh : ∀ pfn, answer = some pfn → FreshRun heap (getOrder c.size) pfn) :
    ∃ b heap', Slob.kmemCacheAlloc heap c zero answer = some (b, heap') ∧
      CallersInvariant minAlign heap' (match b with
        | some b => .cache c b :: held
        | none => held) ∧
      Keeps minAlign held heap heap' := by
  unfold Slob.kmemCacheAlloc
  by_cases small : c.size < pageSize
  · rw [if_pos small]
    have order : getOrder c.size = 0 := by
      unfold getOrder
      rw [Nat.div_eq_of_lt (by omega)]
      rfl
    rw [order] at fresh
    rcases callers.mixed.slobAlloc positive small.le validAlign zero fresh with
      ⟨b, heap', returned, mixed, kept⟩
    have keeps : Keeps minAlign held heap heap' := fun allocated member address space =>
      kept address (owned_iff.mpr ⟨allocated, member, space⟩)
    refine ⟨b, heap', returned, ?_, keeps⟩
    cases b with
    | none => exact callers.keeps valid mixed keeps
    | some b =>
        apply callers.grow valid _ keeps
        · exact ⟨slobAlloc_aligned validAlign returned, .inl small⟩
        · have isObject : (Allocated.cache c b).object minAlign = some ⟨b, c.size⟩ := if_pos small
          have noRun : (Allocated.cache c b).pageRun minAlign = none := if_pos small
          rw [List.filterMap_cons_some isObject, List.filterMap_cons_none noRun]
          exact mixed
  · rw [if_neg small]
    rcases callers.newPages valid fresh (Allocated.cache c) (fun _ => if_neg small)
      (fun pfn => (if_neg small).trans (by rw [virtToPage_page]))
      (fun pfn _ => ⟨validAlign.dvd_page (Dvd.intro pfn rfl), .inr (Dvd.intro pfn rfl)⟩) with
      ⟨b, heap', given, callers', keeps⟩
    rw [given]
    exact ⟨b, heap', rfl, callers', keeps⟩

theorem CallersInvariant.page_positive (callers : CallersInvariant minAlign heap held)
    {allocated : Allocated} (member : allocated ∈ held) {address : Nat}
    (space : allocated.Space minAlign address) : 0 < virtToPage address := by
  rcases callers.mixed.split with ⟨single, runs, invariant⟩
  rcases owned_iff.mpr ⟨allocated, member, space⟩ with ⟨object, isObject, holds⟩ | ⟨run, isRun, inRun⟩
  · have slab := invariant.slab (invariant.holds_page isObject holds).1
    exact ((invariant _).slob slab).1
  · have positive := callers.mixed.positive run (runs.mem_iff.mpr (List.mem_append_right single isRun))
    unfold InRun at inRun
    omega

theorem Allocated.holds_block {block size : Nat} (notEmpty : size ≠ 0) :
    (Allocated.kmalloc block size).Holds block := by
  refine ⟨le_rfl, ?_⟩
  unfold unitsOf
  omega

theorem CallersInvariant.notNull (callers : CallersInvariant minAlign heap held)
    (valid : ValidMinAlign minAlign) {block size : Nat} (member : .kmalloc block size ∈ held)
    (notEmpty : size ≠ 0) : zeroOrNullPtr block = false := by
  have positive := callers.page_positive member
    ((callers.placed _ member).space valid (Allocated.holds_block notEmpty))
  unfold zeroOrNullPtr
  unfold virtToPage pageUnits at positive
  rw [decide_eq_false_iff_not]
  omega

theorem CallersInvariant.small (callers : CallersInvariant minAlign heap held)
    (valid : ValidMinAlign minAlign) {block size : Nat} (member : .kmalloc block size ∈ held)
    (notEmpty : size ≠ 0) (small : size < pageSize - minAlign) :
    (heap.page (virtToPage block)).slab = true ∧
      readHeader heap.mem (block - minAlign / 2) = size := by
  have placed := callers.placed _ member
  rcases callers.mixed.split with ⟨single, -, invariant⟩
  rcases placed.space valid (Allocated.holds_block notEmpty) with
    ⟨object, isObject, holds⟩ | ⟨run, isRun, -⟩
  · have isIn : object ∈ held.filterMap (Allocated.object minAlign) :=
      List.mem_filterMap.mpr ⟨_, member, isObject⟩
    simp only [Allocated.Placed] at placed
    rw [if_neg notEmpty, if_pos small] at placed
    exact ⟨invariant.slab (invariant.holds_page isIn holds).1, placed.2.2⟩
  · have none : (Allocated.kmalloc block size).pageRun minAlign = none := if_pos small
    rw [none] at isRun
    cases isRun

theorem CallersInvariant.large (callers : CallersInvariant minAlign heap held)
    {allocated : Allocated} (member : allocated ∈ held) {pfn order : Nat}
    (isRun : allocated.pageRun minAlign = some (pfn, order)) :
    (heap.page pfn).slab = false ∧ compoundOrder heap pfn = order := by
  have isIn : (pfn, order) ∈ held.filterMap (Allocated.pageRun minAlign) :=
    List.mem_filterMap.mpr ⟨_, member, isRun⟩
  rcases callers.mixed.split with ⟨single, runs, -⟩
  have positive := Nat.two_pow_pos order
  exact ⟨callers.mixed.notSlab isIn le_rfl (by simp only; omega),
    callers.mixed.compoundOrder (runs.mem_iff.mpr (List.mem_append_right single isIn))⟩

theorem CallersInvariant.slobFree {allocated : Allocated} {object : Object}
    (callers : CallersInvariant minAlign heap (allocated :: held)) (valid : ValidMinAlign minAlign)
    (isObject : allocated.object minAlign = some object) :
    ∃ heap', Slob.slobFree heap object.address object.size = some heap' ∧
      CallersInvariant minAlign heap' held ∧ Keeps minAlign held heap heap' := by
  have noRun : allocated.pageRun minAlign = none := by
    apply (allocated.object_or_run).resolve_left
    rw [isObject]
    exact Option.some_ne_none object
  have mixed := callers.mixed
  rw [List.filterMap_cons_some isObject, List.filterMap_cons_none noRun] at mixed
  rcases mixed.slobFree with ⟨heap', returned, mixed', kept⟩
  have keeps : Keeps minAlign held heap heap' := fun other member address space =>
    kept address (owned_iff.mpr ⟨other, member, space⟩)
  refine ⟨heap', returned, ⟨mixed', fun other member => ?_⟩, keeps⟩
  exact (callers.placed other (List.mem_cons_of_mem _ member)).keeps valid keeps member

theorem CallersInvariant.eraseRun {allocated : Allocated} {run : Nat × Nat}
    (callers : CallersInvariant minAlign heap (allocated :: held))
    (isRun : allocated.pageRun minAlign = some run) (memoryAlloc : Int) :
    CallersInvariant minAlign { heap with
      memoryAlloc := memoryAlloc, runs := heap.runs.erase run } held := by
  have noObject : allocated.object minAlign = none := by
    apply (allocated.object_or_run).resolve_right
    rw [isRun]
    exact Option.some_ne_none run
  have mixed := callers.mixed
  rw [List.filterMap_cons_none noObject, List.filterMap_cons_some isRun] at mixed
  refine ⟨mixed.eraseRun memoryAlloc, fun other member => ?_⟩
  exact (callers.placed other (List.mem_cons_of_mem _ member)).kept fun _ _ => rfl

theorem CallersInvariant.kfree {block size : Nat}
    (callers : CallersInvariant minAlign heap (.kmalloc block size :: held))
    (valid : ValidMinAlign minAlign) (notEmpty : size ≠ 0) :
    ∃ heap', Slob.kfree minAlign heap block = some heap' ∧ CallersInvariant minAlign heap' held ∧
      Keeps minAlign held heap heap' := by
  unfold Slob.kfree
  rw [callers.notNull valid List.mem_cons_self notEmpty, if_neg (by decide)]
  by_cases small : size < pageSize - minAlign
  · rcases callers.small valid List.mem_cons_self notEmpty small with ⟨slab, header⟩
    simp only [slab, if_true, header]
    exact callers.slobFree valid (if_pos ⟨notEmpty, small⟩)
  · have isRun : (Allocated.kmalloc block size).pageRun minAlign =
        some (virtToPage block, getOrder size) := if_neg small
    rcases callers.large List.mem_cons_self isRun with ⟨notSlab, order⟩
    simp only [notSlab, Bool.false_eq_true, if_false, order]
    exact ⟨_, rfl, callers.eraseRun isRun heap.memoryAlloc, fun _ _ _ _ => rfl⟩

theorem CallersInvariant.kmemCacheRelease {c : KmemCache} {b : Nat}
    (callers : CallersInvariant minAlign heap (.cache c b :: held)) (valid : ValidMinAlign minAlign) :
    ∃ heap', Slob.kmemCacheRelease heap b c.size = some heap' ∧
      CallersInvariant minAlign heap' held ∧ Keeps minAlign held heap heap' := by
  unfold Slob.kmemCacheRelease
  by_cases small : c.size < pageSize
  · rw [if_pos small]
    exact callers.slobFree valid (if_pos small)
  · rw [if_neg small]
    exact ⟨_, rfl, callers.eraseRun (if_neg small) _, fun _ _ _ _ => rfl⟩

end

end CE321.Slob
