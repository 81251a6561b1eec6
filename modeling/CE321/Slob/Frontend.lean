import CE321.Slob.Runs

/-! # `kmalloc` and the caches

The front end of `slob.c` and the counter of allocated memory. `minAlign` is the larger
of `ARCH_KMALLOC_MINALIGN` and `ARCH_SLAB_MINALIGN`, in bytes.
-/

namespace CE321.Slob

/-- `ZERO_SIZE_PTR`, the byte address 16. -/
def zeroSizePtr : Nat := 8

/-- `get_order(size)`, for a size that is not zero. -/
def getOrder (size : Nat) : Nat := Nat.size ((size - 1) / pageSize)

/-- `*m = size`, in the two units in front of the object. -/
def writeHeader (mem : Nat → Int) (m size : Nat) : Nat → Int :=
  Function.update (Function.update mem m (size % 65536)) (m + 1) (size / 65536)

/-- `*m`. -/
def readHeader (mem : Nat → Int) (m : Nat) : Nat :=
  (mem m % 65536 + 65536 * (mem (m + 1) % 65536)).toNat

/-- `__do_kmalloc_node`. -/
def kmalloc (minAlign : Nat) (heap : Heap) (size : Nat) (zero : Bool) (answer : Option Nat) :
    Option (Option Nat × Heap) :=
  if size < pageSize - minAlign then
    if size = 0 then some (some zeroSizePtr, heap)
    else do
      let (m, heap) ← slobAlloc heap (size + minAlign) minAlign zero answer
      match m with
      | none => pure (none, heap)
      | some m => pure (some (m + minAlign / 2), { heap with mem := writeHeader heap.mem m size })
  else some (slobNewPages heap (getOrder size) answer)

/-- `compound_order`: the order of the run that starts at a page, 0 for a single page. -/
def compoundOrder (heap : Heap) (pfn : Nat) : Nat :=
  ((heap.runs.find? fun run => run.1 == pfn).map Prod.snd).getD 0

def kfree (minAlign : Nat) (heap : Heap) (block : Nat) : Option Heap :=
  if zeroOrNullPtr block then some heap
  else
    let sp := virtToPage block
    if (heap.page sp).slab then
      let m := block - minAlign / 2
      slobFree heap m (readHeader heap.mem m + minAlign)
    else some { heap with runs := heap.runs.erase (sp, compoundOrder heap sp) }

/-- The fields of `struct kmem_cache` that allocating and freeing use. `rcu` is the flag
`SLAB_DESTROY_BY_RCU`; the size has room for the footer then. -/
structure KmemCache where
  size : Nat
  align : Nat
  rcu : Bool
  deriving DecidableEq

/-- `slob_alloc_node`. A constructor's writes are writes of the caller. -/
def kmemCacheAlloc (heap : Heap) (c : KmemCache) (zero : Bool) (answer : Option Nat) :
    Option (Option Nat × Heap) :=
  if c.size < pageSize then slobAlloc heap c.size c.align zero answer
  else some (slobNewPages heap (getOrder c.size) answer)

/-- `__kmem_cache_free`. -/
def kmemCacheRelease (heap : Heap) (b size : Nat) : Option Heap :=
  if size < pageSize then slobFree heap b size
  else some (slobFreePages heap b (getOrder size))

/-! ## Sequences of calls -/

/-- What a caller got, and the call that takes it back. -/
inductive Allocated where
  | kmalloc (block size : Nat)
  | cache (c : KmemCache) (b : Nat)
  deriving DecidableEq

/-- Whether the caller may write to an address. -/
def Allocated.Holds (address : Nat) : Allocated → Prop
  | .kmalloc block size => block ≤ address ∧ address < block + unitsOf size
  | .cache c b => b ≤ address ∧ address < b + unitsOf c.size

def Allocated.isKmalloc (block : Nat) : Allocated → Bool
  | .kmalloc other _ => other == block
  | .cache _ _ => false

/-- The heap, what the callers hold, and the objects and sizes that wait for their RCU
callback, which find them by the footer. -/
structure Kernel where
  heap : Heap
  live : List Allocated
  deferred : List (Nat × Nat)

def Kernel.start (wide : Bool) (mem : Nat → Int) (page : Nat → Page) : Kernel :=
  ⟨(Machine.start wide mem page).heap, [], []⟩

inductive KernelCall where
  | kmalloc (size : Nat) (zero : Bool) (answer : Option Nat)
  | kfree (block : Nat)
  | kmemCacheAlloc (c : KmemCache) (zero : Bool) (answer : Option Nat)
  | kmemCacheFree (c : KmemCache) (b : Nat)
  | rcuCallback (b size : Nat)
  | store (address : Nat) (value : Int)

/-- The page allocator gives runs that it has not given yet. -/
def FreshRun (heap : Heap) (order pfn : Nat) : Prop :=
  0 < pfn ∧ ∀ run ∈ heap.runs, pfn + 2 ^ order ≤ run.1 ∨ run.1 + 2 ^ run.2 ≤ pfn

/-- Every object is freed at most once, by the call that matches. -/
def KernelCall.Legal (kernel : Kernel) : KernelCall → Prop
  | .kmalloc size _ answer => ∀ pfn, answer = some pfn → FreshRun kernel.heap (getOrder size) pfn
  | .kfree block => zeroOrNullPtr block ∨ ∃ size, Allocated.kmalloc block size ∈ kernel.live
  | .kmemCacheAlloc c _ answer => 1 ≤ c.size ∧ ValidAlign c.align ∧
      ∀ pfn, answer = some pfn → FreshRun kernel.heap (getOrder c.size) pfn
  | .kmemCacheFree c b => Allocated.cache c b ∈ kernel.live
  | .rcuCallback b size => (b, size) ∈ kernel.deferred
  | .store address _ => (kernel.heap.page (virtToPage address)).slab = false ∨
      ∃ object ∈ kernel.live, object.Holds address

def Kernel.step (minAlign : Nat) (kernel : Kernel) : KernelCall → Option Kernel
  | .kmalloc size zero answer => do
      let (block, heap) ← Slob.kmalloc minAlign kernel.heap size zero answer
      match block with
      | some block => pure { kernel with heap := heap, live := .kmalloc block size :: kernel.live }
      | none => pure { kernel with heap := heap }
  | .kfree block => do
      let heap ← Slob.kfree minAlign kernel.heap block
      pure { kernel with heap := heap, live := kernel.live.eraseP (Allocated.isKmalloc block) }
  | .kmemCacheAlloc c zero answer => do
      let (b, heap) ← Slob.kmemCacheAlloc kernel.heap c zero answer
      match b with
      | some b => pure { kernel with heap := heap, live := .cache c b :: kernel.live }
      | none => pure { kernel with heap := heap }
  | .kmemCacheFree c b =>
      if c.rcu then some { kernel with
        live := kernel.live.erase (.cache c b), deferred := (b, c.size) :: kernel.deferred }
      else do
        let heap ← kmemCacheRelease kernel.heap b c.size
        pure { kernel with heap := heap, live := kernel.live.erase (.cache c b) }
  | .rcuCallback b size => do
      let heap ← kmemCacheRelease kernel.heap b size
      pure { kernel with heap := heap, deferred := kernel.deferred.erase (b, size) }
  | .store address value =>
      some { kernel with heap := { kernel.heap with
        mem := Function.update kernel.heap.mem address value } }

/-- A sequence of legal calls that return. -/
inductive KernelRun (minAlign : Nat) : Kernel → List KernelCall → Kernel → Prop
  | nil (kernel : Kernel) : KernelRun minAlign kernel [] kernel
  | cons {kernel next final : Kernel} {call : KernelCall} {calls : List KernelCall}
      (legal : call.Legal kernel) (taken : kernel.step minAlign call = some next)
      (rest : KernelRun minAlign next calls final) :
      KernelRun minAlign kernel (call :: calls) final

/-! ## The counter of allocated memory -/

/-- The bytes of the page runs that the page allocator gave and did not get back. -/
def runBytes (heap : Heap) : Int := (heap.runs.map fun run => (pageSize * 2 ^ run.2 : Int)).sum

/-- The call asks for memory, and the page allocator has a run of pages for it. -/
def KernelCall.Obtains : KernelCall → Prop
  | .kmalloc size _ answer => size ≠ 0 ∧ answer ≠ none
  | .kmemCacheAlloc _ _ answer => answer ≠ none
  | _ => False

/-- No page run was obtained yet. -/
structure Idle (kernel : Kernel) : Prop where
  invariant : HeapInvariant kernel.heap []
  runs : kernel.heap.runs = []
  memoryAlloc : kernel.heap.memoryAlloc = 0
  unlisted : ∀ list, kernel.heap.free list = []
  live : ∀ object ∈ kernel.live, ∃ size, object = .kmalloc zeroSizePtr size
  deferred : kernel.deferred = []

theorem Idle.start (wide : Bool) (mem : Nat → Int) (page : Nat → Page) :
    Idle (Kernel.start wide mem page) :=
  ⟨HeapInvariant.start wide mem page, rfl, rfl, fun _ => rfl, by simp [Kernel.start], rfl⟩

section

variable {minAlign : Nat} {kernel next : Kernel}

theorem Idle.slobAlloc_none (idle : Idle kernel) (size align : Nat) (zero : Bool) :
    slobAlloc kernel.heap size align zero none = some (none, countFree kernel.heap) := by
  simp [slobAlloc, allocListed, countFree, idle.unlisted, bestPageLoop, slobNewPages]

theorem Idle.slobAlloc_some (idle : Idle kernel) {size align pfn : Nat} (positive : 0 < size)
    (bound : size ≤ pageSize) (valid : ValidAlign align) (zero : Bool) (pfnPositive : 0 < pfn) :
    ∃ b heap, slobAlloc kernel.heap size align zero (some pfn) = some (some b, heap) ∧
      heap.memoryAlloc = kernel.heap.pointerSize ∧ heap.runs = [(pfn, 0)] := by
  have fresh : ∀ other, some pfn = some other → FreshPage kernel.heap other := by
    rintro other ⟨⟩
    exact ⟨pfnPositive, by simp [idle.runs]⟩
  rcases idle.invariant.slobAlloc_cases positive bound valid zero fresh with
    ⟨-, got, -⟩ | ⟨sp, listed, -⟩ | ⟨page, b, heap, -, got, cut, returned⟩
  · cases got
  · rw [idle.unlisted] at listed
    cases listed
  · cases got
    refine ⟨b, _, returned, ?_⟩
    have counted : heap.memoryAlloc = kernel.heap.memoryAlloc + kernel.heap.pointerSize :=
      cut.quiet.memoryAlloc
    have runs : heap.runs = (pfn, 0) :: kernel.heap.runs := cut.quiet.runs
    rw [idle.memoryAlloc, Int.zero_add] at counted
    rw [idle.runs] at runs
    unfold zeroObject
    split <;> exact ⟨counted, runs⟩

theorem Idle.obtained (idle : Idle kernel) (pfn order : Nat) :
    (slobNewPages kernel.heap order (some pfn)).2.memoryAlloc = kernel.heap.pointerSize ∧
      ∃ page order', (slobNewPages kernel.heap order (some pfn)).2.runs = [(page, order')] := by
  simp only [slobNewPages, idle.memoryAlloc, idle.runs]
  exact ⟨Int.zero_add _, pfn, order, rfl⟩

theorem Idle.countFree (idle : Idle kernel) :
    Idle { kernel with heap := Slob.countFree kernel.heap } :=
  { idle with invariant := idle.invariant.setMemoryFree _ }

theorem Idle.notSlab (idle : Idle kernel) (pfn : Nat) : (kernel.heap.page pfn).slab = false := by
  cases slab : (kernel.heap.page pfn).slab with
  | false => rfl
  | true =>
      rcases ((idle.invariant pfn).slob slab).2 with ⟨list, blocks, slobPage⟩
      exact absurd rfl slobPage.used

theorem Idle.kfree (idle : Idle kernel) {block : Nat}
    (legal : (KernelCall.kfree block).Legal kernel) :
    Slob.kfree minAlign kernel.heap block = some kernel.heap := by
  have null : zeroOrNullPtr block = true := by
    rcases legal with null | ⟨size, member⟩
    · exact null
    · rcases idle.live _ member with ⟨size', same⟩
      cases same
      decide
  unfold Slob.kfree
  rw [if_pos null]

theorem Idle.step (idle : Idle kernel) (small : minAlign < pageSize) {call : KernelCall}
    (legal : call.Legal kernel) (nothing : ¬call.Obtains)
    (taken : kernel.step minAlign call = some next) : Idle next := by
  cases call with
  | kmalloc size zero answer =>
      rcases Option.bind_eq_some_iff.mp taken with ⟨⟨block, heap⟩, returned, rest⟩
      unfold Slob.kmalloc at returned
      by_cases empty : size = 0
      · rw [if_pos (by omega), if_pos empty] at returned
        cases returned
        cases rest
        refine { idle with live := fun object member => ?_ }
        rcases List.mem_cons.mp member with rfl | old
        · exact ⟨size, rfl⟩
        · exact idle.live object old
      · have unanswered : answer = none := by
          by_contra some
          exact nothing ⟨empty, some⟩
        subst unanswered
        rw [if_neg empty, idle.slobAlloc_none] at returned
        split at returned
        · cases returned
          cases rest
          exact idle.countFree
        · cases returned
          cases rest
          exact idle
  | kfree block =>
      rcases Option.bind_eq_some_iff.mp taken with ⟨heap, returned, rest⟩
      rw [idle.kfree legal] at returned
      cases returned
      cases rest
      exact { idle with live := fun object member => idle.live object (List.mem_of_mem_eraseP member) }
  | kmemCacheAlloc c zero answer =>
      have unanswered : answer = none := by
        by_contra some
        exact nothing some
      subst unanswered
      rcases Option.bind_eq_some_iff.mp taken with ⟨⟨b, heap⟩, returned, rest⟩
      unfold Slob.kmemCacheAlloc at returned
      rw [idle.slobAlloc_none] at returned
      split at returned
      · cases returned
        cases rest
        exact idle.countFree
      · cases returned
        cases rest
        exact idle
  | kmemCacheFree c b =>
      rcases idle.live _ legal with ⟨size, other⟩
      cases other
  | rcuCallback b size =>
      have waiting : (b, size) ∈ kernel.deferred := legal
      rw [idle.deferred] at waiting
      cases waiting
  | store address value =>
      cases taken
      exact { idle with invariant := idle.invariant.store fun other _ => .inl (idle.notSlab _) }

theorem Idle.obtain (idle : Idle kernel) (valid : ValidAlign minAlign) (small : minAlign < pageSize)
    {call : KernelCall} (legal : call.Legal kernel) (obtains : call.Obtains)
    (taken : kernel.step minAlign call = some next) :
    next.heap.memoryAlloc = kernel.heap.pointerSize ∧
      ∃ pfn order, next.heap.runs = [(pfn, order)] := by
  cases call with
  | kmalloc size zero answer =>
      rcases obtains with ⟨notEmpty, answered⟩
      rcases Option.ne_none_iff_exists'.mp answered with ⟨pfn, rfl⟩
      rcases Option.bind_eq_some_iff.mp taken with ⟨⟨block, heap⟩, returned, rest⟩
      unfold Slob.kmalloc at returned
      split at returned
      · next isSmall =>
          rcases idle.slobAlloc_some (by omega : 0 < size + minAlign) (by omega) valid zero
            (legal pfn rfl).1 with ⟨b, cut, some, counted, runs⟩
          rw [some] at returned
          cases returned
          cases rest
          exact ⟨counted, pfn, 0, runs⟩
      · cases returned
        cases rest
        exact idle.obtained pfn _
  | kmemCacheAlloc c zero answer =>
      rcases Option.ne_none_iff_exists'.mp obtains with ⟨pfn, rfl⟩
      rcases Option.bind_eq_some_iff.mp taken with ⟨⟨b, heap⟩, returned, rest⟩
      rcases legal with ⟨positive, valid, fresh⟩
      unfold Slob.kmemCacheAlloc at returned
      split at returned
      · next isSmall =>
          rcases idle.slobAlloc_some positive isSmall.le valid zero (fresh pfn rfl).1 with
            ⟨b', cut, some, counted, runs⟩
          rw [some] at returned
          cases returned
          cases rest
          exact ⟨counted, pfn, 0, runs⟩
      · cases returned
        cases rest
        exact idle.obtained pfn _
  | kfree | kmemCacheFree | rcuCallback | store => exact absurd obtains not_false

theorem Idle.run {calls : List KernelCall} {final : Kernel} (small : minAlign < pageSize)
    (run : KernelRun minAlign kernel calls final) (idle : Idle kernel)
    (nothing : ∀ call ∈ calls, ¬call.Obtains) : Idle final := by
  induction run with
  | nil => exact idle
  | cons legal taken rest induction =>
      apply induction
      · exact idle.step small legal (nothing _ List.mem_cons_self) taken
      · exact fun call member => nothing call (List.mem_cons_of_mem _ member)

/-- Some state of a run in which a page run is obtained has counted a pointer for one. -/
theorem Idle.run_obtains {calls : List KernelCall} {final : Kernel} (valid : ValidAlign minAlign)
    (small : minAlign < pageSize) (run : KernelRun minAlign kernel calls final) (idle : Idle kernel)
    (some : ∃ call ∈ calls, call.Obtains) :
    ∃ count middle, KernelRun minAlign kernel (calls.take count) middle ∧
      middle.heap.memoryAlloc ≤ 8 ∧ ∃ pfn order, middle.heap.runs = [(pfn, order)] := by
  induction run with
  | nil => rcases some with ⟨call, member, -⟩; cases member
  | @cons kernel next final call calls legal taken rest induction =>
      by_cases here : call.Obtains
      · rcases idle.obtain valid small legal here taken with ⟨counted, runs⟩
        exact ⟨1, next, .cons legal taken (.nil next),
          counted.trans_le kernel.heap.pointerSize_bounds.2, runs⟩
      · rcases some with ⟨other, member, obtains⟩
        have later : other ∈ calls := by
          rcases List.mem_cons.mp member with rfl | later
          · exact absurd obtains here
          · exact later
        rcases induction (idle.step small legal here taken) ⟨other, later, obtains⟩ with
          ⟨count, middle, part, counted⟩
        exact ⟨count + 1, middle, .cons legal taken part, counted⟩

/-- `memory_alloc` counts the bytes of the page runs, and is back at 0 with nothing
allocated, all along a run exactly when no page run is obtained in it. -/
theorem memoryAlloc_exact {wide : Bool} {mem : Nat → Int} {page : Nat → Page} {calls : List KernelCall}
    {final : Kernel} (valid : ValidAlign minAlign) (small : minAlign < pageSize)
    (run : KernelRun minAlign (Kernel.start wide mem page) calls final) :
    (∀ count kernel, KernelRun minAlign (Kernel.start wide mem page) (calls.take count) kernel →
      kernel.heap.memoryAlloc = runBytes kernel.heap ∧
      (kernel.live = [] → kernel.deferred = [] →
        kernel.heap.memoryAlloc = (Kernel.start wide mem page).heap.memoryAlloc)) ↔
    ∀ call ∈ calls, ¬call.Obtains := by
  constructor
  · intro exact' call member obtains
    rcases (Idle.start wide mem page).run_obtains valid small run ⟨call, member, obtains⟩ with
      ⟨count, middle, part, counted, pfn, order, runs⟩
    have bytes := (exact' count middle part).1
    have atLeast : (1 : Int) ≤ 2 ^ order := one_le_pow₀ (by decide)
    rw [runBytes, runs] at bytes
    simp only [List.map_cons, List.map_nil, List.sum_cons, List.sum_nil, pageSize] at bytes
    omega
  · intro nothing count kernel part
    have idle := Idle.run small part (Idle.start wide mem page) fun call member =>
      nothing call (List.mem_of_mem_take member)
    refine ⟨?_, fun _ _ => idle.memoryAlloc⟩
    rw [idle.memoryAlloc, runBytes, idle.runs]
    rfl

end

/-- Before the first call, with zeros in memory. -/
def idleKernel : Kernel := Kernel.start true (fun _ => 0) fun _ => ⟨0, 0, false, false⟩

theorem legal_idle (size : Nat) (zero : Bool) :
    (KernelCall.kmalloc size zero (some 1)).Legal idleKernel := by
  rintro pfn ⟨⟩
  exact ⟨by decide, fun run member => absurd member List.not_mem_nil⟩

/-- A request for which there is no page. -/
def refused : Kernel := (idleKernel.step 8 (.kmalloc 100 false none)).get (by decide)

theorem memoryAlloc_exact_refused :
    KernelRun 8 idleKernel [.kmalloc 100 false none] refused ∧
      refused.heap.memoryAlloc = runBytes refused.heap := by
  have legal : (KernelCall.kmalloc 100 false none).Legal idleKernel := by rintro pfn ⟨⟩
  have run : KernelRun 8 idleKernel [.kmalloc 100 false none] refused :=
    .cons legal (Option.some_get _).symm (.nil _)
  refine ⟨run, ((memoryAlloc_exact (.inr ⟨3, by decide, rfl⟩) (by decide) run).mpr ?_ 1 refused
    run).1⟩
  intro call member obtains
  cases List.mem_singleton.mp member
  exact obtains.2 rfl

/-- An object of 100 bytes, and one of two pages. -/
def smallObject : Kernel := (idleKernel.step 8 (.kmalloc 100 false (some 1))).get (by decide)

def twoPages : Kernel := (idleKernel.step 8 (.kmalloc 8192 false (some 1))).get (by decide)

/-- The two pages given back by `kfree`. -/
def twoPagesFreed : Kernel := (twoPages.step 8 (.kfree 2048)).get (by decide)

/-- A page counts 8 bytes of its 4096, and two pages that `kfree` gives back stay counted. -/
theorem memoryAlloc_pointer_sizes :
    (KernelRun 8 idleKernel [.kmalloc 100 false (some 1)] smallObject ∧
      smallObject.heap.memoryAlloc = 8 ∧ runBytes smallObject.heap = 4096) ∧
    KernelRun 8 idleKernel [.kmalloc 8192 false (some 1), .kfree 2048] twoPagesFreed ∧
      twoPagesFreed.live = [] ∧ twoPagesFreed.deferred = [] ∧ runBytes twoPagesFreed.heap = 0 ∧
      twoPagesFreed.heap.memoryAlloc = 8 := by
  have held : (KernelCall.kfree 2048).Legal twoPages :=
    .inr ⟨8192, List.mem_singleton_self _⟩
  refine ⟨⟨.cons (legal_idle 100 false) (Option.some_get _).symm (.nil _), by decide, by decide⟩,
    .cons (legal_idle 8192 false) (Option.some_get _).symm
      (.cons held (Option.some_get _).symm (.nil _)), by decide, by decide, by decide, by decide⟩

end CE321.Slob
