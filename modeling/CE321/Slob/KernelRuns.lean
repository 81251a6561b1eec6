import CE321.Slob.Callers

/-! # Runs of the front end

Whatever legal calls the kernel makes: every call returns, the blocks of the callers are
apart, aligned and as large as asked, they keep what was written to them, and no page stays
behind without a block.
-/

namespace CE321.Slob

/-- The word at an address after a call that writes to it or leaves it. -/
def KernelCall.stored (address : Nat) (word : Int) : KernelCall → Int
  | .store other value => if other = address then value else word
  | _ => word

/-- The call that takes a block back. -/
def KernelCall.Releases (allocated : Allocated) (call : KernelCall) : Prop :=
  match allocated with
  | .kmalloc block _ => call = .kfree block
  | .cache c b => call = .kmemCacheFree c b

section

variable {minAlign : Nat} {kernel next : Kernel}

/-- What a call makes of the blocks. -/
structure Steps (minAlign : Nat) (kernel : Kernel) (call : KernelCall) (next : Kernel) : Prop where
  callers : CallersInvariant minAlign next.heap next.held
  words : ∀ allocated ∈ kernel.live, allocated ∈ next.live → ∀ address, allocated.Holds address →
    next.heap.mem address = call.stored address (kernel.heap.mem address)

theorem mem_held {allocated : Allocated} (member : allocated ∈ kernel.live) :
    allocated ∈ kernel.held := List.mem_append_left _ member

theorem CallersInvariant.words (callers : CallersInvariant minAlign kernel.heap kernel.held)
    (valid : ValidMinAlign minAlign) {held : List Allocated} {heap' : Heap}
    (keeps : Keeps minAlign held kernel.heap heap') {allocated : Allocated}
    (isLive : allocated ∈ kernel.live) (isKept : allocated ∈ held) {address : Nat}
    (holds : allocated.Holds address) : heap'.mem address = kernel.heap.mem address :=
  keeps allocated isKept address ((callers.placed allocated (mem_held isLive)).space valid holds)

theorem Kernel.held_eraseP {block size : Nat} (member : .kmalloc block size ∈ kernel.live) :
    ∃ size', kernel.held.Perm (.kmalloc block size' ::
      (kernel.live.eraseP (Allocated.isKmalloc block) ++
        kernel.deferred.map fun (b, size) => .cache ⟨size, 0, true⟩ b)) := by
  have isBlock : Allocated.isKmalloc block (.kmalloc block size) = true := beq_self_eq_true block
  rcases List.exists_of_eraseP member isBlock with ⟨found, before, after, -, isFound, split, erased⟩
  cases found with
  | cache c b => cases isFound
  | kmalloc other size' =>
      have same : other = block := by simpa [Allocated.isKmalloc] using isFound
      subst same
      refine ⟨size', ?_⟩
      unfold Kernel.held
      rw [erased, split, List.append_assoc, List.append_assoc, List.cons_append]
      exact List.perm_middle

theorem CallersInvariant.kfree_null (callers : CallersInvariant minAlign kernel.heap kernel.held)
    (valid : ValidMinAlign minAlign) {block : Nat} (null : zeroOrNullPtr block = true) :
    CallersInvariant minAlign kernel.heap
      ({ kernel with live := kernel.live.eraseP (Allocated.isKmalloc block) } : Kernel).held := by
  by_cases some : ∃ size, Allocated.kmalloc block size ∈ kernel.live
  · rcases some with ⟨size, member⟩
    rcases Kernel.held_eraseP member with ⟨size', perm⟩
    have callers' := callers.perm perm
    have empty : size' = 0 := by
      by_contra notEmpty
      rw [callers'.notNull valid List.mem_cons_self notEmpty] at null
      cases null
    have alignSmall := valid.small
    exact callers'.drop (if_neg fun both => both.1 empty) (if_pos (by omega))
  · rw [List.eraseP_of_forall_not]
    · exact callers
    · intro allocated member isBlock
      cases allocated with
      | cache c b => cases isBlock
      | kmalloc other size =>
          have same : other = block := by simpa [Allocated.isKmalloc] using isBlock
          exact some ⟨size, same ▸ member⟩

theorem CallersInvariant.step_kfree (callers : CallersInvariant minAlign kernel.heap kernel.held)
    (valid : ValidMinAlign minAlign) {block : Nat}
    (legal : (KernelCall.kfree block).Legal kernel) :
    ∃ next, kernel.step minAlign (.kfree block) = some next ∧
      Steps minAlign kernel (.kfree block) next := by
  simp only [Kernel.step, Option.bind_eq_bind]
  cases null : zeroOrNullPtr block with
  | true =>
      have returned : Slob.kfree minAlign kernel.heap block = some kernel.heap := if_pos null
      rw [returned]
      exact ⟨_, rfl, callers.kfree_null valid null, fun _ _ _ _ _ => rfl⟩
  | false =>
      rcases legal with isNull | ⟨size, member⟩
      · rw [null] at isNull
        cases isNull
      · rcases Kernel.held_eraseP member with ⟨size', perm⟩
        have callers' := callers.perm perm
        have notEmpty : size' ≠ 0 := by
          intro empty
          have placed := callers'.placed _ List.mem_cons_self
          simp only [Allocated.Placed, if_pos empty] at placed
          rw [placed] at null
          revert null
          decide
        rcases callers'.kfree valid notEmpty with ⟨heap', returned, kept, keeps⟩
        rw [returned]
        exact ⟨_, rfl, kept, fun allocated isLive isKept address holds =>
          callers.words valid keeps isLive (List.mem_append_left _ isKept) holds⟩

theorem CallersInvariant.defer {heap : Heap} {held : List Allocated} {c : KmemCache} {b : Nat}
    (callers : CallersInvariant minAlign heap (.cache c b :: held)) :
    CallersInvariant minAlign heap (.cache ⟨c.size, 0, true⟩ b :: held) := by
  refine ⟨callers.mixed, fun allocated member => ?_⟩
  rcases List.mem_cons.mp member with rfl | old
  · exact ⟨.inl rfl, (callers.placed _ List.mem_cons_self).2⟩
  · exact callers.placed allocated (List.mem_cons_of_mem _ old)

theorem CallersInvariant.step_release (callers : CallersInvariant minAlign kernel.heap kernel.held)
    (valid : ValidMinAlign minAlign) {c : KmemCache} {b : Nat}
    (legal : Allocated.cache c b ∈ kernel.live) :
    ∃ next, kernel.step minAlign (.kmemCacheFree c b) = some next ∧
      Steps minAlign kernel (.kmemCacheFree c b) next := by
  have perm : kernel.held.Perm (.cache c b :: (kernel.live.erase (.cache c b) ++
      kernel.deferred.map fun (b, size) => .cache ⟨size, 0, true⟩ b)) :=
    (List.perm_cons_erase legal).append_right _
  have callers' := callers.perm perm
  simp only [Kernel.step]
  cases rcu : c.rcu with
  | true =>
      refine ⟨_, rfl, ?_, fun _ _ _ _ _ => rfl⟩
      exact callers'.defer.perm List.perm_middle.symm
  | false =>
      rcases callers'.kmemCacheRelease valid with ⟨heap', returned, kept, keeps⟩
      simp only [returned, Option.bind_eq_bind, Option.bind_some]
      exact ⟨_, rfl, kept, fun allocated isLive isKept address holds =>
        callers.words valid keeps isLive (List.mem_append_left _ isKept) holds⟩

theorem CallersInvariant.step_callback (callers : CallersInvariant minAlign kernel.heap kernel.held)
    (valid : ValidMinAlign minAlign) {b size : Nat} (legal : (b, size) ∈ kernel.deferred) :
    ∃ next, kernel.step minAlign (.rcuCallback b size) = some next ∧
      Steps minAlign kernel (.rcuCallback b size) next := by
  have perm : kernel.held.Perm (.cache ⟨size, 0, true⟩ b ::
      (kernel.live ++ (kernel.deferred.erase (b, size)).map fun (b, size) =>
        .cache ⟨size, 0, true⟩ b)) :=
    (((List.perm_cons_erase legal).map _).append_left kernel.live).trans List.perm_middle
  rcases (callers.perm perm).kmemCacheRelease valid with ⟨heap', returned, kept, keeps⟩
  simp only at returned
  simp only [Kernel.step, returned, Option.bind_eq_bind, Option.bind_some]
  exact ⟨_, rfl, kept, fun allocated isLive _ address holds =>
    callers.words valid keeps isLive (List.mem_append_left _ isLive) holds⟩

theorem CallersInvariant.step_store (callers : CallersInvariant minAlign kernel.heap kernel.held)
    (valid : ValidMinAlign minAlign) {address : Nat} {value : Int}
    (legal : (KernelCall.store address value).Legal kernel) :
    ∃ next, kernel.step minAlign (.store address value) = some next ∧
      Steps minAlign kernel (.store address value) next := by
  have same : ∀ other, other ≠ address →
      Function.update kernel.heap.mem address value other = kernel.heap.mem other :=
    fun other away => Function.update_of_ne away _ _
  refine ⟨_, rfl, ⟨callers.mixed.store fun other changed => ?_, fun allocated member => ?_⟩, ?_⟩
  · have here : other = address := by
      by_contra away
      exact changed (same other away)
    subst here
    rcases legal with notSlab | ⟨allocated, isLive, holds⟩
    · exact .inl notSlab
    · have space := (callers.placed _ (mem_held isLive)).space valid holds
      exact callers.mixed.mayStore kernel.heap.runs
        (owned_iff.mpr ⟨allocated, mem_held isLive, space⟩)
  · have placed := callers.placed allocated member
    apply placed.kept
    rintro other header
    apply same
    rintro rfl
    rcases header.object valid with ⟨object, isObject, holds⟩
    rcases legal with notSlab | ⟨written, isLive, writtenHolds⟩
    · rcases callers.mixed.split with ⟨single, -, invariant⟩
      have slab := invariant.slab (invariant.holds_page
        (List.mem_filterMap.mpr ⟨allocated, member, isObject⟩) holds).1
      exact absurd (slab.symm.trans notSlab) (by decide)
    · by_cases own : written = allocated
      · exact header.notHolds valid placed (own ▸ writtenHolds)
      · have isOther : written ∈ kernel.held.erase allocated :=
          (List.mem_erase_of_ne own).mpr (mem_held isLive)
        exact (callers.perm (List.perm_cons_erase member)).apart isOther (.inl ⟨object, isObject, holds⟩)
          ((callers.placed _ (mem_held isLive)).space valid writtenHolds)
  · intro allocated isLive _ other holds
    simp only [KernelCall.stored, Function.update_apply, eq_comm]

theorem CallersInvariant.step (callers : CallersInvariant minAlign kernel.heap kernel.held)
    (valid : ValidMinAlign minAlign) {call : KernelCall} (legal : call.Legal kernel) :
    ∃ next, kernel.step minAlign call = some next ∧ Steps minAlign kernel call next := by
  cases call with
  | kmalloc size zero answer =>
      rcases callers.kmalloc valid size zero legal with ⟨block, heap', returned, kept, keeps⟩
      simp only [Kernel.step, returned, Option.bind_eq_bind, Option.bind_some]
      cases block with
      | none =>
          exact ⟨_, rfl, kept, fun allocated isLive _ address holds =>
            callers.words valid keeps isLive (mem_held isLive) holds⟩
      | some block =>
          exact ⟨_, rfl, kept, fun allocated isLive _ address holds =>
            callers.words valid keeps isLive (mem_held isLive) holds⟩
  | kfree block => exact callers.step_kfree valid legal
  | kmemCacheAlloc c zero answer =>
      rcases legal with ⟨positive, validAlign, fresh⟩
      rcases callers.kmemCacheAlloc valid positive validAlign zero fresh with
        ⟨b, heap', returned, kept, keeps⟩
      simp only [Kernel.step, returned, Option.bind_eq_bind, Option.bind_some]
      cases b with
      | none =>
          exact ⟨_, rfl, kept, fun allocated isLive _ address holds =>
            callers.words valid keeps isLive (mem_held isLive) holds⟩
      | some b =>
          exact ⟨_, rfl, kept, fun allocated isLive _ address holds =>
            callers.words valid keeps isLive (mem_held isLive) holds⟩
  | kmemCacheFree c b => exact callers.step_release valid legal
  | rcuCallback b size => exact callers.step_callback valid legal
  | store address value => exact callers.step_store valid legal

theorem CallersInvariant.start (wide : Bool) (mem : Nat → Int) (page : Nat → Page) :
    CallersInvariant minAlign (Kernel.start wide mem page).heap (Kernel.start wide mem page).held := by
  have invariant := HeapInvariant.start wide mem page
  exact ⟨⟨⟨[], .refl _, invariant⟩, List.Pairwise.nil, fun _ member => absurd member List.not_mem_nil⟩,
    fun _ member => absurd member List.not_mem_nil⟩

theorem KernelRun.callers (valid : ValidMinAlign minAlign) {calls : List KernelCall}
    (run : KernelRun minAlign kernel calls next)
    (callers : CallersInvariant minAlign kernel.heap kernel.held) :
    CallersInvariant minAlign next.heap next.held := by
  induction run with
  | nil => exact callers
  | cons legal taken rest induction =>
      rcases callers.step valid legal with ⟨middle, taken', steps⟩
      rw [taken] at taken'
      cases taken'
      exact induction steps.callers

/-! ## Blocks are apart, aligned and large enough -/

theorem CallersInvariant.pairwise {heap : Heap} (valid : ValidMinAlign minAlign)
    (live : List Allocated) : ∀ before : List Allocated,
    CallersInvariant minAlign heap (before ++ live) →
    live.Pairwise fun left right => ∀ address, left.Holds address → ¬right.Holds address := by
  induction live with
  | nil => exact fun _ _ => List.Pairwise.nil
  | cons allocated live induction =>
      intro before callers
      have callers' := callers.perm List.perm_middle
      refine List.pairwise_cons.mpr ⟨fun other member address holds otherHolds => ?_, ?_⟩
      · have isIn : other ∈ before ++ live := List.mem_append_right _ member
        exact callers'.apart isIn ((callers'.placed _ List.mem_cons_self).space valid holds)
          ((callers'.placed _ (List.mem_cons_of_mem _ isIn)).space valid otherHolds)
      · apply induction (before ++ [allocated])
        rw [List.append_assoc]
        exact callers

theorem CallersInvariant.ksize {heap : Heap} {held : List Allocated}
    (callers : CallersInvariant minAlign heap held) (valid : ValidMinAlign minAlign) {block size : Nat}
    (member : .kmalloc block size ∈ held) :
    ∃ room, Slob.ksize minAlign heap block = some room ∧ size ≤ room ∧
      ∀ address, block ≤ address → address < block + room / 2 →
        (Allocated.kmalloc block size).Space minAlign address := by
  have placed := callers.placed _ member
  unfold Slob.ksize
  by_cases empty : size = 0
  · simp only [Allocated.Placed] at placed
    rw [if_pos empty] at placed
    refine ⟨0, ?_, empty.le, fun address from' upTo => absurd from' (by omega)⟩
    rw [placed, if_neg (by decide), if_pos rfl]
  · have notNull := callers.notNull valid member empty
    unfold zeroOrNullPtr at notNull
    rw [decide_eq_false_iff_not] at notNull
    rw [if_neg (by omega), if_neg (by unfold zeroSizePtr; omega)]
    by_cases small : size < pageSize - minAlign
    · rcases callers.small valid member empty small with ⟨slab, header⟩
      simp only [slab, if_true, header]
      refine ⟨_, rfl, by unfold unitsOf; omega, fun address from' upTo => ?_⟩
      exact placed.space valid ⟨from', by omega⟩
    · have isRun : (Allocated.kmalloc block size).pageRun minAlign =
          some (virtToPage block, getOrder size) := if_neg small
      rcases callers.large member isRun with ⟨notSlab, order⟩
      simp only [notSlab, Bool.false_eq_true, if_false, order]
      simp only [Allocated.Placed] at placed
      rw [if_neg empty, if_neg small] at placed
      exact ⟨_, rfl, size_le_order, fun address from' upTo =>
        .inr ⟨_, isRun, inRun_block placed from' upTo⟩⟩

/-- Whatever calls were made: every legal call returns, no two blocks have a unit in common,
blocks are aligned as asked, and `ksize` reports at least what was asked for, all of which
belongs to the block. -/
theorem blocks_of_run {wide : Bool} {mem : Nat → Int} {page : Nat → Page}
    {calls : List KernelCall} (valid : ValidMinAlign minAlign)
    (run : KernelRun minAlign (Kernel.start wide mem page) calls kernel) :
    (∀ call, call.Legal kernel → ∃ next, kernel.step minAlign call = some next) ∧
    (kernel.live.Pairwise fun left right => ∀ address, left.Holds address → ¬right.Holds address) ∧
    (∀ block size, .kmalloc block size ∈ kernel.live →
      (size ≠ 0 → minAlign ∣ 2 * block) ∧
      ∃ room, Slob.ksize minAlign kernel.heap block = some room ∧ size ≤ room ∧
        ∀ address, block ≤ address → address < block + room / 2 →
          ∀ other ∈ kernel.live, other.Holds address → other = .kmalloc block size) ∧
    ∀ c b, .cache c b ∈ kernel.live → c.align = 0 ∨ c.align ∣ 2 * b := by
  have callers := run.callers valid (CallersInvariant.start wide mem page)
  refine ⟨fun call legal => ?_, ?_, fun block size member => ⟨fun notEmpty => ?_, ?_⟩,
    fun c b member => (callers.placed _ (mem_held member)).1⟩
  · rcases callers.step valid legal with ⟨next, taken, -⟩
    exact ⟨next, taken⟩
  · apply CallersInvariant.pairwise valid kernel.live
      (kernel.deferred.map fun (b, size) => .cache ⟨size, 0, true⟩ b)
    exact callers.perm List.perm_append_comm
  · have placed := callers.placed _ (mem_held member)
    simp only [Allocated.Placed] at placed
    rw [if_neg notEmpty] at placed
    split at placed
    · exact placed.2.1
    · have room := valid.room
      exact (valid.valid.dvd_page placed).resolve_left (by omega)
  · rcases callers.ksize valid (mem_held member) with ⟨room, reported, enough, own⟩
    refine ⟨room, reported, enough, fun address from' upTo other isLive holds => ?_⟩
    by_contra isOther
    have isIn : other ∈ kernel.held.erase (.kmalloc block size) :=
      (List.mem_erase_of_ne isOther).mpr (mem_held isLive)
    exact (callers.perm (List.perm_cons_erase (mem_held member))).apart isIn (own address from' upTo)
      ((callers.placed _ (mem_held isLive)).space valid holds)

/-! ## Blocks keep their words -/

theorem Kernel.step_live {call : KernelCall} (taken : kernel.step minAlign call = some next)
    {allocated : Allocated} (isLive : allocated ∈ kernel.live) (kept : ¬call.Releases allocated) :
    allocated ∈ next.live := by
  cases call with
  | kmalloc size zero answer =>
      rcases Option.bind_eq_some_iff.mp taken with ⟨⟨block, heap⟩, -, rest⟩
      cases block with
      | none =>
          cases rest
          exact isLive
      | some block =>
          cases rest
          exact List.mem_cons_of_mem _ isLive
  | kfree block =>
      rcases Option.bind_eq_some_iff.mp taken with ⟨heap, -, rest⟩
      cases rest
      refine (List.mem_eraseP_of_neg fun isBlock => ?_).mpr isLive
      cases allocated with
      | cache c b => cases isBlock
      | kmalloc other size =>
          have same : other = block := by simpa [Allocated.isKmalloc] using isBlock
          exact kept (congrArg KernelCall.kfree same.symm)
  | kmemCacheAlloc c zero answer =>
      rcases Option.bind_eq_some_iff.mp taken with ⟨⟨b, heap⟩, -, rest⟩
      cases b with
      | none =>
          cases rest
          exact isLive
      | some b =>
          cases rest
          exact List.mem_cons_of_mem _ isLive
  | kmemCacheFree c b =>
      have other : allocated ≠ .cache c b := by
        rintro rfl
        exact kept rfl
      have stays : allocated ∈ kernel.live.erase (.cache c b) := (List.mem_erase_of_ne other).mpr isLive
      simp only [Kernel.step] at taken
      split at taken
      · cases taken
        exact stays
      · rcases Option.bind_eq_some_iff.mp taken with ⟨heap, -, rest⟩
        cases rest
        exact stays
  | rcuCallback b size =>
      rcases Option.bind_eq_some_iff.mp taken with ⟨heap, -, rest⟩
      cases rest
      exact isLive
  | store address value =>
      cases taken
      exact isLive

theorem KernelRun.words (valid : ValidMinAlign minAlign) {calls : List KernelCall}
    (run : KernelRun minAlign kernel calls next)
    (callers : CallersInvariant minAlign kernel.heap kernel.held) {allocated : Allocated}
    (isLive : allocated ∈ kernel.live) (kept : ∀ call ∈ calls, ¬call.Releases allocated)
    {address : Nat} (holds : allocated.Holds address) :
    allocated ∈ next.live ∧ next.heap.mem address =
      calls.foldl (KernelCall.stored address) (kernel.heap.mem address) := by
  induction run with
  | nil => exact ⟨isLive, rfl⟩
  | cons legal taken rest induction =>
      rcases callers.step valid legal with ⟨middle, taken', steps⟩
      rw [taken] at taken'
      cases taken'
      have stays := Kernel.step_live taken isLive (kept _ List.mem_cons_self)
      rw [List.foldl_cons, ← steps.words allocated isLive stays address holds]
      exact induction steps.callers stays fun call member => kept call (List.mem_cons_of_mem _ member)

/-- However many calls go on around it, a block that is not given back stays, and each word
of it is the one stored last. -/
theorem words_of_run {wide : Bool} {mem : Nat → Int} {page : Nat → Page} {before calls : List KernelCall}
    (valid : ValidMinAlign minAlign) (start : KernelRun minAlign (Kernel.start wide mem page) before kernel)
    (run : KernelRun minAlign kernel calls next) {allocated : Allocated}
    (isLive : allocated ∈ kernel.live) (kept : ∀ call ∈ calls, ¬call.Releases allocated)
    {address : Nat} (holds : allocated.Holds address) :
    allocated ∈ next.live ∧ next.heap.mem address =
      calls.foldl (KernelCall.stored address) (kernel.heap.mem address) :=
  run.words valid (start.callers valid (CallersInvariant.start wide mem page)) isLive kept holds

/-! ## No page stays behind -/

/-- The first unit of a block is the caller's, and lies in what serves the block. -/
theorem CallersInvariant.first_unit {heap : Heap} {held : List Allocated}
    (callers : CallersInvariant minAlign heap held) (valid : ValidMinAlign minAlign)
    {allocated : Allocated} (member : allocated ∈ held)
    (serves : allocated.object minAlign ≠ none ∨ allocated.pageRun minAlign ≠ none) :
    ∃ address, allocated.Holds address ∧ allocated.Space minAlign address := by
  have alignSmall := valid.small
  have placed := callers.placed _ member
  have holds : ∃ address, allocated.Holds address := by
    cases allocated with
    | kmalloc block size =>
        refine ⟨block, Allocated.holds_block fun empty => ?_⟩
        rcases serves with object | run
        · exact object (if_neg fun both => both.1 empty)
        · exact run (if_pos (by omega))
    | cache c b =>
        refine ⟨b, le_rfl, Nat.lt_add_of_pos_right ?_⟩
        by_cases small : c.size < pageSize
        · rcases callers.mixed.split with ⟨single, -, invariant⟩
          have isObject : (⟨b, c.size⟩ : Object) ∈ held.filterMap (Allocated.object minAlign) :=
            List.mem_filterMap.mpr ⟨_, member, if_pos small⟩
          have own := mem_objectsOn.mpr ⟨isObject, rfl⟩
          rcases ((invariant _).slob (invariant.slab own)).2 with ⟨list, blocks, slobPage⟩
          exact slobPage.layout.tiles.positive _ (List.mem_append_right blocks (mem_segmentsOn own))
        · unfold unitsOf
          unfold pageSize at small
          omega
  rcases holds with ⟨address, holds⟩
  exact ⟨address, holds, placed.space valid holds⟩

theorem CallersInvariant.inRun {heap : Heap} {held : List Allocated}
    (callers : CallersInvariant minAlign heap held) {allocated : Allocated}
    (member : allocated ∈ held) {address : Nat} (space : allocated.Space minAlign address) :
    ∃ run ∈ heap.runs, InRun run address := by
  rcases callers.mixed.split with ⟨single, runs, invariant⟩
  rcases space with ⟨object, isObject, holds⟩ | ⟨run, isRun, inRun⟩
  · have isIn : object ∈ held.filterMap (Allocated.object minAlign) :=
      List.mem_filterMap.mpr ⟨_, member, isObject⟩
    have own := (invariant.holds_page isIn holds).1
    have single' := (invariant.held_iff (virtToPage address)).mpr
      ⟨object, isIn, (mem_objectsOn.mp own).2⟩
    exact ⟨_, runs.mem_iff.mpr (List.mem_append_left _ single'), le_rfl, Nat.lt_succ_self _⟩
  · exact ⟨run, runs.mem_iff.mpr (List.mem_append_right _
      (List.mem_filterMap.mpr ⟨_, member, isRun⟩)), inRun⟩

theorem CallersInvariant.runs_used {heap : Heap} {held : List Allocated}
    (callers : CallersInvariant minAlign heap held) (valid : ValidMinAlign minAlign)
    {run : Nat × Nat} (isHeld : run ∈ heap.runs) :
    ∃ allocated ∈ held, ∃ address, allocated.Holds address ∧ InRun run address := by
  rcases callers.mixed.split with ⟨single, runs, invariant⟩
  rcases List.mem_append.mp (runs.mem_iff.mp isHeld) with isSingle | isLarge
  · have order : run.2 = 0 := invariant.runs_nodup.2 run isSingle
    have same : run = (run.1, 0) := by rw [← order]
    rcases (invariant.held_iff run.1).mp (same ▸ isSingle) with ⟨object, isObject, here⟩
    rcases List.mem_filterMap.mp isObject with ⟨allocated, member, serves⟩
    rcases callers.first_unit valid member (.inl (serves ▸ Option.some_ne_none object)) with
      ⟨address, holds, space⟩
    refine ⟨allocated, member, address, holds, ?_⟩
    have own : virtToPage address = run.1 := by
      rcases space with ⟨object', serves', holds'⟩ | ⟨other, isRun, -⟩
      · rw [serves] at serves'
        cases serves'
        exact ((mem_objectsOn.mp (invariant.holds_page isObject holds').1).2).symm.trans here
      · have noRun := (allocated.object_or_run).resolve_left (serves ▸ Option.some_ne_none object)
        rw [noRun] at isRun
        cases isRun
    unfold InRun
    rw [own, order]
    omega
  · rcases List.mem_filterMap.mp isLarge with ⟨allocated, member, serves⟩
    rcases callers.first_unit valid member (.inr (serves ▸ Option.some_ne_none run)) with
      ⟨address, holds, space⟩
    refine ⟨allocated, member, address, holds, ?_⟩
    rcases space with ⟨object, isObject, -⟩ | ⟨other, isRun, inRun⟩
    · have noObject := (allocated.object_or_run).resolve_right (serves ▸ Option.some_ne_none run)
      rw [noObject] at isObject
      cases isObject
    · rw [serves] at isRun
      cases isRun
      exact inRun

/-- Whatever calls were made: the page runs that are held share no page, each is held for a
block or an object that waits for its callback, and these lie in page runs that are held. So
nothing is left of the heap once everything has been given back. -/
theorem pages_of_run {wide : Bool} {mem : Nat → Int} {page : Nat → Page} {calls : List KernelCall}
    (valid : ValidMinAlign minAlign) (run : KernelRun minAlign (Kernel.start wide mem page) calls kernel) :
    kernel.heap.runs.Pairwise RunsApart ∧
    (∀ run ∈ kernel.heap.runs, ∃ allocated ∈ kernel.held, ∃ address,
      allocated.Holds address ∧ InRun run address) ∧
    (∀ allocated ∈ kernel.held, ∀ address, allocated.Holds address →
      ∃ run ∈ kernel.heap.runs, InRun run address) ∧
    (kernel.live = [] → kernel.deferred = [] →
      kernel.heap.runs = [] ∧ ∀ list, kernel.heap.free list = []) := by
  have callers := run.callers valid (CallersInvariant.start wide mem page)
  have used := fun run isHeld => @CallersInvariant.runs_used minAlign kernel.heap kernel.held callers
    valid run isHeld
  refine ⟨callers.mixed.apart, used, fun allocated member address holds =>
    callers.inRun member ((callers.placed _ member).space valid holds), fun live deferred => ?_⟩
  have nothing : kernel.held = [] := by rw [Kernel.held, live, deferred, List.map_nil, List.append_nil]
  have runs : kernel.heap.runs = [] := by
    apply List.eq_nil_iff_forall_not_mem.mpr
    intro run isHeld
    rcases used run isHeld with ⟨allocated, member, -⟩
    rw [nothing] at member
    cases member
  refine ⟨runs, fun list => List.eq_nil_iff_forall_not_mem.mpr fun pfn listed => ?_⟩
  rcases callers.mixed.split with ⟨single, split, invariant⟩
  rcases ((invariant pfn).slob (invariant.listed listed).1).2 with ⟨list', blocks, slobPage⟩
  have used := slobPage.used
  rw [nothing, List.filterMap_nil] at used
  exact used rfl

end

/-! ## A small run -/

theorem validMinAlign_eight : ValidMinAlign 8 := ⟨.inr ⟨3, by decide, rfl⟩, by decide, by decide⟩

theorem smallObject_run :
    KernelRun 8 idleKernel [.kmalloc 100 false (some 1)] smallObject :=
  .cons (legal_idle 100 false) (Option.some_get _).symm (.nil _)

/-- The object of 100 bytes, and the next one of 20 on its page. -/
def twoObjects : Kernel := (smallObject.step 8 (.kmalloc 20 true none)).get (by decide)

/-- A word of the first object is written. -/
def written : Kernel := (twoObjects.step 8 (.store 2060 7)).get (by decide)

theorem written_run :
    KernelRun 8 smallObject [.kmalloc 20 true none, .store 2060 7] written := by
  have legal : (KernelCall.kmalloc 20 true none).Legal smallObject := by rintro pfn ⟨⟩
  have inside : (KernelCall.store 2060 7).Legal twoObjects :=
    .inr ⟨.kmalloc 2052 100, by decide, by decide, by decide⟩
  exact .cons legal (Option.some_get _).symm (.cons inside (Option.some_get _).symm (.nil _))

/-- The object of 20 bytes, one of two pages and one of a cache, when the first one is freed. -/
def withTwoPages : Kernel :=
  (twoObjects.step 8 (.kmalloc 8192 false (some 2))).get (by decide +kernel)

def withCache : Kernel :=
  (withTwoPages.step 8 (.kmemCacheAlloc ⟨60, 32, false⟩ false none)).get (by decide +kernel)

def firstFreed : Kernel := (withCache.step 8 (.kfree 2052)).get (by decide +kernel)

theorem firstFreed_run :
    KernelRun 8 idleKernel [.kmalloc 100 false (some 1), .kmalloc 20 true none,
      .kmalloc 8192 false (some 2), .kmemCacheAlloc ⟨60, 32, false⟩ false none, .kfree 2052]
      firstFreed := by
  have small : (KernelCall.kmalloc 20 true none).Legal smallObject := by rintro pfn ⟨⟩
  have large : (KernelCall.kmalloc 8192 false (some 2)).Legal twoObjects := by
    rintro pfn ⟨⟩
    unfold FreshRun
    decide +kernel
  have cache : (KernelCall.kmemCacheAlloc ⟨60, 32, false⟩ false none).Legal withTwoPages :=
    ⟨by decide, .inr ⟨5, by decide, rfl⟩, nofun⟩
  have held : (KernelCall.kfree 2052).Legal withCache := .inr ⟨100, by decide +kernel⟩
  exact .cons (legal_idle 100 false) (Option.some_get _).symm
    (.cons small (Option.some_get _).symm (.cons large (Option.some_get _).symm
      (.cons cache (Option.some_get _).symm (.cons held (Option.some_get _).symm (.nil _)))))

theorem blocks_of_run_several :
    firstFreed.live = [.cache ⟨60, 32, false⟩ 2128, .kmalloc 4096 8192, .kmalloc 2108 20] ∧
    (firstFreed.live.Pairwise fun left right =>
      ∀ address, left.Holds address → ¬right.Holds address) ∧
    32 ∣ 2 * 2128 ∧ 8 ∣ 2 * 4096 ∧ 8 ∣ 2 * 2108 ∧
    Slob.ksize 8 firstFreed.heap 4096 = some 8192 ∧
    Slob.ksize 8 firstFreed.heap 2108 = some 20 := by
  rcases blocks_of_run validMinAlign_eight firstFreed_run with ⟨-, apart, blocks, caches⟩
  refine ⟨by decide +kernel, apart, ?_, ?_, ?_, by decide +kernel, by decide +kernel⟩
  · exact (caches ⟨60, 32, false⟩ 2128 (by decide +kernel)).resolve_left (by decide)
  · exact (blocks 4096 8192 (by decide +kernel)).1 (by decide)
  · exact (blocks 2108 20 (by decide +kernel)).1 (by decide)

theorem words_of_run_written : written.heap.mem 2060 = 7 :=
  (words_of_run validMinAlign_eight smallObject_run written_run
    (by decide : Allocated.kmalloc 2052 100 ∈ smallObject.live) (by
      intro call member release
      cases release
      simp at member) (by decide : 2052 ≤ 2060 ∧ 2060 < 2052 + unitsOf 100)).2

theorem pages_of_run_small : smallObject.heap.runs = [(1, 0)] ∧
    ∃ allocated ∈ smallObject.held, ∃ address, allocated.Holds address ∧ InRun (1, 0) address :=
  ⟨by decide, (pages_of_run validMinAlign_eight smallObject_run).2.1 (1, 0) (by decide)⟩

end CE321.Slob
