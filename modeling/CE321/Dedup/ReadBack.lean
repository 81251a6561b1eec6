import CE321.Dedup.Counters
import CE321.Dedup.Reading

/-! # Reading back what was written

The shared blocks against a plain file system: a map from files to byte strings.
-/

namespace CE321.Dedup

open CString ByteFile RefTable

/-! ## The reference file system -/

/-- The files that exist and their bytes. -/
structure Files (Path : Type) where
  names : Finset Path
  data : Path → Bytes

section

variable {Path : Type}

def Files.empty : Files Path := ⟨∅, fun _ => []⟩

variable [DecidableEq Path]

def Files.step (files : Files Path) : Op Path → Files Path
  | .mknod path => ⟨insert path files.names, Function.update files.data path []⟩
  | .write path buf offset =>
      ⟨files.names, Function.update files.data path (patch (files.data path) offset buf)⟩
  | .unlink path => ⟨files.names.erase path, files.data⟩

def Files.run (files : Files Path) (ops : List (Op Path)) : Files Path :=
  ops.foldl Files.step files

/-- The calls inside the limits that leave no hole, with blocks of the given ones. -/
def Files.Legal (used : Set Bytes) (files : Files Path) : Op Path → Prop
  | .mknod path => path ∉ files.names ∧ files.names.card < 10
  | .write path buf offset => path ∈ files.names ∧ 0 < buf.length ∧ 4096 ∣ buf.length ∧
      4096 ∣ offset ∧ offset ≤ (files.data path).length ∧ offset + buf.length ≤ 16 * 4096 ∧
      0 ∉ buf ∧ ∀ block ∈ blocksOf buf, block ∈ used
  | .unlink path => path ∈ files.names

def Files.LegalRun (used : Set Bytes) : Files Path → List (Op Path) → Prop
  | _, [] => True
  | files, op :: ops => files.Legal used op ∧ Files.LegalRun used (files.step op) ops

/-! ## The refinement -/

/-- Every file is a list of references to its blocks. -/
structure Backed (used : Set Bytes) (state : BbState Path) (entries : Path → List (Option Nat))
    (files : Files Path) (ids : Path → List Nat) (blocks : Path → List Bytes) : Prop where
  names : state.names = files.names
  entries : ∀ path ∈ state.names, entries path = (ids path).map some
  data : ∀ path ∈ state.names, files.data path = (blocks path).flatten
  whole : ∀ path ∈ state.names, ∀ block ∈ blocks path, Whole block
  found : ∀ path ∈ state.names,
    (ids path).map (fun id : Nat => state.block id) = (blocks path).map some
  stored : ∀ key bytes, state.block key = some bytes → bytes ∈ used

variable {sha1 : Bytes → Fin 20 → UInt8} {used : Set Bytes} {state : BbState Path}
  {lines : List Line} {entries : Path → List (Option Nat)} {files : Files Path}
  {ids : Path → List Nat} {blocks : Path → List Bytes} {path : Path}

theorem patchRecords_inside {Record : Type} (filler : Record) {records : List Record}
    {index : Nat} (inside : index ≤ records.length) (new : List Record) :
    patchRecords filler records index new =
      records.take index ++ (new ++ records.drop (index + new.length)) := by
  by_cases empty : new = []
  · simp [patchRecords, empty]
  · rw [patchRecords, if_neg empty, Nat.sub_eq_zero_of_le inside]
    simp

theorem blocksOf_whole {buf : Bytes} (zeroFree : 0 ∉ buf) :
    ∀ block ∈ blocksOf buf, Whole block := by
  intro block member
  refine ⟨recordsOf_uniform 4096 buf block member, ?_⟩
  rcases List.mem_map.mp member with ⟨i, _, rfl⟩
  exact fun zero => zeroFree (List.mem_of_mem_drop (List.mem_of_mem_take zero))

theorem blocksOf_flatten {buf : Bytes} (aligned : 4096 ∣ buf.length) :
    (blocksOf buf).flatten = buf := recordsOf_flatten (by decide) aligned

theorem found_of_hashes (injective : Set.InjOn (getHash sha1) used) {block : Int → Option Bytes}
    {ids : List Nat} {blocks : List Bytes}
    (hashes : ids.map (fun id : Nat => (block id).map (getHash sha1)) =
      blocks.map fun block => some (getHash sha1 block))
    (stored : ∀ key bytes, block key = some bytes → bytes ∈ used)
    (blocksUsed : ∀ block ∈ blocks, block ∈ used) :
    ids.map (fun id : Nat => block id) = blocks.map some := by
  induction ids generalizing blocks with
  | nil => rw [List.map_eq_nil_iff.mp hashes.symm, List.map_nil, List.map_nil]
  | cons id ids induction =>
      cases blocks with
      | nil => cases hashes
      | cons first blocks =>
          rw [List.map_cons, List.map_cons] at hashes
          rcases List.cons.inj hashes with ⟨here, there⟩
          rcases Option.map_eq_some_iff.mp here with ⟨bytes, found, same⟩
          have equal : bytes = first := injective (stored _ bytes found)
            (blocksUsed first List.mem_cons_self) same
          rw [List.map_cons, List.map_cons, found, equal, induction there
            fun other member => blocksUsed other (List.mem_cons_of_mem _ member)]

theorem Backed.mknod (backed : Backed used state entries files ids blocks)
    {state' : BbState Path} (free : path ∉ state.names)
    (names : state'.names = insert path state.names)
    (storage : state'.toStorage = state.toStorage) :
    Backed used state' (Function.update entries path []) (files.step (.mknod path))
      (Function.update ids path []) (Function.update blocks path []) := by
  have blockSame : state'.block = state.block := congrArg Storage.block storage
  have cases : ∀ other ∈ state'.names, other = path ∨ other ≠ path ∧ other ∈ state.names := by
    intro other member
    rw [names] at member
    rcases Finset.mem_insert.mp member with same | old
    · exact .inl same
    · exact .inr ⟨fun equal => free (equal ▸ old), old⟩
  refine ⟨by rw [names, backed.names]; rfl, ?_, ?_, ?_, ?_, ?_⟩
  · intro other member
    rcases cases other member with rfl | ⟨different, old⟩
    · simp
    · simpa only [Function.update_of_ne different] using backed.entries other old
  · intro other member
    rcases cases other member with rfl | ⟨different, old⟩
    · simp [Files.step]
    · simpa only [Files.step, Function.update_of_ne different] using backed.data other old
  · intro other member
    rcases cases other member with rfl | ⟨different, old⟩
    · simp
    · simpa only [Function.update_of_ne different] using backed.whole other old
  · intro other member
    rw [blockSame]
    rcases cases other member with rfl | ⟨different, old⟩
    · simp
    · simpa only [Function.update_of_ne different] using backed.found other old
  · rw [blockSame]
    exact backed.stored

theorem Backed.small (volume : VolumeInvariant sha1 state lines entries)
    (backed : Backed used state entries files ids blocks) (member : path ∈ state.names) :
    ∀ id ∈ ids path, id < 1000 := fun id present =>
  volume.small member id (backed.entries path member ▸ List.mem_map_of_mem present)

theorem Backed.mem_references (backed : Backed used state entries files ids blocks)
    {names : Finset Path} (subset : names ⊆ state.names) (member : path ∈ names) {id : Nat}
    (present : id ∈ ids path) : id ∈ references names entries := by
  rw [references_split member, backed.entries path (subset member), reduceOption_map_some]
  exact Multiset.mem_add.mpr (.inl (Multiset.mem_coe.mpr present))

omit [DecidableEq Path] in
theorem Backed.lengths (backed : Backed used state entries files ids blocks)
    (member : path ∈ state.names) :
    (ids path).length = (blocks path).length ∧
      (files.data path).length = 4096 * (ids path).length := by
  have same : (ids path).length = (blocks path).length := by
    simpa using congrArg List.length (backed.found path member)
  refine ⟨same, ?_⟩
  rw [backed.data path member,
    flatten_length fun block present => (backed.whole path member block present).1, same]

/-- Where no file has a hole, a legal call whose blocks can be stored is careful. -/
theorem Backed.careful (volume : VolumeInvariant sha1 state lines entries)
    (backed : Backed used state entries files ids blocks)
    (nonzero : ∀ block ∈ used, getHash sha1 block ≠ zeroHash) {op : Op Path}
    (legal : files.Legal used op) (storable : Storable sha1 state op) :
    Admissible state.names op ∧ Careful sha1 state op := by
  cases op with
  | mknod path => exact ⟨backed.names ▸ legal, trivial⟩
  | write path buf offset =>
      rcases legal with ⟨member, _, aligned, offsetAligned, _, limit, zeroFree, blocksUsed⟩
      rw [← backed.names] at member
      have text : overwritten state path buf offset =
          idText (((ids path).drop (offset / 4096)).take (buf.length / 4096)) := by
        rw [overwritten, volume.files path member, Nat.mul_comm, Nat.mul_comm (buf.length / 4096),
          slice_entriesText (volume.small member), backed.entries path member, ← List.map_drop,
          ← List.map_take, entriesText_ids]
      refine ⟨⟨member, aligned, offsetAligned, limit, zeroFree⟩, ?_,
        fun block present => nonzero block (blocksUsed block present), storable.1, storable.2⟩
      rw [text]
      exact noIdAfterHole_idText fun id present => backed.small volume member id
        (List.mem_of_mem_drop (List.mem_of_mem_take present))
  | unlink path =>
      have member : path ∈ state.names := backed.names ▸ legal
      refine ⟨member, ?_⟩
      rw [Careful, volume.files path member, backed.entries path member, entriesText_ids]
      exact noIdAfterHole_idText (backed.small volume member)

theorem Backed.write (volume : VolumeInvariant sha1 state lines entries)
    (backed : Backed used state entries files ids blocks)
    (injective : Set.InjOn (getHash sha1) used) {buf : Bytes} {offset : Nat}
    (legal : files.Legal used (.write path buf offset))
    (careful : Careful sha1 state (.write path buf offset)) :
    ∃ state' lines' entries' ids' blocks',
      bbStep sha1 state (.write path buf offset) = some state' ∧
      VolumeInvariant sha1 state' lines' entries' ∧
      Backed used state' entries' (files.step (.write path buf offset)) ids' blocks' := by
  rcases legal with ⟨member, _, aligned, offsetAligned, inside, limit, zeroFree, blocksUsed⟩
  rw [← backed.names] at member
  rcases backed.lengths member with ⟨sameLength, dataLength⟩
  have uniform : ∀ block ∈ blocks path, block.length = 4096 := fun block present =>
    (backed.whole path member block present).1
  have newWhole := blocksOf_whole zeroFree
  have index : offset / 4096 ≤ (ids path).length := by omega
  rcases volume.write ⟨member, aligned, offsetAligned, limit, zeroFree⟩ careful with
    ⟨new, middle, state', lines', returned, names, width, released, pushed, volume'⟩
  have kept : ∀ id ∈ leftOver (entries path) (offset / 4096) (buf.length / 4096) +
      references (state.names.erase path) entries, state'.block id = state.block id := by
    rw [← references_sub_writtenOver member]
    exact fun id present => (pushed.kept id present).trans (released.kept id present)
  have keptHere : ∀ part : List Nat, (∀ id ∈ part, id ∈ leftOver (entries path) (offset / 4096)
      (buf.length / 4096)) → part.map (fun id : Nat => state'.block id) =
        part.map fun id : Nat => state.block id := fun part all =>
    List.map_congr_left fun id present => kept id (Multiset.mem_add.mpr (.inl (all id present)))
  have leftIds : leftOver (entries path) (offset / 4096) (buf.length / 4096) =
      ((ids path).take (offset / 4096) : Multiset Nat) +
        ((ids path).drop (offset / 4096 + buf.length / 4096) : Multiset Nat) := by
    rw [leftOver, backed.entries path member, ← List.map_take, ← List.map_drop,
      reduceOption_map_some, reduceOption_map_some]
  have stored : ∀ key bytes, state'.block key = some bytes → bytes ∈ used := by
    intro key bytes found
    rcases pushed.origin key bytes found with old | ⟨block, present, rfl⟩
    · exact backed.stored key bytes (released.origin key bytes old)
    · rw [contents_of_zero_free (newWhole block present).2]
      exact blocksUsed block present
  refine ⟨state', lines', _,
    Function.update ids path (patchRecords 0 (ids path) (offset / 4096) new),
    Function.update blocks path (patchRecords [] (blocks path) (offset / 4096) (blocksOf buf)),
    returned, volume', ?_⟩
  have patchedIds := patchRecords_inside 0 index new
  have patchedBlocks := patchRecords_inside [] (sameLength ▸ index) (blocksOf buf)
  refine ⟨names.trans backed.names, ?_, ?_, ?_, ?_, stored⟩
  · intro other otherMember
    rw [names] at otherMember
    by_cases same : other = path
    · subst same
      have mapped := patchRecords_inside none (show offset / 4096 ≤ ((ids other).map some).length by
        rwa [List.length_map]) (new.map some)
      rw [Function.update_self, Function.update_self, backed.entries other member, mapped,
        patchedIds]
      simp
    · simpa only [Function.update_of_ne same] using backed.entries other otherMember
  · intro other otherMember
    rw [names] at otherMember
    by_cases same : other = path
    · subst same
      simp only [Files.step, Function.update_self]
      have text := patch_flatten uniform (by decide) (offset / 4096)
        fun block present => (newWhole block present).1
      rw [Nat.mul_div_cancel' offsetAligned, blocksOf_flatten aligned,
        patchRecords_inside _ (sameLength ▸ index), ← patchedBlocks] at text
      rw [backed.data other member, text]
    · simpa only [Files.step, Function.update_of_ne same] using backed.data other otherMember
  · intro other otherMember
    rw [names] at otherMember
    by_cases same : other = path
    · subst same
      rw [Function.update_self, patchedBlocks]
      intro block present
      rcases List.mem_append.mp present with early | late
      · exact backed.whole other member block (List.mem_of_mem_take early)
      · rcases List.mem_append.mp late with fresh | late
        · exact newWhole block fresh
        · exact backed.whole other member block (List.mem_of_mem_drop late)
    · simpa only [Function.update_of_ne same] using backed.whole other otherMember
  · intro other otherMember
    rw [names] at otherMember
    by_cases same : other = path
    · subst same
      have found := backed.found other member
      have newFound := found_of_hashes injective pushed.found stored blocksUsed
      have blockCount := blocksOf_length buf
      simp only [Function.update_self]
      rw [patchedIds, patchedBlocks]
      simp only [List.map_append]
      rw [keptHere _ fun id present => leftIds ▸ Multiset.mem_add.mpr (.inl present),
        newFound, width, blockCount,
        keptHere _ fun id present => leftIds ▸ Multiset.mem_add.mpr (.inr present)]
      rw [List.map_take, found, List.map_take, List.map_drop, found, List.map_drop]
    · simp only [Function.update_of_ne same]
      rw [← backed.found other otherMember]
      refine List.map_congr_left fun id present => kept id (Multiset.mem_add.mpr (.inr ?_))
      exact backed.mem_references (Finset.erase_subset _ _)
        (Finset.mem_erase.mpr ⟨same, otherMember⟩) present

theorem Backed.unlink (volume : VolumeInvariant sha1 state lines entries)
    (backed : Backed used state entries files ids blocks) (member : path ∈ state.names)
    (careful : Careful sha1 state (.unlink path)) :
    ∃ state' lines' entries', bbStep sha1 state (.unlink path) = some state' ∧
      VolumeInvariant sha1 state' lines' entries' ∧
      Backed used state' entries' (files.step (.unlink path)) ids blocks := by
  rcases volume.unlink member careful with ⟨state', returned, names, released, volume'⟩
  have kept : ∀ id ∈ references (state.names.erase path) entries,
      state'.block id = state.block id := by
    intro id present
    apply released.kept
    rwa [references_split member, add_tsub_cancel_left]
  have old : ∀ {other}, other ∈ state'.names → other ∈ state.names := fun otherMember =>
    Finset.mem_of_mem_erase (names ▸ otherMember)
  refine ⟨state', _, entries, returned, volume', ?_, ?_, ?_, ?_, ?_, ?_⟩
  · rw [names, backed.names]
    rfl
  · exact fun other otherMember => backed.entries other (old otherMember)
  · exact fun other otherMember => backed.data other (old otherMember)
  · exact fun other otherMember => backed.whole other (old otherMember)
  · intro other otherMember
    rw [← backed.found other (old otherMember)]
    refine List.map_congr_left fun id present => kept id ?_
    exact backed.mem_references (Finset.erase_subset _ _) (names ▸ otherMember) present
  · exact fun key bytes found => backed.stored key bytes (released.origin key bytes found)

theorem Backed.step (volume : VolumeInvariant sha1 state lines entries)
    (backed : Backed used state entries files ids blocks)
    (injective : Set.InjOn (getHash sha1) used)
    (nonzero : ∀ block ∈ used, getHash sha1 block ≠ zeroHash) {op : Op Path}
    (legal : files.Legal used op) (storable : Storable sha1 state op) :
    ∃ state' lines' entries' ids' blocks', bbStep sha1 state op = some state' ∧
      VolumeInvariant sha1 state' lines' entries' ∧
      Backed used state' entries' (files.step op) ids' blocks' := by
  rcases backed.careful volume nonzero legal storable with ⟨admissible, careful⟩
  cases op with
  | mknod path =>
      rcases volume.mknod admissible with ⟨state', returned, names, storage, volume'⟩
      exact ⟨state', lines, _, _, _, returned, volume',
        backed.mknod admissible.1 names storage⟩
  | write path buf offset => exact backed.write volume injective legal careful
  | unlink path =>
      rcases backed.unlink volume admissible careful with
        ⟨state', lines', entries', returned, volume', backed'⟩
      exact ⟨state', lines', entries', ids, blocks, returned, volume', backed'⟩

theorem Backed.run (injective : Set.InjOn (getHash sha1) used)
    (nonzero : ∀ block ∈ used, getHash sha1 block ≠ zeroHash) (ops : List (Op Path)) :
    ∀ {state : BbState Path} {lines entries files ids blocks},
      VolumeInvariant sha1 state lines entries →
      Backed used state entries files ids blocks → files.LegalRun used ops →
      Along sha1 (Storable sha1) state ops →
      ∃ state' lines' entries' ids' blocks', bbRun sha1 ops state = some state' ∧
        VolumeInvariant sha1 state' lines' entries' ∧
        Backed used state' entries' (files.run ops) ids' blocks' := by
  induction ops with
  | nil =>
      intro state lines entries files ids blocks volume backed _ _
      exact ⟨state, lines, entries, ids, blocks, rfl, volume, backed⟩
  | cons op ops induction =>
      intro state lines entries files ids blocks volume backed legal storable
      rcases backed.step volume injective nonzero legal.1 storable.1 with
        ⟨next, lines₁, entries₁, ids₁, blocks₁, returned, volume₁, backed₁⟩
      rcases induction volume₁ backed₁ legal.2 (storable.2 next returned) with
        ⟨final, lines₂, entries₂, ids₂, blocks₂, returned₂, volume₂, backed₂⟩
      exact ⟨final, lines₂, entries₂, ids₂, blocks₂,
        by rw [bbRun, returned, Option.bind_some, returned₂], volume₂, backed₂⟩

omit [DecidableEq Path] in
theorem Backed.init : Backed used (bbInit : BbState Path) (fun _ => []) Files.empty
    (fun _ => []) fun _ => [] where
  names := rfl
  entries := by simp [bbInit]
  data := by simp [bbInit]
  whole := by simp [bbInit]
  found := by simp [bbInit]
  stored := by simp [bbInit, initStorage]

theorem Backed.read (volume : VolumeInvariant sha1 state lines entries)
    (backed : Backed used state entries files ids blocks) (member : path ∈ state.names)
    {offset size : Nat} (fresh : Fresh) (offsetAligned : 4096 ∣ offset) (aligned : 4096 ∣ size)
    (inside : offset + size ≤ (files.data path).length) :
    bbRead state path size offset fresh = some (slice (files.data path) offset size) := by
  rcases offsetAligned with ⟨index, rfl⟩
  rcases aligned with ⟨count, rfl⟩
  rcases backed.lengths member with ⟨-, dataLength⟩
  have text : state.idFile path = idText (ids path) := by
    rw [volume.files path member, backed.entries path member, entriesText_ids]
  have short := volume.short path member
  rw [backed.entries path member, List.length_map] at short
  rw [backed.data path member]
  exact bbRead_blocks member text (backed.small volume member) (backed.found path member)
    (backed.whole path member) short (by omega) fresh

/-- After every legal run on which the blocks that are written can be printed and the ledger
has room for them, reading whole blocks gives the bytes of the reference file system. -/
theorem read_after_write (injective : Set.InjOn (getHash sha1) used)
    (nonzero : ∀ block ∈ used, getHash sha1 block ≠ zeroHash) (ops : List (Op Path))
    (legal : Files.LegalRun used Files.empty ops)
    (storable : Along sha1 (Storable sha1) (bbInit : BbState Path) ops) :
    ∃ state, bbRun sha1 ops (bbInit : BbState Path) = some state ∧
      ∀ path ∈ (Files.run Files.empty ops).names, ∀ offset size fresh,
        4096 ∣ offset → 4096 ∣ size →
        offset + size ≤ ((Files.run Files.empty ops).data path).length →
        bbRead state path size (offset : Nat) fresh =
          some (slice ((Files.run Files.empty ops).data path) offset size) := by
  rcases Backed.run injective nonzero ops .init .init legal storable with
    ⟨state, lines, entries, ids, blocks, returned, volume, backed⟩
  refine ⟨state, returned, fun path member offset size fresh offsetAligned aligned inside => ?_⟩
  exact backed.read volume (backed.names ▸ member) fresh offsetAligned aligned inside

end

theorem read_after_write_oneFile :
    ∃ state, bbRun sha1OfBlocks [.mknod (), .write () (filled (4096 * 1) 97) (4096 * 0)]
        (bbInit : BbState Unit) = some state ∧
      ∀ fresh, bbRead state () 4096 (0 : Nat) fresh = some (filled 4096 97) := by
  have member : ∀ block ∈ blocksOf (filled (4096 * 1) 97), block ∈ ({filled 4096 97} : Set Bytes) :=
    fun block present => by
      rw [blocksOf_filled] at present
      exact List.eq_of_mem_replicate present
  have width := filled_length (4096 * 1) 97
  have legal : Files.LegalRun {filled 4096 97} (Files.empty : Files Unit)
      [.mknod (), .write () (filled (4096 * 1) 97) (4096 * 0)] :=
    ⟨by simp [Files.Legal, Files.empty], ⟨Finset.mem_insert_self _ _, by omega, by omega,
      by decide, Nat.zero_le _, by omega, filled_zero_free _ (by decide), member⟩, trivial⟩
  have roomy := @oneFile_roomy Unit _ () 1 0 97 (by decide) (by decide +kernel)
  have storable : Along sha1OfBlocks (Storable sha1OfBlocks) (bbInit : BbState Unit)
      [.mknod (), .write () (filled (4096 * 1) 97) (4096 * 0)] := by
    refine ⟨⟨trivial, trivial⟩, fun state made => ?_⟩
    rw [bbStep_mknod_init] at made
    obtain rfl := Option.some.inj made
    exact ⟨⟨filled_printable (by decide), roomy⟩, fun _ _ => trivial⟩
  have nonzero : ∀ block ∈ ({filled 4096 97} : Set Bytes),
      getHash sha1OfBlocks block ≠ zeroHash := by
    rintro _ rfl
    rw [getHash_filled (by decide)]
    decide +kernel
  rcases read_after_write (Set.injOn_singleton _ _) nonzero
    [.mknod (), .write () (filled (4096 * 1) 97) (4096 * 0)] legal storable with
    ⟨state, returned, read⟩
  have data : (Files.run Files.empty
      [.mknod (), .write () (filled (4096 * 1) 97) (4096 * 0)]).data () = filled 4096 97 := by
    simp only [Files.run, List.foldl, Files.step, Function.update_self]
    exact patch_atEnd [] _
  refine ⟨state, returned, fun fresh => ?_⟩
  have whole := read () (by simp [Files.run, Files.step]) 0 4096 fresh (by simp) (by simp)
    (by rw [data]; simp)
  rwa [data, slice_filled 97 (by decide)] at whole

/-! ## Ten references -/

/-- A ledger with a single line whose counter ends in zero gives it to any other hash. -/
theorem Acquire.single_taken {hash : Hash} {line : Line} {lines' : List Line} {index : Nat}
    {isNew : Bool} (acquired : Acquire hash [line] index isNew lines')
    (different : line.hash ≠ hash) (multiple : line.counter % 10 = 0) :
    index = 0 ∧ isNew = true := by
  have single : ∀ {before : List Line} {first : Line} {after : List Line},
      [line] = before ++ first :: after → before = [] ∧ line = first := by
    intro before first after split
    cases before with
    | nil => exact ⟨rfl, (List.cons.inj split).1⟩
    | cons head before => simp at split
  generalize split : [line] = lines at acquired
  cases acquired with
  | shared before first after _ equal =>
      rcases single split with ⟨rfl, rfl⟩
      exact absurd equal different
  | reused before first after _ _ _ =>
      rcases single split with ⟨rfl, rfl⟩
      exact ⟨rfl, rfl⟩
  | appended lines _ taken =>
      subst split
      exact absurd multiple (taken line (List.mem_singleton_self line))

theorem bbWrite_first {Path : Type} [DecidableEq Path] (sha1 : Bytes → Fin 20 → UInt8)
    {state : BbState Path} {path : Path} (member : path ∈ state.names)
    (empty : state.idFile path = []) {buf : Bytes} (width : buf.length = 4096)
    (plain : noConversion (contents buf)) {id : Nat}
    {final : Storage} (stored : pushBlock sha1 buf state.toStorage = some (((id : Nat) : Int), final))
    (fits : id < 1000) :
    bbStep sha1 state (.write path buf 0) =
      some ({ state with toStorage := final }.withIdFile path (idText [id])) := by
  have small : ∀ other ∈ [id], other < 1000 := by simpa using fits
  have oldText := getOverwrittenBlocks_aligned (state.idFile path) buf.length 0
  rw [empty, slice, List.drop_nil, List.take_nil] at oldText
  have nothing : removeBlocks [] state.toStorage = (0, state.toStorage) := rfl
  have block : segment buf buf.length base (0 : Nat) = buf := by
    rw [show ((base : Nat) : Int) = 4096 from rfl, segment_eq_slice buf (by rw [width]; decide),
      slice, ← width]
    simp
  have compressed : compressBuffer sha1 buf (buf.length : Nat) state.toStorage base =
      some (idText [id], final) := by
    have one : buf.length / 4096 = 0 + 1 := by
      rw [width]
    have printed := (@fprintf_eq_some_iff _ ()).mpr plain
    rw [compressBuffer_aligned (by rw [width]) state.toStorage, one, compressBufferLoop, block,
      stored]
    simp only [printed, Option.bind_eq_bind, Option.bind_some, compressBufferLoop,
      List.nil_append]
    rw [show sprintfDecimal 3 ((id : Nat) : Int) = zeroPadded 3 id from rfl]
    simp [idText]
  have place : getNewOffset (0 : Nat) base = (0 : Nat) := rfl
  have size : getSize (idText [id]) = (idText [id]).length := by
    rw [getSize, strlen_of_zero_free (idText_zero_free small)]
  rw [bbStep, bbWrite, if_pos member]
  simp only [toInt32_of_lt (show buf.length < 2 ^ 31 by omega), toInt32_of_lt (show 0 < 2 ^ 31 by decide),
    empty, oldText, Option.bind_eq_bind, Option.bind_some, nothing, compressed, place, size,
    Option.pure_def, Option.map_some]
  rw [if_neg (by decide), List.take_length, Int.toNat_natCast]
  exact congrArg some (congrArg (BbState.withIdFile _ path) (patch_atEnd [] _))

/-- The first file's ten blocks are one block of the storage directory. -/
theorem tenReferences :
    ∃ written : BbState Bool, bbStep sha1OfBlocks (oneFile false)
        (.write false (filled (4096 * 10) 97) (4096 * 0)) = some written ∧
      written.names = {false} ∧ written.idFile false = idText (List.replicate 10 1) ∧
      ∃ line : Line, line.hash.text = getHash sha1OfBlocks [97] ∧ line.counter = 10 ∧
        StoreInvariant sha1OfBlocks written.toStorage [line] := by
  have admissible := @oneFile_admissible _ _ false 10 0 97 (by decide) (by decide)
  have careful := @oneFile_careful _ _ false 10 0 97 (by decide) (by decide) (by decide +kernel)
    (by decide +kernel)
  rcases (oneFile_volume false).write admissible careful with
    ⟨ids, middle, written, lines, returned, names, width, released, pushed, volume⟩
  have table : tableOf lines = [⟨getHash sha1OfBlocks [97], 10⟩] := by
    have acquired := pushed.table
    rw [blocksOf_filled 10, List.map_replicate, getHash_filled (by decide)] at acquired
    rw [acquired]
    decide +kernel
  rcases List.map_eq_singleton_iff.mp table with ⟨line, rfl, slot⟩
  have member : false ∈ written.names := by simp [names, oneFile]
  have tenOnes : ids = List.replicate 10 1 := by
    refine List.eq_replicate_iff.mpr ⟨by rw [width, filled_length], fun id present => ?_⟩
    have bounds := pushed.counts.inside id
      (Multiset.mem_add.mpr (.inl (Multiset.mem_coe.mpr present)))
    rw [tableOf_length, List.length_singleton] at bounds
    omega
  have text := volume.files false member
  rw [Function.update_self, Function.update_self, patchRecords_inside none (Nat.zero_le _),
    List.take_nil, List.drop_nil, List.append_nil, List.nil_append, entriesText_ids, tenOnes] at text
  exact ⟨written, returned, names, text, line, congrArg Slot.key slot,
    congrArg Slot.references slot, volume.holds⟩

/-- Ten references end in the digit zero: the next block that is new takes the line
and the block file of the first. -/
theorem tenReferences_taken :
    ∃ state : BbState Bool, bbRun sha1OfBlocks [.mknod false,
        .write false (filled (4096 * 10) 97) (4096 * 0), .mknod true,
        .write true (filled 4096 98) 0] bbInit = some state ∧
      false ∈ state.names ∧ state.idFile false = idText (List.replicate 10 1) ∧
      state.block 1 = some (filled 4096 98) := by
  rcases tenReferences with ⟨written, returned, names, text, line, hash, counter, holds⟩
  have otherHash : getHash sha1OfBlocks (filled 4096 98) = getHash sha1OfBlocks [98] :=
    getHash_filled (by decide)
  have nonzero : getHash sha1OfBlocks (filled 4096 98) ≠ zeroHash := by
    rw [otherHash]
    decide +kernel
  rcases holds.pushBlock_returns (filled 4096 98) nonzero with
    ⟨index, isNew, lines', final, stored, acquired, blocks, -, -⟩
  have different : line.hash ≠ blockHash sha1OfBlocks (filled 4096 98) := by
    intro same
    have texts : line.hash.text = getHash sha1OfBlocks (filled 4096 98) :=
      congrArg Hash.text same
    rw [hash, otherHash] at texts
    revert texts
    decide +kernel
  rcases acquired.single_taken different (by rw [counter]) with ⟨rfl, rfl⟩
  let made : BbState Bool := { written with
    names := insert true written.names
    idFile := Function.update written.idFile true [] }
  have madeReturned : bbStep sha1OfBlocks written (.mknod true) = some made := by
    rw [bbStep, bbMknod, if_neg (by simp [names])]
  have empty : made.idFile true = [] := by simp [made]
  have plain : noConversion (contents (filled 4096 98)) :=
    @filled_printable 1 98 (by decide) _ (blocksOf_filled 1 98 ▸ List.mem_singleton_self _)
  have last := @bbWrite_first Bool _ sha1OfBlocks made true (Finset.mem_insert_self _ _)
    empty (filled 4096 98) (filled_length _ _) plain 1 final stored (by decide)
  refine ⟨{ made with toStorage := final }.withIdFile true (idText [1]), ?_, ?_, ?_, ?_⟩
  · rw [bbRun, bbStep_mknod_init, Option.bind_some, bbRun, returned, Option.bind_some, bbRun,
      madeReturned, Option.bind_some, bbRun, last]
    rfl
  · simp [made, BbState.withIdFile, names]
  · simpa [made, BbState.withIdFile] using text
  · have block : final.block 1 = some (contents (filled 4096 98)) := by
      rw [blocks]
      simp [pushBlocks]
    rw [contents_of_zero_free (filled_zero_free _ (by decide))] at block
    exact block

/-- The first file is ten times one block, the second is another block; then the
first file reads as that block. -/
theorem other_file_overwrites :
    ∃ (used : Set Bytes) (ops : List (Op Bool)) (state : BbState Bool),
      Set.InjOn (getHash sha1OfBlocks) used ∧
      (∀ block ∈ used, getHash sha1OfBlocks block ≠ zeroHash) ∧
      Files.LegalRun used Files.empty ops ∧ bbRun sha1OfBlocks ops bbInit = some state ∧
      ∃ path ∈ (Files.run Files.empty ops).names, ∃ offset size,
        4096 ∣ offset ∧ 4096 ∣ size ∧
        offset + size ≤ ((Files.run Files.empty ops).data path).length ∧
        ∀ fresh, bbRead state path size (offset : Nat) fresh ≠
          some (slice ((Files.run Files.empty ops).data path) offset size) := by
  rcases tenReferences_taken with ⟨state, returned, member, text, block⟩
  have hashA : getHash sha1OfBlocks (filled 4096 97) = getHash sha1OfBlocks [97] :=
    getHash_filled (by decide)
  have hashB : getHash sha1OfBlocks (filled 4096 98) = getHash sha1OfBlocks [98] :=
    getHash_filled (by decide)
  have data : (Files.run Files.empty [.mknod false,
      .write false (filled (4096 * 10) 97) (4096 * 0), .mknod true,
      .write true (filled 4096 98) 0]).data false = filled (4096 * 10) 97 := by
    simp only [Files.run, List.foldl, Files.step, Function.update_self,
      Function.update_of_ne Bool.false_ne_true]
    exact patch_atEnd [] _
  have widthA := filled_length (4096 * 10) 97
  have widthB := filled_length 4096 98
  refine ⟨{filled 4096 97, filled 4096 98}, _, state, ?_, ?_, ?_, returned, false, ?_, 0, 4096,
    by decide, by decide, by rw [data]; omega, fun fresh same => ?_⟩
  · rintro left (rfl | rfl) right (rfl | rfl) equal
    · rfl
    · rw [hashA, hashB] at equal
      revert equal
      decide +kernel
    · rw [hashA, hashB] at equal
      revert equal
      decide +kernel
    · rfl
  · rintro _ (rfl | rfl)
    · rw [hashA]
      decide +kernel
    · rw [hashB]
      decide +kernel
  · refine ⟨by simp [Files.Legal, Files.empty], ⟨Finset.mem_insert_self _ _, by omega, by omega,
      by decide, Nat.zero_le _, by omega, filled_zero_free _ (by decide), ?_⟩,
      by simp [Files.Legal, Files.step, Files.empty], ⟨Finset.mem_insert_self _ _, by omega,
      by omega, by decide, Nat.zero_le _, by omega, filled_zero_free _ (by decide), ?_⟩, trivial⟩
    · intro other present
      rw [blocksOf_filled] at present
      exact .inl (List.eq_of_mem_replicate present)
    · intro other present
      rw [← Nat.mul_one 4096, blocksOf_filled] at present
      exact .inr (List.eq_of_mem_replicate present)
  · simp [Files.run, Files.step, Files.empty]
  · have found : (List.replicate 10 1).map (fun id : Nat => state.block id) =
        (List.replicate 10 (filled 4096 98)).map some := by
      rw [List.map_replicate, List.map_replicate]
      exact congrArg (List.replicate 10) block
    have read := @bbRead_blocks Bool _ state false member (List.replicate 10 1)
      (List.replicate 10 (filled 4096 98)) text (by decide) found
      (fun other present => by
        rw [List.eq_of_mem_replicate present]
        exact ⟨filled_length _ _, filled_zero_free _ (by decide)⟩) (by decide) 0 1 (by decide) fresh
    have delivered : slice (List.replicate 10 (filled 4096 98)).flatten 0 4096 =
        filled 4096 98 := by
      rw [List.replicate_succ, List.flatten_cons, slice, List.drop_zero,
        List.take_append_of_le_length (by omega), List.take_of_length_le (by omega)]
    rw [data, slice_filled 97 (by decide)] at same
    have differ := Option.some.inj (same.symm.trans (read.trans (congrArg some delivered)))
    have heads := congrArg List.head? differ
    simp [filled] at heads

end CE321.Dedup
