import CE321.Dedup.Pushes

/-! # Files that share blocks

The root directory as lists of references into the ledger, and what the calls of
the file system do to them.
-/

namespace CE321.Dedup

open CString RefTable

/-- A call of the file system. -/
inductive Op (Path : Type) where
  | mknod (path : Path)
  | write (path : Path) (buf : Bytes) (offset : Nat)
  | unlink (path : Path)

/-- The whole blocks of a buffer. -/
def blocksOf (buf : Bytes) : List Bytes :=
  (List.range (buf.length / 4096)).map fun i => slice buf (4096 * i) 4096

section

variable {Path : Type} [DecidableEq Path]

omit [DecidableEq Path] in
/-- No block that is written asks the diagnostic print for an argument. -/
def Op.Printable : Op Path → Prop
  | .write _ buf _ => ∀ block ∈ blocksOf buf, noConversion (contents block)
  | _ => True

section

variable (sha1 : Bytes → Fin 20 → UInt8)

def bbStep (state : BbState Path) : Op Path → Option (BbState Path)
  | .mknod path => bbMknod state path
  | .write path buf offset => (bbWrite sha1 state path buf buf.length offset).map Prod.snd
  | .unlink path => (bbUnlink state path).map Prod.snd

def bbRun : List (Op Path) → BbState Path → Option (BbState Path)
  | [], state => some state
  | op :: ops, state => (bbStep sha1 state op).bind (bbRun ops)

/-- The entries a write goes over. -/
def overwritten (state : BbState Path) (path : Path) (buf : Bytes) (offset : Nat) : Bytes :=
  slice (state.idFile path) (offset / 4096 * 4) (buf.length / 4096 * 4)

/-- The calls inside the limits: ten files, sixteen blocks in each of them, whole
blocks without zero bytes. -/
def Admissible (names : Finset Path) : Op Path → Prop
  | .mknod path => path ∉ names ∧ names.card < 10
  | .write path buf offset => path ∈ names ∧ 4096 ∣ buf.length ∧ 4096 ∣ offset ∧
      offset + buf.length ≤ 16 * 4096 ∧ 0 ∉ buf
  | .unlink path => path ∈ names

/-- The ledger without the references that a write releases has room for its blocks. -/
def Roomy (state : BbState Path) : Op Path → Prop
  | .write path buf offset => RoomForAll ((blocksOf buf).map (getHash sha1))
      (release (releasedIds (overwritten state path buf offset))
        (ledgerTable state.hashFile.data))
  | _ => True

/-- The calls on which the blocks can be stored. -/
def Storable (state : BbState Path) (op : Op Path) : Prop := op.Printable ∧ Roomy sha1 state op

/-- The calls on which the counters keep up: besides, no ID behind a hole is to be
released, and no block has the hash of the end line. -/
def Careful (state : BbState Path) : Op Path → Prop
  | .mknod _ => True
  | .write path buf offset =>
      NoIdAfterHole (overwritten state path buf offset) ∧
      (∀ block ∈ blocksOf buf, getHash sha1 block ≠ zeroHash) ∧
      (∀ block ∈ blocksOf buf, noConversion (contents block)) ∧
      Roomy sha1 state (.write path buf offset)
  | .unlink path => NoIdAfterHole (state.idFile path)

/-- Every call of a run is as asked in the state before it. -/
def Along (ok : BbState Path → Op Path → Prop) : BbState Path → List (Op Path) → Prop
  | _, [] => True
  | state, op :: ops =>
      ok state op ∧ ∀ state', bbStep sha1 state op = some state' → Along ok state' ops

def AdmissibleRun : BbState Path → List (Op Path) → Prop :=
  Along sha1 fun state op => Admissible state.names op

/-- Runs of admissible calls on which the counters keep up. -/
def CarefulRun : BbState Path → List (Op Path) → Prop :=
  Along sha1 fun state op => Admissible state.names op ∧ Careful sha1 state op

end

/-! ## References -/

def references (names : Finset Path) (entries : Path → List (Option Nat)) : Multiset Nat :=
  ∑ path ∈ names, ((entries path).reduceOption : Multiset Nat)

variable {names : Finset Path} {entries : Path → List (Option Nat)} {path : Path}

theorem references_split (member : path ∈ names) :
    references names entries =
      ((entries path).reduceOption : Multiset Nat) + references (names.erase path) entries :=
  (Finset.add_sum_erase names _ member).symm

theorem references_update_other (absent : path ∉ names) (list : List (Option Nat)) :
    references names (Function.update entries path list) = references names entries :=
  Finset.sum_congr rfl fun other member => by
    have different : other ≠ path := fun equal => absent (equal ▸ member)
    rw [Function.update_of_ne different]

theorem references_update (member : path ∈ names) (list : List (Option Nat)) :
    references names (Function.update entries path list) =
      (list.reduceOption : Multiset Nat) + references (names.erase path) entries := by
  rw [references_split member, Function.update_self,
    references_update_other (Finset.notMem_erase path names)]

omit [DecidableEq Path] in
theorem references_card_le (few : names.card ≤ 10)
    (short : ∀ path ∈ names, (entries path).length ≤ 16) :
    (references names entries).card ≤ 160 := by
  rw [references, Multiset.card_sum]
  calc ∑ path ∈ names, ((entries path).reduceOption : Multiset Nat).card
      ≤ names.card • 16 := Finset.sum_le_card_nsmul _ _ _ fun path member =>
        (List.reduceOption_length_le _).trans (short path member)
    _ ≤ 160 := by rw [smul_eq_mul]; omega

/-- The IDs a write of `count` blocks goes over. -/
def writtenOver (list : List (Option Nat)) (index count : Nat) : List Nat :=
  ((list.drop index).take count).reduceOption

/-- The IDs it leaves. -/
def leftOver (list : List (Option Nat)) (index count : Nat) : Multiset Nat :=
  (list.take index).reduceOption + (list.drop (index + count)).reduceOption

theorem reduceOption_split (list : List (Option Nat)) (index count : Nat) :
    (list.reduceOption : Multiset Nat) =
      (writtenOver list index count : Multiset Nat) + leftOver list index count := by
  have whole : list.reduceOption = (list.take index).reduceOption ++
      (writtenOver list index count ++ (list.drop (index + count)).reduceOption) := by
    rw [writtenOver, ← List.drop_drop, ← List.reduceOption_append, List.take_append_drop,
      ← List.reduceOption_append, List.take_append_drop]
  rw [whole, ← Multiset.coe_add, ← Multiset.coe_add, leftOver]
  abel

theorem references_sub_writtenOver (member : path ∈ names) (index count : Nat) :
    references names entries - (writtenOver (entries path) index count : Multiset Nat) =
      leftOver (entries path) index count + references (names.erase path) entries := by
  rw [references_split member, reduceOption_split _ index count, add_assoc,
    add_tsub_cancel_left]

theorem writtenOver_subset (member : path ∈ names) {index count id : Nat}
    (present : id ∈ writtenOver (entries path) index count) : id ∈ references names entries := by
  rw [references_split member]
  refine Multiset.mem_add.mpr (.inl ?_)
  rw [reduceOption_split _ index count]
  exact Multiset.mem_add.mpr (.inl (Multiset.mem_coe.mpr present))

theorem reduceOption_patch (list : List (Option Nat)) (index : Nat) (ids : List Nat) :
    ((patchRecords none list index (ids.map some)).reduceOption : Multiset Nat) =
      (ids : Multiset Nat) + leftOver list index ids.length := by
  have patched : (patchRecords none list index (ids.map some)).reduceOption =
      (list.take index).reduceOption ++ (ids ++ (list.drop (index + ids.length)).reduceOption) := by
    by_cases empty : ids = []
    · subst empty
      rw [patchRecords, if_pos (List.map_nil), List.nil_append, ← List.reduceOption_append,
        List.length_nil, Nat.add_zero, List.take_append_drop]
    · rw [patchRecords, if_neg (by simpa using empty)]
      simp only [List.reduceOption_append, List.reduceOption_replicate_none,
        reduceOption_map_some, List.length_map, List.append_assoc, List.nil_append]
  rw [patched, ← Multiset.coe_add, ← Multiset.coe_add, leftOver]
  abel

/-! ## The invariant -/

/-- The state holds files with the given entries, and its ledger counts them. -/
structure VolumeInvariant (sha1 : Bytes → Fin 20 → UInt8) (state : BbState Path)
    (lines : List Line) (entries : Path → List (Option Nat)) : Prop where
  holds : StoreInvariant sha1 state.toStorage lines
  counts : Counts (tableOf lines) (references state.names entries)
  files : ∀ path ∈ state.names, state.idFile path = entriesText (entries path)
  few : state.names.card ≤ 10
  short : ∀ path ∈ state.names, (entries path).length ≤ 16

variable {sha1 : Bytes → Fin 20 → UInt8} {state : BbState Path} {lines : List Line}

omit [DecidableEq Path] in
theorem VolumeInvariant.init :
    VolumeInvariant sha1 (bbInit : BbState Path) [] fun _ => [] where
  holds := StoreInvariant.init sha1
  counts := Counts.nil
  files := by simp [bbInit]
  few := by simp [bbInit]
  short := by simp [bbInit]

theorem VolumeInvariant.small (volume : VolumeInvariant sha1 state lines entries)
    (member : path ∈ state.names) : Small (entries path) := by
  intro id present
  apply counts_small volume.holds volume.counts
  rw [references_split member]
  exact Multiset.mem_add.mpr (.inl (List.reduceOption_mem_iff.mpr present))

theorem VolumeInvariant.mknod (volume : VolumeInvariant sha1 state lines entries)
    (admissible : Admissible state.names (.mknod path)) :
    ∃ state', bbStep sha1 state (.mknod path) = some state' ∧
      state'.names = insert path state.names ∧ state'.toStorage = state.toStorage ∧
      VolumeInvariant sha1 state' lines (Function.update entries path []) := by
  rcases admissible with ⟨free, room⟩
  refine ⟨{ state with
      names := insert path state.names
      idFile := Function.update state.idFile path [] },
    by rw [bbStep, bbMknod, if_neg free], rfl, rfl, volume.holds, ?_, ?_, ?_, ?_⟩
  · have same := @references_update _ _ _ entries _ (Finset.mem_insert_self path state.names) []
    rw [Finset.erase_insert free] at same
    rw [same]
    simpa using volume.counts
  · intro other member
    rcases Finset.mem_insert.mp member with rfl | old
    · simp [entriesText]
    · have different : other ≠ path := fun equal => free (equal ▸ old)
      simp only [Function.update_of_ne different]
      exact volume.files other old
  · rw [Finset.card_insert_of_notMem free]
    exact room
  · intro other member
    rcases Finset.mem_insert.mp member with rfl | old
    · simp
    · have different : other ≠ path := fun equal => free (equal ▸ old)
      rw [Function.update_of_ne different]
      exact volume.short other old

/-! ## Writing and unlinking -/

theorem toInt32_of_lt {value : Nat} (small : value < 2 ^ 31) : toInt32 value = value := by
  rw [toInt32]
  exact Int.bmod_eq_of_le_mul_two (by omega) (by omega)

theorem toInt32_range (value : Int) :
    -2147483648 ≤ toInt32 value ∧ toInt32 value < 2147483648 := by
  have lower := @Int.le_bmod value (2 ^ 32) (by decide)
  have upper := @Int.bmod_lt value (2 ^ 32) (by decide)
  rw [toInt32]
  omega

theorem toInt32_emod (value : Int) : toInt32 value % 4294967296 = value % 4294967296 :=
  Int.bmod_emod

theorem toInt32_le {value : Int} (nonnegative : 0 ≤ value) : toInt32 value ≤ value := by
  have range := toInt32_range value
  have same := toInt32_emod value
  omega

theorem tdiv_cases (value : Int) :
    (0 ≤ value ∧ value.tdiv 4096 = value / 4096) ∨
      (value < 0 ∧ value.tdiv 4096 = -(-value / 4096)) := by
  rcases lt_or_ge value 0 with negative | nonnegative
  · have flipped : (-value).tdiv 4096 = -value / 4096 := Int.tdiv_eq_ediv_of_nonneg (by omega)
    rw [Int.neg_tdiv] at flipped
    exact .inr ⟨negative, by omega⟩
  · exact .inl ⟨nonnegative, Int.tdiv_eq_ediv_of_nonneg nonnegative⟩

theorem getOverwrittenBlocks_aligned (idFile : Bytes) (size offset : Nat) :
    getOverwrittenBlocks idFile size offset base =
      some (slice idFile (offset / 4096 * 4) (size / 4096 * 4)) := by
  have skip : (getNewOffset offset base).toNat = offset / 4096 * 4 := rfl
  have wanted : ((size : Int).tdiv base * 4).toNat = size / 4096 * 4 := rfl
  have nonnegative : ¬(size : Int).tdiv base * 4 + 1 < 0 := by
    have quotient : (size : Int).tdiv base = (size / 4096 : Nat) := rfl
    omega
  rw [getOverwrittenBlocks, if_neg nonnegative, skip, wanted]

/-- The number of entries that `bb_unlink` asks for. It multiplies by the block size in an
`int`, which leaves 20 bits for it, one of them for the sign. -/
def entriesAsked (count : Nat) : Int := (BitVec.ofNat 20 count).toInt

theorem entriesAsked_range (count : Nat) :
    -524288 ≤ entriesAsked count ∧ entriesAsked count < 524288 :=
  ⟨BitVec.le_toInt _, BitVec.toInt_lt⟩

theorem entriesAsked_emod (count : Nat) :
    entriesAsked count % 1048576 = (count : Int) % 1048576 := by
  rw [entriesAsked, BitVec.toInt_ofNat']
  exact Int.bmod_emod

theorem entriesAsked_of_lt {count : Nat} (few : count < 524288) : entriesAsked count = count := by
  have same := entriesAsked_emod count
  have range := entriesAsked_range count
  omega

theorem unlinkSize_eq (count : Nat) :
    toInt32 ((toInt32 (4 * count : Nat)).tdiv 4 * base) = 4096 * entriesAsked count := by
  have fileSize := toInt32_emod (4 * count : Nat)
  generalize toInt32 (4 * count : Nat) = value at *
  obtain ⟨whole, rfl⟩ : (4 : Int) ∣ value := by omega
  have baseValue : ((base : Nat) : Int) = 4096 := rfl
  rw [Int.mul_tdiv_cancel_left _ (by decide), baseValue]
  have product := toInt32_emod (whole * 4096)
  have range := toInt32_range (whole * 4096)
  generalize toInt32 (whole * 4096) = size at *
  have asked := entriesAsked_emod count
  have askedRange := entriesAsked_range count
  generalize entriesAsked count = entries at *
  have low : whole % 1073741824 = count % 1073741824 := by omega
  have same : size % 4294967296 = 4096 * entries % 4294967296 := by omega
  omega

/-- What `bb_unlink` gets of the list. For a negative number of bytes there is no memory. -/
theorem getOverwrittenBlocks_unlink {idFile : Bytes} {count : Nat}
    (width : idFile.length = 4 * count) :
    getOverwrittenBlocks idFile (toInt32 ((toInt32 idFile.length).tdiv 4 * base)) 0 base =
      if entriesAsked count < 0 then none
      else some (idFile.take (4 * (entriesAsked count).toNat)) := by
  have skip : (getNewOffset 0 base).toNat = 0 := rfl
  have baseValue : ((base : Nat) : Int) = 4096 := rfl
  rw [width, unlinkSize_eq, getOverwrittenBlocks, skip, baseValue,
    Int.mul_tdiv_cancel_left _ (by decide)]
  have request : entriesAsked count * 4 + 1 < 0 ↔ entriesAsked count < 0 := by omega
  have bytes : (entriesAsked count * 4).toNat = 4 * (entriesAsked count).toNat := by omega
  simp only [request, bytes, slice, List.drop_zero]

theorem getOverwrittenBlocks_whole {idFile : Bytes} (entries : 4 ∣ idFile.length)
    (short : idFile.length < 2097152) :
    getOverwrittenBlocks idFile (toInt32 ((toInt32 idFile.length).tdiv 4 * base)) 0 base =
      some idFile := by
  rcases entries with ⟨count, width⟩
  rw [getOverwrittenBlocks_unlink width, entriesAsked_of_lt (by omega), if_neg (by omega),
    Int.toNat_natCast, ← width, List.take_length]

theorem segment_eq_slice (buf : Bytes) {i : Nat} (inside : i < buf.length / 4096) :
    segment buf buf.length 4096 i = slice buf (4096 * i) 4096 := by
  have start : ((i : Int) * 4096).toNat = 4096 * i := by omega
  have width : (min (4096 : Int) (buf.length - i * 4096)).toNat = 4096 := by omega
  rw [segment, start, width, slice]

theorem blocksOf_eq_segments (buf : Bytes) :
    blocksOf buf = (List.range' 0 (buf.length / 4096)).map
      fun j => segment buf buf.length 4096 (j : Nat) := by
  rw [blocksOf, List.range_eq_range']
  apply List.map_congr_left
  intro i member
  rw [segment_eq_slice buf (by simpa using member)]

theorem blocksOf_length (buf : Bytes) : (blocksOf buf).length = buf.length / 4096 := by
  simp [blocksOf]

/-- `compressBuffer` runs its loop over the blocks of a buffer that leaves no rest. -/
theorem compressBuffer_aligned {buf : Bytes} (aligned : 4096 ∣ buf.length) (storage : Storage) :
    compressBuffer sha1 buf (buf.length : Nat) storage base =
      compressBufferLoop sha1 buf buf.length base (buf.length / 4096) 0 [] storage := by
  have quotient : (buf.length : Int).tdiv base = (buf.length / 4096 : Nat) := rfl
  have remainder : (buf.length : Int).tmod base = (buf.length % 4096 : Nat) := rfl
  have blocks : (buf.length : Int).tdiv base +
      (if (buf.length : Int).tmod base ≠ 0 then 1 else 0) = (buf.length / 4096 : Nat) := by
    rw [quotient, remainder, Nat.mod_eq_zero_of_dvd aligned]
    simp
  rw [compressBuffer]
  simp only [blocks]
  rw [if_neg (by omega), Int.toNat_natCast]

/-- `bb_write` releases the entries it goes over and puts references to its blocks in
their place. -/
theorem VolumeInvariant.write (volume : VolumeInvariant sha1 state lines entries)
    {buf : Bytes} {offset : Nat}
    (admissible : Admissible state.names (.write path buf offset))
    (careful : Careful sha1 state (.write path buf offset)) :
    let released := writtenOver (entries path) (offset / 4096) (buf.length / 4096)
    ∃ ids middle state' lines',
      bbStep sha1 state (.write path buf offset) = some state' ∧
      state'.names = state.names ∧ ids.length = buf.length / 4096 ∧
      Released sha1 released state.toStorage lines (references state.names entries) middle ∧
      PushedAll sha1 (blocksOf buf) middle (releaseLines released lines)
        (references state.names entries - (released : Multiset Nat)) ids state'.toStorage lines' ∧
      VolumeInvariant sha1 state' lines' (Function.update entries path
        (patchRecords none (entries path) (offset / 4096) (ids.map some))) := by
  intro released
  rcases admissible with ⟨member, aligned, offsetAligned, limit, zeroFree⟩
  rcases careful with ⟨noId, nonzero, plain, room⟩
  have small := volume.small member
  -- The entries that the write goes over.
  let seg := ((entries path).drop (offset / 4096)).take (buf.length / 4096)
  have segSmall : Small seg := fun id present =>
    small id (List.mem_of_mem_drop (List.mem_of_mem_take present))
  have segText : overwritten state path buf offset = entriesText seg := by
    rw [overwritten, volume.files path member, Nat.mul_comm, Nat.mul_comm (buf.length / 4096),
      slice_entriesText small]
  rw [segText] at noId
  have segIds : leadingIds seg = released := (noId.reduceOption segSmall).symm
  have held : ∀ id ∈ leadingIds seg, id ∈ references state.names entries := fun id present =>
    writtenOver_subset member (segIds ▸ present)
  rcases volume.holds.released volume.counts segSmall held with ⟨middle, removed, afterRelease⟩
  rw [segIds] at afterRelease
  have fewer : (references state.names entries - (released : Multiset Nat)).card ≤ 160 :=
    (Multiset.card_le_card (Multiset.sub_le_self _ _)).trans
      (references_card_le volume.few volume.short)
  rw [Roomy, segText, releasedIds_entriesText segSmall, segIds,
    ledgerTable_ledgerText volume.holds.text volume.holds.small, ← tableOf_release] at room
  rcases compressBufferLoop_pushes buf buf.length 4096
    (buf.length / 4096) 0 [] middle _ _ (blocksOf buf) (blocksOf_eq_segments buf)
    afterRelease.holds afterRelease.counts plain nonzero room (by omega) with
    ⟨ids, final, lines', stored, pushed⟩
  have width : ids.length = buf.length / 4096 := by
    have same := congrArg List.length pushed.found
    simpa [blocksOf_length] using same
  have idsSmall : ∀ id ∈ ids, id < 1000 := fun id present =>
    counts_small pushed.holds pushed.counts
      (Multiset.mem_add.mpr (.inl (Multiset.mem_coe.mpr present)))
  have compressed : compressBuffer sha1 buf (buf.length : Nat) middle base =
      some (idText ids, final) :=
    (compressBuffer_aligned aligned middle).trans stored
  have written : bbStep sha1 state (.write path buf offset) = some ({ state with
      toStorage := final }.withIdFile path (entriesText (patchRecords none (entries path)
        (offset / 4096) (ids.map some)))) := by
    have place : getNewOffset (offset : Int) base = (offset / 4096 * 4 : Nat) := rfl
    have size : getSize (idText ids) = (idText ids).length := by
      rw [getSize, strlen_of_zero_free (idText_zero_free idsSmall)]
    have sizeFits : buf.length < 2 ^ 31 := by omega
    have offsetFits : offset < 2 ^ 31 := by omega
    have oldText := getOverwrittenBlocks_aligned (state.idFile path) buf.length offset
    rw [show slice (state.idFile path) (offset / 4096 * 4) (buf.length / 4096 * 4) =
      entriesText seg from segText] at oldText
    rw [bbStep, bbWrite, if_pos member]
    simp only [toInt32_of_lt sizeFits, toInt32_of_lt offsetFits, oldText, Option.bind_eq_bind,
      Option.bind_some, removed, compressed, place, size, Option.pure_def, Option.map_some]
    rw [if_neg (by omega), List.take_length, Int.toNat_natCast, volume.files path member,
      Nat.mul_comm, patch_entriesText small _ idsSmall]
  refine ⟨ids, middle, _, lines', written, rfl, width, afterRelease, pushed, pushed.holds,
    ?_, ?_, volume.few, ?_⟩
  · have counts := pushed.counts
    rw [references_sub_writtenOver member, ← add_assoc, ← width, ← reduceOption_patch, ← references_update member] at counts
    exact counts
  · intro other otherMember
    by_cases same : other = path
    · subst same
      simp [BbState.withIdFile]
    · simp only [BbState.withIdFile, Function.update_of_ne same]
      exact volume.files other otherMember
  · intro other otherMember
    by_cases same : other = path
    · subst same
      rw [Function.update_self]
      exact patchRecords_length _ _ (volume.short other otherMember) (by
        rw [List.length_map, width]
        omega)
    · rw [Function.update_of_ne same]
      exact volume.short other otherMember

theorem VolumeInvariant.unlink (volume : VolumeInvariant sha1 state lines entries)
    (member : path ∈ state.names) (careful : Careful sha1 state (.unlink path)) :
    let released := (entries path).reduceOption
    ∃ state', bbStep sha1 state (.unlink path) = some state' ∧
      state'.names = state.names.erase path ∧
      Released sha1 released state.toStorage lines (references state.names entries)
        state'.toStorage ∧
      VolumeInvariant sha1 state' (releaseLines released lines) entries := by
  intro released
  have small := volume.small member
  have text := volume.files path member
  have noId : NoIdAfterHole (entriesText (entries path)) := text ▸ careful
  have allIds : leadingIds (entries path) = released := (noId.reduceOption small).symm
  have split := @references_split _ _ _ entries _ member
  have held : ∀ id ∈ leadingIds (entries path), id ∈ references state.names entries :=
    fun id present => by
      rw [allIds] at present
      rw [split]
      exact Multiset.mem_add.mpr (.inl (Multiset.mem_coe.mpr present))
  rcases volume.holds.released volume.counts small held with ⟨final, removed, afterRelease⟩
  rw [allIds] at afterRelease
  have width := (congrArg List.length text).trans (entriesText_length small)
  have short := volume.short path member
  have whole := @getOverwrittenBlocks_whole (state.idFile path) ⟨_, width⟩ (by omega)
  rw [text] at whole
  refine ⟨{ state with toStorage := final, names := state.names.erase path }, ?_, rfl,
    afterRelease, afterRelease.holds, ?_, ?_, ?_, ?_⟩
  · rw [bbStep, bbUnlink, if_pos member]
    simp only [text, whole, Option.bind_eq_bind, Option.bind_some, removed, Option.pure_def,
      Option.map_some]
  · have counts := afterRelease.counts
    rw [split, add_tsub_cancel_left] at counts
    exact counts
  · exact fun other otherMember => volume.files other (Finset.mem_of_mem_erase otherMember)
  · exact (Finset.card_le_card (Finset.erase_subset _ _)).trans volume.few
  · exact fun other otherMember => volume.short other (Finset.mem_of_mem_erase otherMember)

end

end CE321.Dedup
