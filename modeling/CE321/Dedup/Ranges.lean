import CE321.Dedup.Counters
import CE321.Dedup.Sizes

/-! # Reading a range of a file

`readFile` starts at the block of the offset and `bb_read` delivers from the first byte
it put together, so a range inside a block is delivered from the start of the
block, and a range past the end of the file gets its last block again.
-/

namespace CE321.Dedup

open CString ByteFile

def fileBytes (block : Int → Option Bytes) (ids : List Nat) : Bytes :=
  (ids.map fun id : Nat => (block id).getD []).flatten

/-- The range needs a block whose file is missing. -/
def MissesBlock (block : Int → Option Bytes) (ids : List Nat) (size offset : Nat) : Prop :=
  0 < size ∧ ∃ index id, ids[index]? = some id ∧ block (id : Nat) = none ∧
    offset < 4096 * (index + 1) ∧ 4096 * index < offset + size

/-- Where `bb_read` delivers the range of a file that has all its blocks. A range from a
block of the file on must not pass the end of the file unless it starts with the
first byte, its data must fit an `int`, and, if it starts inside a block, the bytes
from the start of the block must happen to be the same. Behind the last block, the
ID left in the buffer must not name a block. -/
def RangeRight (block : Int → Option Bytes) (ids : List Nat) (size offset : Nat)
    (fresh : Fresh) : Prop :=
  if firstBlock offset < ids.length then
    0 ≤ toInt32 (4096 * ids.length : Nat) ∧
      min size (toInt32 (4096 * ids.length : Nat)).toNat =
        min size (4096 * ids.length - offset) ∧
      slice (fileBytes block ids) (4096 * firstBlock offset)
          (min size (4096 * ids.length - offset)) =
        slice (fileBytes block ids) offset (min size (4096 * ids.length - offset))
  else
    match block (atoi (fresh.idChar.take 4)) with
    | none => True
    | some data =>
        let total := ((List.range ids.length).map fun i => (blockText 4096 fresh i data).length).sum
        0 ≤ toInt32 total ∧ (size = 0 ∨ toInt32 total = 0)

theorem firstBlock_le (offset : Nat) : 4096 * firstBlock offset ≤ offset := by
  have below := toInt32_le (show 0 ≤ (offset : Int) by omega)
  have quotient := tdiv_cases (toInt32 offset)
  rw [firstBlock]
  omega

theorem length_mapIdx_replicate (fresh : Fresh) (count : Nat) (data : Bytes) :
    ((List.replicate count data).mapIdx fun j data =>
        blockText 4096 fresh (0 + j) data).flatten.length =
      ((List.range count).map fun i => (blockText 4096 fresh i data).length).sum := by
  rw [List.length_flatten]
  congr 1
  apply List.ext_getElem?
  intro index
  rw [List.getElem?_map, List.getElem?_mapIdx, List.getElem?_map]
  by_cases inside : index < count
  · rw [List.getElem?_replicate_of_lt inside, List.getElem?_range inside, Nat.zero_add]
    rfl
  · rw [List.getElem?_eq_none (by simpa using inside), List.getElem?_eq_none (by simpa using inside)]
    rfl

section

variable {Path : Type} [DecidableEq Path] {state : BbState Path} {path : Path}
  {ids : List Nat} {size offset : Nat} {fresh : Fresh}

def bbReadResult (state : BbState Path) (path : Path) (size : Nat) (offset : Int)
    (fresh : Fresh) : Option Int :=
  (bbRead state path size offset fresh).map fun bytes => (bytes.length : Int)

def DeliversRange (state : BbState Path) (path : Path) (ids : List Nat) (size offset : Nat)
    (fresh : Fresh) : Prop :=
  ∃ bytes, bbRead state path size offset fresh = some bytes ∧
    bytes.length = min size (4096 * ids.length - offset) ∧
    bytes = slice (fileBytes state.block ids) offset size

/-- `bb_read` delivers the range if all blocks of the file are there, and reports an error
if one that the range needs is missing. -/
def ReadsRange (state : BbState Path) (path : Path) (ids : List Nat) (size offset : Nat)
    (fresh : Fresh) : Prop :=
  ((∀ id ∈ ids, state.block (id : Nat) ≠ none) →
    DeliversRange state path ids size offset fresh) ∧
  (MissesBlock state.block ids size offset →
    ∃ error < 0, bbReadResult state path size offset fresh = some error)

section

variable (member : path ∈ state.names) (text : state.idFile path = idText ids)
  (small : ∀ id ∈ ids, id < 1000)
  (whole : ∀ id ∈ ids, ∀ data, state.block (id : Nat) = some data → Whole data)
  (all : ∀ id ∈ ids, state.block (id : Nat) ≠ none)
include member text small whole all

omit [DecidableEq Path] member text small in
theorem fileBlocks_found :
    ids.map (fun id : Nat => state.block id) =
        (ids.map fun id : Nat => (state.block id).getD []).map some ∧
      ∀ block ∈ ids.map fun id : Nat => (state.block id).getD [], Whole block := by
  have present : ∀ id ∈ ids, state.block id = some ((state.block (id : Nat)).getD []) := by
    intro id idMember
    rcases Option.ne_none_iff_exists'.mp (all id idMember) with ⟨data, found⟩
    rw [found, Option.getD_some]
  constructor
  · rw [List.map_map]
    exact List.map_congr_left present
  · intro block blockMember
    rcases List.mem_map.mp blockMember with ⟨id, idMember, rfl⟩
    exact whole id idMember _ (present id idMember)

theorem delivers_inside (inside : firstBlock offset < ids.length) :
    DeliversRange state path ids size offset fresh ↔
      RangeRight state.block ids size offset fresh := by
  rcases fileBlocks_found whole all with ⟨found, wholeBlocks⟩
  have read := bbRead_whole member text small found wholeBlocks size inside fresh
  have uniform : ∀ block ∈ ids.map fun id : Nat => (state.block id).getD [], block.length = 4096 :=
    fun block present => (wholeBlocks block present).1
  have blockCount : (ids.map fun id : Nat => (state.block id).getD []).length = ids.length :=
    List.length_map _
  have bytesLength := flatten_length uniform
  have readLength := flatten_length fun block
      (present : block ∈ visited (ids.map fun id : Nat => (state.block id).getD [])
        (firstBlock offset) []) =>
    uniform block (mem_visited (blockCount.symm ▸ inside) _ present)
  have start := firstBlock_le offset
  have below := toInt32_le (show 0 ≤ ((4096 * ids.length : Nat) : Int) by omega)
  have aligned := @visited_flatten_take _ uniform (firstBlock offset)
    (min size (4096 * ids.length - offset)) (by rw [blockCount]; omega)
  rw [visited_length, blockCount] at readLength
  rw [blockCount] at bytesLength
  rw [RangeRight, if_pos inside, DeliversRange, read, fileBytes]
  generalize (visited (ids.map fun id : Nat => (state.block id).getD [])
    (firstBlock offset) []).flatten = data at *
  generalize (ids.map fun id : Nat => (state.block id).getD []).flatten = whole at *
  generalize toInt32 (4096 * ids.length : Nat) = dataSize at *
  have delivered : (data.take dataSize.toNat).take size = data.take (min size dataSize.toNat) :=
    List.take_take
  have wanted : slice whole offset size =
      slice whole offset (min size (4096 * ids.length - offset)) := by
    rw [slice, slice, List.take_eq_take_iff, List.length_drop]
    omega
  rw [delivered, wanted]
  constructor
  · rintro ⟨bytes, returned, length, equal⟩
    split at returned
    · cases returned
    · next nonnegative =>
        obtain rfl := Option.some.inj returned
        have sizes : min size dataSize.toNat = min size (4096 * ids.length - offset) := by
          rw [List.length_take] at length
          omega
        refine ⟨by omega, sizes, ?_⟩
        rw [← aligned, ← sizes, equal, sizes]
  · rintro ⟨nonnegative, sizes, same⟩
    rw [if_neg (by omega)]
    refine ⟨_, rfl, ?_, ?_⟩
    · rw [List.length_take]
      omega
    · rw [sizes, aligned, same]

theorem delivers_beyond (notEmpty : ids ≠ []) (beyond : ids.length ≤ firstBlock offset) :
    DeliversRange state path ids size offset fresh ↔
      RangeRight state.block ids size offset fresh := by
  rcases fileBlocks_found whole all with ⟨_, wholeBlocks⟩
  have bytesLength := flatten_length fun block present => (wholeBlocks block present).1
  rw [List.length_map] at bytesLength
  have start := firstBlock_le offset
  have positive := List.length_pos_of_ne_nil notEmpty
  have nothing : slice (fileBytes state.block ids) offset size = [] := by
    rw [slice, fileBytes, List.drop_eq_nil_of_le (by omega), List.take_nil]
  have expected : DeliversRange state path ids size offset fresh ↔
      bbRead state path size offset fresh = some [] := by
    rw [DeliversRange, nothing, show 4096 * ids.length - offset = 0 by omega]
    constructor
    · rintro ⟨bytes, returned, _, rfl⟩
      exact returned
    · exact fun returned => ⟨[], returned, by simp, rfl⟩
  have recordCount : (ids.map fun id => zeroPadded 3 id ++ [10]).length = ids.length :=
    List.length_map _
  rw [expected, RangeRight, if_neg (by omega), bbRead_eq member (text.trans (idText_records ids))
    (idRecord_length small) (by simpa using notEmpty), visited_beyond (recordCount.trans_le beyond),
    recordCount]
  cases left : state.block (atoi (fresh.idChar.take 4)) with
  | none =>
      rw [recordTexts_missing (List.mem_replicate.mpr ⟨by omega, rfl⟩) left]
      have listLength := flatten_length (idRecord_length small)
      rw [recordCount] at listLength
      simp only [Int.toNat_natCast, iff_true]
      rw [slice, List.drop_eq_nil_of_le (by omega), List.take_nil]
  | some data =>
      have datas : (List.replicate ids.length (fresh.idChar.take 4)).map
          (fun record => state.block (atoi record)) =
          (List.replicate ids.length data).map some := by
        rw [List.map_replicate, List.map_replicate, left]
      have total := length_mapIdx_replicate fresh ids.length data
      rw [recordTexts_found datas]
      simp only [total]
      have below := toInt32_le (show 0 ≤ (((List.range ids.length).map fun i =>
        (blockText 4096 fresh i data).length).sum : Int) by omega)
      generalize ((List.range ids.length).map fun i => (blockText 4096 fresh i data).length).sum =
        length at *
      generalize ((List.replicate ids.length data).mapIdx fun j data =>
        blockText 4096 fresh (0 + j) data).flatten = delivered at *
      generalize toInt32 length = dataSize at *
      constructor
      · intro returned
        split at returned
        · cases returned
        · have empty := congrArg List.length (Option.some.inj returned)
          rw [List.length_take, List.length_take, List.length_nil] at empty
          omega
      · rintro ⟨nonnegative, none⟩
        rw [if_neg (by omega), Option.some.injEq]
        apply List.eq_nil_of_length_eq_zero
        rw [List.length_take, List.length_take]
        omega

end

theorem no_error : ¬∃ error < 0, bbReadResult state path size offset fresh = some error := by
  rintro ⟨error, negative, returned⟩
  rcases Option.map_eq_some_iff.mp returned with ⟨bytes, _, rfl⟩
  omega

/-- `bb_read` of a range is right if and only if no block that the range needs is missing
and, where all blocks of the file are there, the range is one of those that
`RangeRight` describes. -/
theorem readsRange_iff (state : BbState Path) (path : Path) (member : path ∈ state.names)
    (ids : List Nat) (text : state.idFile path = idText ids) (notEmpty : ids ≠ [])
    (small : ∀ id ∈ ids, id < 1000)
    (whole : ∀ id ∈ ids, ∀ data, state.block (id : Nat) = some data → Whole data)
    (size offset : Nat) (fresh : Fresh) :
    ReadsRange state path ids size offset fresh ↔
      ¬MissesBlock state.block ids size offset ∧
        ((∀ id ∈ ids, state.block (id : Nat) ≠ none) →
          RangeRight state.block ids size offset fresh) := by
  have delivers : ∀ all : ∀ id ∈ ids, state.block (id : Nat) ≠ none,
      DeliversRange state path ids size offset fresh ↔
        RangeRight state.block ids size offset fresh := by
    intro all
    rcases Nat.lt_or_ge (firstBlock offset) ids.length with inside | beyond
    · exact delivers_inside member text small whole all inside
    · exact delivers_beyond member text small whole all notEmpty beyond
  constructor
  · rintro ⟨delivered, refused⟩
    exact ⟨fun misses => no_error (refused misses), fun all => (delivers all).mp (delivered all)⟩
  · rintro ⟨complete, right⟩
    exact ⟨fun all => (delivers all).mpr (right all), fun misses => absurd misses complete⟩

end

/-! ## A file of one whole block -/

theorem fileOfAs_whole : ∀ id ∈ [1], ∀ data,
    (fileOf (filled 4096 97)).block (id : Nat) = some data → Whole data := by
  intro id member data found
  obtain rfl : id = 1 := by simpa using member
  obtain rfl := Option.some.inj found
  exact ⟨filled_length _ _, filled_zero_free _ (by decide)⟩

theorem fileOfAs_all : ∀ id ∈ [1], (fileOf (filled 4096 97)).block (id : Nat) ≠ none := by
  intro id member
  obtain rfl : id = 1 := by simpa using member
  exact Option.some_ne_none _

theorem readsRange_iff_first :
    ReadsRange (fileOf (filled 4096 97)) () [1] 4096 0 zeroFresh := by
  apply (readsRange_iff (fileOf (filled 4096 97)) () (by simp [fileOf]) [1] rfl (by decide)
    (by decide) fileOfAs_whole 4096 0 zeroFresh).mpr
  constructor
  · rintro ⟨_, index, id, there, missing, _⟩
    exact fileOfAs_all id (List.mem_of_getElem? there) missing
  · intro _
    rw [RangeRight, if_pos (by decide)]
    exact ⟨by decide, by decide, rfl⟩

/-- The range of 4096 bytes from the second byte on has 4095 bytes in the file, and all 4096
are delivered; a file whose block is missing is read as its ID list. -/
theorem readsRange_unaligned :
    ¬ReadsRange (fileOf (filled 4096 97)) () [1] 4096 1 zeroFresh ∧
      ¬ReadsRange { fileOf [] with block := fun _ => none } () [1] 4 0 zeroFresh := by
  constructor
  · rintro ⟨delivered, _⟩
    have right := (@delivers_inside Unit _ (fileOf (filled 4096 97)) () [1] 4096 1 zeroFresh
      (by simp [fileOf]) rfl (by decide) fileOfAs_whole fileOfAs_all (by decide)).mp
      (delivered fileOfAs_all)
    rw [RangeRight, if_pos (by decide)] at right
    have sizes := right.2.1
    revert sizes
    decide
  · rintro ⟨_, refused⟩
    exact no_error (refused ⟨by decide, 0, 1, rfl, rfl, by decide, by decide⟩)

end CE321.Dedup
