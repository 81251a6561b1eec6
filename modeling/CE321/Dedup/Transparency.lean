import CE321.Dedup.EveryRun
import CE321.Dedup.Gathering
import CE321.Dedup.Sizes
import CE321.Dedup.Truncation
import CE321.Dedup.ReadBack

/-! # What a first file gives back

One write to a fresh file of an empty store. Its bytes come back if and only if they are
whole blocks without a zero byte, fewer than fit in an `int`, every block can be printed as
a format, and every new block among them finds a free line.
-/

namespace CE321.Dedup

open CString ByteFile

/-! ## Records of one width -/

/-- Records that are as long together as they can be are so one by one. -/
theorem uniform_of_full {width : Nat} {records : List Bytes}
    (short : ∀ record ∈ records, record.length ≤ width)
    (full : records.flatten.length = width * records.length) :
    ∀ record ∈ records, record.length = width := by
  intro record member
  rcases List.append_of_mem member with ⟨before, after, rfl⟩
  have early := flatten_length_le fun other (present : other ∈ before) => short other (by simp [present])
  have late := flatten_length_le fun other (present : other ∈ after) => short other (by simp [present])
  have here := short record member
  simp only [List.flatten_append, List.flatten_cons, List.length_append, List.length_cons,
    Nat.mul_add, Nat.mul_one] at full
  omega

/-! ## What the rounds get -/

def onesFresh : Fresh := ⟨[], fun _ _ => 1⟩

/-- With no zero byte behind it, every block is read as a whole one. -/
theorem blockText_ones (i : Nat) {data : Bytes} (zeroFree : 0 ∉ data) (short : data.length ≤ 4096) :
    (blockText 4096 onesFresh i data).length = 4096 := by
  have free : 0 ∉ overlay ((List.range 4096).map (onesFresh.block i)) data := by
    intro zero
    rcases List.mem_append.mp zero with inside | behind
    · exact zeroFree inside
    · rcases List.mem_map.mp (List.mem_of_mem_drop behind) with ⟨j, _, equal⟩
      exact absurd equal (by simp [onesFresh])
  rw [blockText, List.take_of_length_le short, contents_of_zero_free free, overlay,
    List.length_append, List.length_drop, List.length_map, List.length_range]
  omega

/-! ## The first write -/

theorem patch_nil (bytes : Bytes) : patch [] 0 bytes = bytes := by
  rw [patch]
  split
  · next none => exact none.symm
  · simp

/-- The blocks that a buffer is cut into. The last one may be short. -/
def piecesOf (data : Bytes) (size : Int) : List Bytes :=
  (List.range' 0 (size.tdiv 4096 + if size.tmod 4096 ≠ 0 then 1 else 0).toNat).map
    fun j => segment data size 4096 (j : Nat)

section

variable {data : Bytes}

theorem pieces_count (count : Nat) :
    ((count : Int).tdiv 4096 + if (count : Int).tmod 4096 ≠ 0 then 1 else 0).toNat =
      (count + 4095) / 4096 := by
  have quotient : (count : Int).tdiv 4096 = (count / 4096 : Nat) := rfl
  have remainder : (count : Int).tmod 4096 = (count % 4096 : Nat) := rfl
  rw [quotient, remainder]
  split <;> omega

theorem piecesOf_length : (piecesOf data data.length).length = (data.length + 4095) / 4096 := by
  rw [piecesOf, List.length_map, List.length_range', pieces_count]

theorem mem_piecesOf {piece : Bytes} (member : piece ∈ piecesOf data data.length) :
    ∃ i, 4096 * i < data.length ∧ piece = slice data (4096 * i) 4096 := by
  rw [piecesOf, pieces_count] at member
  rcases List.mem_map.mp member with ⟨i, inRange, rfl⟩
  have bound := (List.mem_range'_1.mp inRange).2
  refine ⟨i, by omega, ?_⟩
  have start : ((i : Int) * 4096).toNat = 4096 * i := by omega
  rw [segment, start, slice, List.take_eq_take_iff, List.length_drop]
  omega

theorem piecesOf_aligned (aligned : 4096 ∣ data.length) :
    piecesOf data data.length = blocksOf data := by
  rw [piecesOf, pieces_count, blocksOf_eq_segments,
    show (data.length + 4095) / 4096 = data.length / 4096 by omega]

end

section

variable {sha1 : Bytes → Fin 20 → UInt8}

theorem idEntry_nat (ids : List Nat) : (ids.map fun id : Nat => (id : Int)).map idEntry =
    ids.map fun id => zeroPadded 3 id ++ [10] := by
  rw [List.map_map]
  rfl

theorem pushEach_entries (blocks : List Bytes) :
    ∀ {storage storage' : Storage} {ids : List Int},
    pushEach sha1 blocks storage = some (ids, storage') →
    ids.length = blocks.length ∧ ∀ entry ∈ ids.map idEntry, entry.length = 4 ∧ 0 ∉ entry := by
  induction blocks with
  | nil =>
      intro storage storage' ids returned
      rcases Prod.mk.inj (Option.some.inj returned) with ⟨rfl, _⟩
      simp
  | cons block blocks induction =>
      intro storage storage' ids returned
      simp only [pushEach, Option.bind_eq_bind, Option.bind_eq_some_iff] at returned
      rcases returned with ⟨⟨id, middle⟩, pushed, ⟨rest, final⟩, others, last⟩
      rcases Prod.mk.inj (Option.some.inj last) with ⟨rfl, _⟩
      rcases induction others with ⟨sameLength, entries⟩
      rcases sprintfDecimal_threeColumns (pushBlock_threeColumns pushed) with ⟨width, zeroFree⟩
      refine ⟨by simp [sameLength], ?_⟩
      intro entry member
      rcases List.mem_cons.mp member with rfl | member
      · exact ⟨by simp [idEntry, width], by simp [idEntry, zeroFree]⟩
      · exact entries entry member

variable {Path : Type} [DecidableEq Path] {state state' : BbState Path} {path : Path} {data : Bytes}
  {result : Int}

theorem first_write (empty : state.idFile path = []) (storage : state.toStorage = initStorage)
    (returned : bbWrite sha1 state path data data.length 0 = some (result, state')) :
    ∃ ids, pushEach sha1 (piecesOf data (toInt32 data.length)) initStorage =
        some (ids, state'.toStorage) ∧
      (∀ piece ∈ piecesOf data (toInt32 data.length), noConversion (contents piece)) ∧
      state'.names = state.names ∧ state'.idFile path = (ids.map idEntry).flatten := by
  rcases bbWrite_steps returned with
    ⟨idsToRemove, compressedBuf, final, overwritten, compressed, rfl⟩
  have nothing : idsToRemove = [] := by
    rw [getOverwrittenBlocks, empty] at overwritten
    split at overwritten
    · cases overwritten
    · rw [← Option.some.inj overwritten, slice, List.drop_nil, List.take_nil]
  have released : (removeBlocks idsToRemove state.toStorage).2 = initStorage := by
    rw [nothing, storage]
    rfl
  have zeroFree := (compressBuffer_width compressed).2
  have wholeBuffer : compressedBuf.take (getSize compressedBuf) = compressedBuf := by
    rw [getSize, strlen_of_zero_free zeroFree, List.take_length]
  have start : getNewOffset (toInt32 0) base = 0 := by decide
  have baseValue : ((base : Nat) : Int) = 4096 := rfl
  rw [released, compressBuffer, baseValue] at compressed
  rw [piecesOf]
  generalize ((toInt32 data.length).tdiv 4096 +
    if (toInt32 data.length).tmod 4096 ≠ 0 then 1 else 0) = nofBlocks at compressed ⊢
  split at compressed
  · cases compressed
  · have plain := compressBufferLoop_printed sha1 _ compressed
    rw [compressBufferLoop_eq sha1 _ _ _ _ _ _ _ plain] at compressed
    rcases Option.map_eq_some_iff.mp compressed with ⟨⟨ids, last⟩, pushed, same⟩
    rcases Prod.mk.inj same with ⟨text, rfl⟩
    refine ⟨ids, pushed, List.forall_mem_map.mpr plain, rfl, ?_⟩
    rw [wholeBuffer, start, if_neg (by decide), empty, Int.toNat_zero, patch_nil, ← text]
    simp only [BbState.withIdFile, Function.update_self, List.nil_append]

theorem first_write_returns (member : path ∈ state.names) (empty : state.idFile path = [])
    (storage : state.toStorage = initStorage) (small : data.length < 2 ^ 31)
    (plain : ∀ piece ∈ piecesOf data data.length, noConversion (contents piece)) {ids : List Nat}
    {final : Storage} (pushed : pushEach sha1 (piecesOf data data.length) initStorage =
      some (ids.map fun id : Nat => (id : Int), final)) :
    bbWrite sha1 state path data data.length 0 =
      some ((data.length : Int), { state with toStorage := final }.withIdFile path (idText ids)) := by
  have baseValue : ((base : Nat) : Int) = 4096 := rfl
  have size := toInt32_of_lt small
  have overwritten := getOverwrittenBlocks_aligned [] data.length 0
  rw [slice, List.drop_nil, List.take_nil] at overwritten
  have released : removeBlocks [] initStorage = (0, initStorage) := rfl
  have compressed : compressBuffer sha1 data data.length initStorage base =
      some (idText ids, final) := by
    have nonnegative := tdiv_cases data.length
    rw [compressBuffer, baseValue]
    rw [piecesOf] at pushed plain
    generalize (data.length : Int).tdiv 4096 = quotient at *
    rw [if_neg (by split <;> omega), compressBufferLoop_eq sha1 _ _ _ _ _ _ _
      (List.forall_mem_map.mp plain), pushed, Option.map_some, idEntry_nat, idText_records,
      List.nil_append]
  have zeroFree := (compressBuffer_width compressed).2
  have wholeBuffer : (idText ids).take (getSize (idText ids)) = idText ids := by
    rw [getSize, strlen_of_zero_free zeroFree, List.take_length]
  have start : getNewOffset (toInt32 0) base = 0 := by decide
  have atStart : toInt32 0 = ((0 : Nat) : Int) := by decide
  rw [bbWrite, if_pos member, storage, empty, size, start]
  simp only [atStart, overwritten, Option.bind_eq_bind, Option.bind_some, released, compressed,
    wholeBuffer, Int.toNat_zero, patch_nil, Option.pure_def]
  rfl

/-! ## Reading it back -/

theorem read_string {records : List Bytes} {fresh : Fresh} {size : Nat} {bytes : Bytes}
    (member : path ∈ state.names) (text : state.idFile path = records.flatten)
    (entries : ∀ entry ∈ records, entry.length = 4 ∧ 0 ∉ entry) (few : records.length < 2 ^ 29)
    (read : bbRead state path size 0 fresh = some bytes) : 0 ∉ bytes ∧ bytes.length < 2 ^ 31 := by
  have uniform : ∀ entry ∈ records, entry.length = 4 := fun entry present => (entries entry present).1
  have listFree : 0 ∉ records.flatten := flatten_zero_free fun entry present =>
    (entries entry present).2
  have part : ∀ whole : Bytes, 0 ∉ whole → 0 ∉ whole.take size := fun whole free zero =>
    free (List.mem_of_mem_take zero)
  have listPart : 0 ∉ slice records.flatten 0 size ∧
      (slice records.flatten 0 size).length < 2 ^ 31 := by
    have total := flatten_length uniform
    rw [slice, List.drop_zero, List.length_take]
    exact ⟨part _ listFree, by omega⟩
  by_cases empty : records = []
  · have nothing : bbRead state path size 0 fresh = some (slice records.flatten 0 size) := by
      rw [bbRead, if_pos member, text, empty]
      rfl
    rw [← Option.some.inj (nothing.symm.trans read)]
    exact listPart
  · rw [bbRead_eq member text uniform empty] at read
    split at read
    · rw [← Option.some.inj read]
      exact listPart
    · next texts returned =>
        split at read
        · cases read
        · rw [← Option.some.inj read]
          have range := (toInt32_range texts.flatten.length).2
          have textsFree : 0 ∉ texts.flatten := flatten_zero_free fun text present =>
            ((recordTexts_strings returned).2 text present).1
          refine ⟨part _ fun zero => textsFree (List.mem_of_mem_take zero), ?_⟩
          rw [List.length_take, List.length_take]
          omega

theorem read_found {records datas : List Bytes} (member : path ∈ state.names)
    (text : state.idFile path = records.flatten) (notEmpty : records ≠ [])
    (uniform : ∀ entry ∈ records, entry.length = 4) (few : records.length ≤ 524288)
    (found : records.map (fun record => state.block (atoi record)) = datas.map some)
    (strings : ∀ data ∈ datas, 0 ∉ data ∧ data.length ≤ 4096) {data : Bytes}
    (read : ∀ fresh size, data.length ≤ size → bbRead state path size 0 fresh = some data) :
    data.length = 4096 * records.length ∧ datas = recordsOf 4096 data := by
  have sameLength : records.length = datas.length := by simpa using congrArg List.length found
  have ofTexts : ∀ fresh, ∀ texts : List Bytes, recordTexts state.toStorage 4096 fresh 0 records =
      some texts → texts.flatten.length ≤ 4096 * records.length → data = texts.flatten := by
    intro fresh texts returned bound
    have range := toInt32_range texts.flatten.length
    have congruent := toInt32_emod texts.flatten.length
    have all := read fresh (data.length + 4096 * records.length) (Nat.le_add_right _ _)
    rw [bbRead_eq member text uniform notEmpty, firstBlock_zero, visited_zero, returned] at all
    simp only at all
    generalize toInt32 texts.flatten.length = dataSize at *
    split at all
    · cases all
    · rw [← Option.some.inj all, List.take_of_length_le, List.take_of_length_le]
      · omega
      · rw [List.length_take]
        omega
  have whole : data.length = 4096 * records.length := by
    have lengths : ∀ text ∈ datas.mapIdx fun j data => blockText 4096 onesFresh (0 + j) data,
        text.length = 4096 := by
      intro text present
      rcases List.mem_iff_getElem?.mp present with ⟨index, there⟩
      rw [List.getElem?_mapIdx] at there
      rcases Option.map_eq_some_iff.mp there with ⟨block, here, rfl⟩
      have string := strings block (List.mem_of_getElem? here)
      exact blockText_ones _ string.1 string.2
    have total := flatten_length lengths
    rw [List.length_mapIdx, ← sameLength] at total
    rw [ofTexts onesFresh _ (recordTexts_found found 0) total.le, total]
  have same := ofTexts zeroFresh datas (by
    rw [recordTexts_found found, mapIdx_blockText_strings (fun _ _ _ => rfl) strings]) (by
    have bound := flatten_length_le fun data present => (strings data present).2
    rwa [sameLength])
  refine ⟨whole, ?_⟩
  have uniformDatas := uniform_of_full (fun data present => (strings data present).2) (by
    rw [← same, whole, sameLength])
  rw [same, recordsOf_of_flatten uniformDatas (by decide)]

/-! ## The round trip -/

variable (sha1) in
/-- The bytes written come back, whatever is in the buffers, and their number is right. -/
def Transparent (state : BbState Path) (path : Path) (data : Bytes) : Prop :=
  ∃ result state', bbWrite sha1 state path data data.length 0 = some (result, state') ∧
    ∀ fresh, (∀ size, data.length ≤ size → bbRead state' path size 0 fresh = some data) ∧
      bbGetattr state' path fresh = some (data.length : Int)

/-- Every block has room when it is pushed after those before it. -/
def AllHaveRoom (blocks : List Bytes) : Prop :=
  ∀ before block after, blocks = before ++ block :: after → HasRoom before block

section

variable {used : Set Bytes} (member : path ∈ state.names) (empty : state.idFile path = [])
  (storage : state.toStorage = initStorage) (notEmpty : data ≠ [])
  (injective : Set.InjOn (getHash sha1) used)
  (nonzero : ∀ block ∈ used, getHash sha1 block ≠ zeroHash)
  (blocksUsed : ∀ i, 4096 * i < data.length → contents (slice data (4096 * i) 4096) ∈ used)

theorem pieces_legal (zeroFree : 0 ∉ data)
    (blocksUsed : ∀ i, 4096 * i < data.length → contents (slice data (4096 * i) 4096) ∈ used) :
    ∀ piece ∈ piecesOf data data.length, piece ∈ used ∧ 0 ∉ piece := by
  intro piece present
  rcases mem_piecesOf present with ⟨i, inside, rfl⟩
  have free : 0 ∉ slice data (4096 * i) 4096 := fun zero =>
    zeroFree (List.mem_of_mem_drop (List.mem_of_mem_take zero))
  have known := blocksUsed i inside
  rw [contents_of_zero_free free] at known
  exact ⟨known, free⟩

theorem allHaveRoom_single (block : Bytes) : AllHaveRoom [block] := by
  intro before other after split
  cases before with
  | nil => exact fun _ => ⟨by simp, by simp⟩
  | cons first before => simp at split

omit [DecidableEq Path] in
theorem mem_found {records : List Bytes}
    (all : ∀ record ∈ records, state.block (atoi record) ≠ none) : ∃ datas : List Bytes,
    records.map (fun record => state.block (atoi record)) = datas.map some := by
  refine ⟨records.map fun record => (state.block (atoi record)).getD [], ?_⟩
  rw [List.map_map]
  apply List.map_congr_left
  intro record present
  rcases Option.ne_none_iff_exists'.mp (all record present) with ⟨data, there⟩
  rw [Function.comp, there, Option.getD_some]

include injective nonzero in
theorem pushEach_found {blocks : List Bytes} (legal : ∀ block ∈ blocks, block ∈ used ∧ 0 ∉ block)
    (room : AllHaveRoom blocks) : ∃ (ids : List Nat) (final : Storage),
    pushEach sha1 blocks initStorage = some (ids.map fun id : Nat => (id : Int), final) ∧
      (∀ id ∈ ids, id < 1000) ∧ ids.map (fun id : Nat => final.block id) = blocks.map some := by
  rcases Gathered.init.pushEach_returns injective nonzero blocks legal room with
    ⟨kinds, final, lines, returned, _, gathered⟩
  have stored : ∀ block ∈ blocks, kinds.idxOf block < kinds.length := fun block present =>
    List.idxOf_lt_length_iff.mpr ((gathered.same block).mpr (by simpa using present))
  refine ⟨blocks.map fun block => kinds.idxOf block + 1, final, ?_, ?_, ?_⟩
  · rw [returned, List.map_map]
    rfl
  · intro id present
    rcases List.mem_map.mp present with ⟨block, blockPresent, rfl⟩
    have inside := stored block blockPresent
    have few := gathered.few
    omega
  · rw [List.map_map]
    apply List.map_congr_left
    intro block present
    have inside := stored block present
    apply gathered.stored
    rw [List.getElem?_eq_getElem inside, List.getElem_idxOf]

include member empty storage notEmpty injective nonzero blocksUsed

theorem Transparent.plain (transparent : Transparent sha1 state path data) :
    data.length < 2 ^ 31 ∧ 4096 ∣ data.length ∧ 0 ∉ data ∧
      (∀ block ∈ blocksOf data, noConversion (contents block)) ∧
      AllHaveRoom (blocksOf data) := by
  rcases transparent with ⟨result, state', returned, reads⟩
  have read : ∀ fresh size, data.length ≤ size → bbRead state' path size 0 fresh = some data :=
    fun fresh => (reads fresh).1
  rcases first_write empty storage returned with ⟨ids, pushed, plain, names, text⟩
  rcases pushEach_entries _ pushed with ⟨count, entries⟩
  have member' : path ∈ state'.names := names ▸ member
  have uniform : ∀ entry ∈ ids.map idEntry, entry.length = 4 := fun entry present =>
    (entries entry present).1
  have few : (ids.map idEntry).length < 2 ^ 29 := by
    have range := (tdiv_range data.length).2
    rw [List.length_map, count, piecesOf, List.length_map, List.length_range']
    generalize (toInt32 data.length).tdiv 4096 = quotient at *
    split <;> omega
  rcases read_string member' text entries few (read zeroFresh _ le_rfl) with ⟨zeroFree, small⟩
  have positive := List.length_pos_of_ne_nil notEmpty
  rw [toInt32_of_lt small] at pushed count plain
  rw [piecesOf_length] at count
  have legal := pieces_legal zeroFree blocksUsed
  have recordsNotEmpty : ids.map idEntry ≠ [] := by
    apply List.ne_nil_of_length_pos
    rw [List.length_map]
    omega
  have fit : BlocksFit state'.toStorage := by
    have none : BlocksFit initStorage := fun id data found => by cases found
    rcases bbWrite_steps returned with ⟨idsToRemove, _, _, _, compressed, rfl⟩
    rw [storage] at compressed
    exact (none.removeBlocks idsToRemove).compressBuffer compressed
  have found : ∃ datas : List Bytes,
      (ids.map idEntry).map (fun record => state'.block (atoi record)) = datas.map some := by
    apply mem_found
    intro record present missing
    have list : data = (ids.map idEntry).flatten := by
      have all := read zeroFresh (data.length + (ids.map idEntry).flatten.length)
        (Nat.le_add_right _ _)
      rw [bbRead_eq member' text uniform recordsNotEmpty, firstBlock_zero, visited_zero,
        recordTexts_missing present missing] at all
      rw [← Option.some.inj all, Int.toNat_zero, slice, List.drop_zero, List.take_of_length_le]
      exact Nat.le_add_left _ _
    have width := flatten_length uniform
    rw [← list, List.length_map] at width
    rcases List.length_eq_one_iff.mp (show (piecesOf data data.length).length = 1 by
      rw [piecesOf_length]; omega) with ⟨piece, single⟩
    rw [single] at pushed legal
    rcases pushEach_found injective nonzero legal (allHaveRoom_single piece) with
      ⟨nats, final, returned, smallIds, stored⟩
    rcases Prod.mk.inj (Option.some.inj (pushed.symm.trans returned)) with ⟨rfl, same⟩
    rw [same] at missing
    rw [idEntry_nat] at present
    have none : none ∈ [piece].map some := by
      rw [← idRecords_found smallIds stored, ← missing]
      exact List.mem_map_of_mem present
    simp at none
  rcases found with ⟨datas, found⟩
  have strings : ∀ data ∈ datas, 0 ∉ data ∧ data.length ≤ 4096 := by
    intro data present
    have stored : some data ∈ (ids.map idEntry).map (fun record => state'.block (atoi record)) :=
      found ▸ List.mem_map_of_mem present
    rcases List.mem_map.mp stored with ⟨record, _, equal⟩
    exact fit _ data equal
  rcases read_found member' text recordsNotEmpty uniform (by rw [List.length_map]; omega) found
    strings read with ⟨width, rfl⟩
  have aligned : 4096 ∣ data.length := ⟨_, width⟩
  rw [piecesOf_aligned aligned] at pushed legal plain
  refine ⟨small, aligned, zeroFree, plain, ?_⟩
  have tells := Gathered.init.pushEach_tells injective nonzero (blocksOf data)
    (fun id => state'.block (atoi (idEntry id))) legal pushed (by simp)
    (by rw [List.map_map] at found; exact found)
  exact tells

/-- One write to a fresh file of an empty store is read back as it was if and only if its bytes
are whole blocks, none of them is zero, they are fewer than `2 ^ 31`, no block asks `fprintf` for
an argument, and every block that comes for the first time has room. -/
theorem transparent_iff : Transparent sha1 state path data ↔
    data.length < 2 ^ 31 ∧ 4096 ∣ data.length ∧ 0 ∉ data ∧
      (∀ block ∈ blocksOf data, noConversion (contents block)) ∧
      AllHaveRoom (blocksOf data) := by
  refine ⟨Transparent.plain member empty storage notEmpty injective nonzero blocksUsed, ?_⟩
  rintro ⟨small, aligned, zeroFree, plain, room⟩
  have legal := pieces_legal zeroFree blocksUsed
  have pieces := piecesOf_aligned aligned
  rw [pieces] at legal
  rcases pushEach_found injective nonzero legal room with ⟨ids, final, pushed, smallIds, found⟩
  have positive := List.length_pos_of_ne_nil notEmpty
  have sameLength : ids.length = data.length / 4096 := by
    rw [← blocksOf_length]
    simpa using congrArg List.length found
  have total : 4096 * ids.length = data.length := by omega
  have whole := blocksOf_whole zeroFree
  have text : (({ state with toStorage := final } : BbState Path).withIdFile path
      (idText ids)).idFile path = idText ids := Function.update_self _ _ _
  have member' : path ∈ (({ state with toStorage := final } : BbState Path).withIdFile path
      (idText ids)).names := member
  refine ⟨_, _, first_write_returns member empty storage small (pieces.symm ▸ plain)
      (pieces.symm ▸ pushed),
    fun fresh => ⟨fun size enough => ?_, ?_⟩⟩
  · rw [bbRead_whole member' text smallIds found whole size (by
      rw [firstBlock_zero]
      omega), firstBlock_zero, visited_zero, total, toInt32_of_lt small, if_neg (by omega),
      blocksOf_flatten aligned, Int.toNat_natCast, List.take_length, List.take_of_length_le enough]
  · rw [bbGetattr_whole member' text smallIds found whole (by omega) (by omega) fresh, total]

end

end

/-! ## One block, and one byte -/

theorem transparent_iff_filled :
    Transparent sha1OfBlocks (oneFile ()) () (filled (4096 * 1) 97) := by
  have zeroFree := filled_zero_free (4096 * 1) (show (97 : UInt8) ≠ 0 by decide)
  have blocks := blocksOf_filled 1 97
  have notEmpty : filled (4096 * 1) 97 ≠ [] := by
    intro none
    have width := filled_length (4096 * 1) 97
    rw [none] at width
    cases width
  have injective : Set.InjOn (getHash sha1OfBlocks) {filled 4096 97} := Set.injOn_singleton _ _
  have nonzero : ∀ block ∈ ({filled 4096 97} : Set Bytes),
      getHash sha1OfBlocks block ≠ zeroHash := by
    rintro _ rfl
    rw [getHash_filled (by decide)]
    decide +kernel
  have blocksUsed : ∀ i, 4096 * i < (filled (4096 * 1) 97).length →
      contents (slice (filled (4096 * 1) 97) (4096 * i) 4096) ∈ ({filled 4096 97} : Set Bytes) := by
    intro i inside
    rw [filled_length] at inside
    rw [slice_filled 97 (by omega), contents_of_zero_free (filled_zero_free _ (by decide))]
    rfl
  apply (transparent_iff (by simp [oneFile]) (by simp [oneFile]) rfl notEmpty injective nonzero
    blocksUsed).mpr
  refine ⟨by simp, by simp, zeroFree, filled_printable (by decide), ?_⟩
  rw [blocks]
  exact allHaveRoom_single _

/-- One byte is read back with whatever stood behind it in the buffer. -/
theorem transparent_fails_byte : Set.InjOn (getHash sha1OfLetters) {[97], [98]} ∧
    (∀ block ∈ ({[97], [98]} : Set Bytes), getHash sha1OfLetters block ≠ zeroHash) ∧
    (∀ i, 4096 * i < ([97] : Bytes).length →
      contents (slice [97] (4096 * i) 4096) ∈ ({[97], [98]} : Set Bytes)) ∧
    ¬Transparent sha1OfLetters (oneFile ()) () [97] := by
  have blocksUsed : ∀ i, 4096 * i < ([97] : Bytes).length →
      contents (slice [97] (4096 * i) 4096) ∈ ({[97], [98]} : Set Bytes) := by
    intro i inside
    rw [List.length_singleton] at inside
    obtain rfl : i = 0 := by omega
    exact .inl rfl
  refine ⟨letters_injective, letters_nonzero, blocksUsed, fun transparent => ?_⟩
  have plain := transparent.plain (by simp [oneFile]) (by simp [oneFile]) rfl (by simp)
    letters_injective letters_nonzero blocksUsed
  have whole := plain.2.1
  revert whole
  decide

end CE321.Dedup
