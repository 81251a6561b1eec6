import CE321.Dedup.Volume

/-! # Reading the blocks of a file

`readFile` and `findRealSize` go through the same rounds: each reads an entry of the
ID list and the block it names. `readFile` makes one round for every entry of the
file, whatever the offset, so it passes the end of the list and reads the last
block again; `bb_read` cuts that off.
-/

namespace CE321.Dedup

open CString ByteFile RefTable

/-- A block as a file of the storage directory holds it. -/
def Whole (block : Bytes) : Prop := block.length = 4096 ∧ 0 ∉ block

theorem flatten_zero_free {blocks : List Bytes} (zeroFree : ∀ block ∈ blocks, 0 ∉ block) :
    0 ∉ blocks.flatten := by
  intro member
  rcases List.mem_flatten.mp member with ⟨block, blockMember, zero⟩
  exact zeroFree block blockMember zero

/-! ## The rounds of the two loops -/

/-- The string in a fresh block buffer after the contents of a block file were read. -/
def blockText (base : Nat) (fresh : Fresh) (i : Nat) (data : Bytes) : Bytes :=
  contents (overlay ((List.range base).map (fresh.block i)) (data.take base))

section

variable (storage : Storage) (base : Nat) (fresh : Fresh)

/-- The strings that the rounds get, or nothing where a block file is missing. -/
def roundTexts : (count : Nat) → (i : Nat) → ByteFile → (idChar : Bytes) → Option (List Bytes)
  | 0, _, _, _ => some []
  | count + 1, i, file, idChar => do
      let (received, file) := file.fread 4
      let idChar := overlay idChar received
      let newBlock ← readBlock storage (atoi idChar) base (fresh.block i)
      let texts ← roundTexts count (i + 1) file idChar
      pure (contents newBlock :: texts)

def recordTexts : (i : Nat) → (records : List Bytes) → Option (List Bytes)
  | _, [] => some []
  | i, record :: records => do
      let newBlock ← readBlock storage (atoi record) base (fresh.block i)
      let texts ← recordTexts (i + 1) records
      pure (contents newBlock :: texts)

theorem readFileLoop_eq (count : Nat) : ∀ (i : Nat) (file : ByteFile) (idChar acc : Bytes),
    readFileLoop storage base fresh count i file idChar acc =
      (roundTexts storage base fresh count i file idChar).map fun texts => acc ++ texts.flatten := by
  induction count with
  | zero =>
      intro i file idChar acc
      simp [readFileLoop, roundTexts]
  | succ count induction =>
      intro i file idChar acc
      rw [readFileLoop, roundTexts]
      simp only [induction, Option.bind_eq_bind, Option.pure_def]
      cases readBlock storage (atoi (overlay idChar (file.fread 4).1)) base (fresh.block i) with
      | none => rfl
      | some newBlock =>
          simp only [Option.bind_some]
          cases roundTexts storage base fresh count (i + 1) (file.fread 4).2
              (overlay idChar (file.fread 4).1) with
          | none => rfl
          | some texts => simp

theorem toInt32_add (left right : Int) :
    toInt32 (toInt32 left + right) = toInt32 (left + right) :=
  Int.bmod_add_bmod

theorem findRealSizeLoop_eq (count : Nat) : ∀ (i : Nat) (file : ByteFile) (idChar : Bytes)
    (totalBytes : Int), toInt32 totalBytes = totalBytes →
    findRealSizeLoop storage base fresh count i file idChar totalBytes =
      match roundTexts storage base fresh count i file idChar with
      | none => -2
      | some texts => toInt32 (totalBytes + texts.flatten.length) := by
  induction count with
  | zero =>
      intro i file idChar totalBytes wrapped
      simp [findRealSizeLoop, roundTexts, wrapped]
  | succ count induction =>
      intro i file idChar totalBytes wrapped
      rw [findRealSizeLoop, roundTexts]
      simp only [Option.bind_eq_bind, Option.pure_def]
      cases readBlock storage (atoi (overlay idChar (file.fread 4).1)) base (fresh.block i) with
      | none => rfl
      | some newBlock =>
          have again : toInt32 (toInt32 (totalBytes + strlen newBlock)) =
              toInt32 (totalBytes + strlen newBlock) := Int.bmod_bmod
          simp only [Option.bind_some, induction _ _ _ _ again]
          cases roundTexts storage base fresh count (i + 1) (file.fread 4).2
              (overlay idChar (file.fread 4).1) with
          | none => rfl
          | some texts =>
              simp only [Option.bind_some, toInt32_add, List.flatten_cons, List.length_append,
                strlen, Nat.cast_add, add_assoc]

variable {storage base fresh}

theorem recordTexts_append (before after : List Bytes) : ∀ i : Nat,
    recordTexts storage base fresh i (before ++ after) =
      (recordTexts storage base fresh i before).bind fun texts =>
        (recordTexts storage base fresh (i + before.length) after).map fun rest =>
          texts ++ rest := by
  induction before with
  | nil =>
      intro i
      simp [recordTexts]
  | cons record before induction =>
      intro i
      simp only [List.cons_append, recordTexts, induction, Option.bind_eq_bind, Option.pure_def,
        List.length_cons, Nat.add_right_comm i, ← Nat.add_assoc]
      cases readBlock storage (atoi record) base (fresh.block i) with
      | none => rfl
      | some newBlock =>
          simp only [Option.bind_some]
          cases recordTexts storage base fresh (i + 1) before with
          | none => rfl
          | some texts =>
              simp only [Option.bind_some]
              cases recordTexts storage base fresh (i + before.length + 1) after with
              | none => rfl
              | some rest => rfl

theorem recordTexts_found {records datas : List Bytes}
    (found : records.map (fun record => storage.block (atoi record)) = datas.map some) :
    ∀ i : Nat, recordTexts storage base fresh i records =
      some (datas.mapIdx fun j data => blockText base fresh (i + j) data) := by
  induction records generalizing datas with
  | nil =>
      intro i
      rw [List.map_eq_nil_iff.mp found.symm]
      rfl
  | cons record records induction =>
      intro i
      cases datas with
      | nil => cases found
      | cons data datas =>
          rw [List.map_cons, List.map_cons] at found
          rcases List.cons.inj found with ⟨here, there⟩
          have shifted : ∀ j, i + 1 + j = i + (j + 1) := fun j => by omega
          simp only [recordTexts, readBlock, here, induction there, Option.map_some,
            Option.bind_eq_bind, Option.bind_some, Option.pure_def, List.mapIdx_cons, shifted]
          rfl

theorem recordTexts_missing {records : List Bytes} {record : Bytes} (member : record ∈ records)
    (missing : storage.block (atoi record) = none) : ∀ i : Nat,
    recordTexts storage base fresh i records = none := by
  induction records with
  | nil => cases member
  | cons first records induction =>
      intro i
      rcases List.mem_cons.mp member with rfl | later
      · simp [recordTexts, readBlock, missing]
      · simp [recordTexts, induction later]

theorem recordTexts_strings {records texts : List Bytes} : ∀ {i : Nat},
    recordTexts storage base fresh i records = some texts →
    texts.length = records.length ∧ ∀ text ∈ texts, 0 ∉ text ∧ text.length ≤ base := by
  induction records generalizing texts with
  | nil =>
      intro i returned
      obtain rfl := Option.some.inj returned
      simp
  | cons record records induction =>
      intro i returned
      simp only [recordTexts, Option.bind_eq_bind, Option.bind_eq_some_iff, Option.pure_def] at returned
      rcases returned with ⟨newBlock, read, rest, others, last⟩
      obtain rfl := Option.some.inj last
      rcases induction others with ⟨sameLength, strings⟩
      refine ⟨by simp [sameLength], ?_⟩
      intro text member
      rcases List.mem_cons.mp member with rfl | member
      · refine ⟨contents_zero_free newBlock, ?_⟩
        rcases Option.map_eq_some_iff.mp read with ⟨data, _, rfl⟩
        apply (List.takeWhile_prefix _).length_le.trans
        simp only [overlay, List.length_append, List.length_take, List.length_drop,
          List.length_map, List.length_range]
        omega
      · exact strings text member

end

/-! ## The records that are visited -/

/-- What the rounds visit: from a first element on to the last, which comes again for
every round left. Behind the end of the list it is what the buffer held before. -/
def visited {Element : Type*} (list : List Element) (first : Nat) (before : Element) :
    List Element :=
  list.drop first ++ List.replicate (min first list.length) ((list.drop first).getLast?.getD before)

section

variable {Element Other : Type*} (list : List Element) {first : Nat}

@[simp] theorem visited_length (first : Nat) (before : Element) :
    (visited list first before).length = list.length := by
  simp only [visited, List.length_append, List.length_drop, List.length_replicate]
  omega

theorem visited_map (translate : Element → Other) (first : Nat) (before : Element) :
    (visited list first before).map translate =
      visited (list.map translate) first (translate before) := by
  rw [visited, visited, List.map_append, List.map_replicate, ← List.map_drop, List.length_map,
    List.getLast?_map, Option.getD_map]

variable {list}

theorem visited_inside (inside : first < list.length) (before other : Element) :
    visited list first before = visited list first other := by
  have present : ∃ last, (list.drop first).getLast? = some last :=
    Option.ne_none_iff_exists'.mp (by simp; omega)
  rcases present with ⟨last, equal⟩
  rw [visited, visited, equal]
  rfl

theorem visited_beyond (beyond : list.length ≤ first) (before : Element) :
    visited list first before = List.replicate list.length before := by
  rw [visited, List.drop_eq_nil_of_le beyond, min_eq_right beyond]
  rfl

theorem mem_visited (inside : first < list.length) (before : Element) {element : Element}
    (member : element ∈ visited list first before) : element ∈ list := by
  rcases List.mem_append.mp member with member | member
  · exact List.mem_of_mem_drop member
  · rcases Option.ne_none_iff_exists'.mp (show (list.drop first).getLast? ≠ none by
      simp; omega) with ⟨last, equal⟩
    rw [equal, Option.getD_some] at member
    exact List.mem_of_mem_drop (List.mem_of_getLast? (List.eq_of_mem_replicate member ▸ equal))

end

section

variable {storage : Storage} {base : Nat} {fresh : Fresh}

/-- Behind the end of the list the ID stays. -/
theorem roundTexts_beyond (count : Nat) : ∀ (i : Nat) (file : ByteFile) (idChar : Bytes),
    file.data.length ≤ file.pos →
    roundTexts storage base fresh count i file idChar =
      recordTexts storage base fresh i (List.replicate count idChar) := by
  induction count with
  | zero => intros; rfl
  | succ count induction =>
      intro i file idChar atEnd
      have read : file.fread 4 = ([], file) := by
        have nothing : slice file.data file.pos 4 = [] := by
          rw [slice, List.drop_eq_nil_of_le atEnd, List.take_nil]
        rw [fread, nothing]
        rfl
      have kept : overlay idChar [] = idChar := by simp [overlay]
      rw [roundTexts, List.replicate_succ, recordTexts, read]
      simp only [kept, induction (i + 1) file idChar atEnd]

theorem roundTexts_entries (records : List Bytes) : ∀ (before : List Bytes) (extra i : Nat)
    (idChar : Bytes), (∀ record ∈ before ++ records, record.length = 4) → idChar.length ≤ 4 →
    roundTexts storage base fresh (records.length + extra) i
        ⟨(before ++ records).flatten, 4 * before.length⟩ idChar =
      (recordTexts storage base fresh i records).bind fun texts =>
        (roundTexts storage base fresh extra (i + records.length)
          ⟨(before ++ records).flatten, 4 * (before ++ records).length⟩
          (records.getLast?.getD idChar)).map fun rest => texts ++ rest := by
  induction records with
  | nil =>
      intro before extra i idChar _ _
      simp [recordTexts]
  | cons record records induction =>
      intro before extra i idChar uniform short
      have width : record.length = 4 := uniform record (by simp)
      have beforeWidth := flatten_length fun other (member : other ∈ before) =>
        uniform other (List.mem_append_left _ member)
      have read : (ByteFile.mk (before ++ record :: records).flatten (4 * before.length)).fread 4 =
          (record, ⟨(before ++ record :: records).flatten, 4 * before.length + 4⟩) := by
        apply fread_inside before.flatten _ records.flatten _ beforeWidth.symm width
        simp
      have named : overlay idChar record = record := overlay_eq (by omega)
      have shift : (before ++ [record]) ++ records = before ++ record :: records := by simp
      have rest := induction (before ++ [record]) extra (i + 1) record (by rwa [shift]) width.le
      rw [shift, List.length_append, List.length_singleton, Nat.mul_add, Nat.mul_one] at rest
      have last : records.getLast?.getD record = (record :: records).getLast?.getD idChar := by
        rw [List.getLast?_cons]
        rfl
      rw [List.length_cons, Nat.add_right_comm, roundTexts, read, recordTexts]
      simp only [named, rest, last, Option.bind_eq_bind, Option.pure_def, Nat.add_right_comm i,
        ← Nat.add_assoc]
      cases readBlock storage (atoi record) base (fresh.block i) with
      | none => rfl
      | some newBlock =>
          simp only [Option.bind_some]
          cases recordTexts storage base fresh (i + 1) records with
          | none => rfl
          | some texts =>
              simp only [Option.bind_some]
              generalize roundTexts storage base fresh extra _ _ _ = others
              cases others with
              | none => rfl
              | some rest => rfl

theorem roundTexts_visited {records : List Bytes}
    (uniform : ∀ record ∈ records, record.length = 4) (first : Nat) {idChar : Bytes}
    (short : idChar.length ≤ 4) :
    roundTexts storage base fresh records.length 0 ⟨records.flatten, 4 * first⟩ idChar =
      recordTexts storage base fresh 0 (visited records first idChar) := by
  have total := flatten_length uniform
  rw [visited]
  rcases Nat.lt_or_ge first records.length with inside | beyond
  · have rounds : records.length = (records.drop first).length + first := by
      rw [List.length_drop]
      omega
    have entries := @roundTexts_entries storage base fresh (records.drop first)
      (records.take first) first 0 idChar (by rwa [List.take_append_drop]) short
    have atEnd := fun i idChar => @roundTexts_beyond storage base fresh first i
      ⟨records.flatten, 4 * records.length⟩ idChar total.le
    rw [List.take_append_drop, List.length_take, min_eq_left inside.le, ← rounds,
      atEnd] at entries
    rw [entries, recordTexts_append, min_eq_left inside.le]
  · rw [List.drop_eq_nil_of_le beyond, min_eq_right beyond, List.nil_append]
    exact roundTexts_beyond _ _ _ _ (show records.flatten.length ≤ 4 * first by omega)

/-! ## The calls -/

/-- The entry that `readFile` starts at. A seek to a negative offset fails. -/
def firstBlock (offset : Int) : Nat := ((toInt32 offset).tdiv 4096).toNat

theorem readFile_eq {records : List Bytes} (uniform : ∀ record ∈ records, record.length = 4)
    (offset : Int) :
    readFile storage records.flatten.length offset ⟨records.flatten, 0⟩ 4096 fresh =
      if records = [] then none
      else (recordTexts storage 4096 fresh 0
        (visited records (firstBlock offset) (fresh.idChar.take 4))).map List.flatten := by
  have total : records.flatten.length / 4 = records.length := by
    rw [flatten_length uniform, Nat.mul_div_cancel_left _ (by decide)]
  have start : ((ByteFile.mk records.flatten 0).fseekSet 0).fseekCur
      (getNewOffset (toInt32 offset) 4096) = ⟨records.flatten, 4 * firstBlock offset⟩ := by
    rw [getNewOffset, firstBlock, fseekCur, fseekSet_pos]
    split
    · congr 1
      omega
    · rw [fseekSet]
      congr 1
      omega
  rw [readFile]
  simp only [Nat.cast_ofNat, total, start, readFileLoop_eq, roundTexts_visited uniform _
    (show (fresh.idChar.take 4).length ≤ 4 by simp), List.nil_append, List.length_eq_zero_iff]

theorem findRealSize_eq {records : List Bytes} (uniform : ∀ record ∈ records, record.length = 4) :
    findRealSize storage records.flatten.length (some records.flatten) 4096 fresh =
      match recordTexts storage 4096 fresh 0 records with
      | none => -2
      | some texts => toInt32 texts.flatten.length := by
  have total : records.flatten.length / 4 = records.length := by
    rw [flatten_length uniform, Nat.mul_div_cancel_left _ (by decide)]
  have rounds := @roundTexts_visited storage 4096 fresh records uniform 0 (fresh.idChar.take 4)
    (by simp)
  rw [visited, Nat.zero_min, List.replicate_zero, List.append_nil, List.drop_zero] at rounds
  rw [findRealSize]
  simp only [total, findRealSizeLoop_eq _ _ _ _ _ _ _ _ (show toInt32 0 = 0 by decide)]
  rw [show 0 = 4 * 0 from rfl, rounds]
  simp only [zero_add, mul_zero]

variable {Path : Type} [DecidableEq Path] {state : BbState Path} {path : Path}
  {records : List Bytes}

theorem bbRead_eq (member : path ∈ state.names) (text : state.idFile path = records.flatten)
    (uniform : ∀ record ∈ records, record.length = 4) (notEmpty : records ≠ []) (size : Nat)
    (offset : Int) :
    bbRead state path size offset fresh =
      match recordTexts state.toStorage 4096 fresh 0
          (visited records (firstBlock offset) (fresh.idChar.take 4)) with
      | none => some (slice records.flatten offset.toNat size)
      | some texts =>
          if toInt32 texts.flatten.length < 0 then none
          else some ((texts.flatten.take (toInt32 texts.flatten.length).toNat).take size) := by
  rw [bbRead, if_pos member]
  simp only [text, ftell, fseekEnd_pos]
  rw [show CE321.Dedup.base = 4096 from rfl, readFile_eq uniform, if_neg notEmpty]
  cases returned : recordTexts state.toStorage 4096 fresh 0
      (visited records (firstBlock offset) (fresh.idChar.take 4)) with
  | none => rfl
  | some texts =>
      have zeroFree : 0 ∉ texts.flatten := flatten_zero_free fun text member =>
        ((recordTexts_strings returned).2 text member).1
      simp only [Option.map_some, strlen_of_zero_free zeroFree, contents_of_zero_free zeroFree,
        slice, List.drop_zero]

theorem bbGetattr_eq (member : path ∈ state.names) (text : state.idFile path = records.flatten)
    (uniform : ∀ record ∈ records, record.length = 4) :
    bbGetattr state path fresh =
      match recordTexts state.toStorage 4096 fresh 0 records with
      | none => some (4 * records.length : Nat)
      | some texts =>
          if 0 < toInt32 texts.flatten.length then some (toInt32 texts.flatten.length)
          else some (4 * records.length : Nat) := by
  rw [bbGetattr, if_pos member]
  simp only [text]
  rw [show CE321.Dedup.base = 4096 from rfl, findRealSize_eq uniform, flatten_length uniform]
  cases recordTexts state.toStorage 4096 fresh 0 records with
  | none => rfl
  | some texts =>
      simp only [gt_iff_lt]
      split <;> rfl

end

/-! ## Files of whole blocks -/

theorem idText_records (ids : List Nat) :
    idText ids = (ids.map fun id => zeroPadded 3 id ++ [10]).flatten := by
  rw [idText, List.flatMap_def]

theorem idRecord_length {ids : List Nat} (small : ∀ id ∈ ids, id < 1000) :
    ∀ record ∈ ids.map (fun id => zeroPadded 3 id ++ [10]), record.length = 4 := by
  intro record member
  rcases List.mem_map.mp member with ⟨id, idMember, rfl⟩
  rw [List.length_append, zeroPadded_length (show id < 10 ^ 3 from small id idMember)]
  rfl

theorem atoi_idRecord {id : Nat} (fits : id < 1000) : atoi (zeroPadded 3 id ++ [10]) = id :=
  atoi_zeroPadded (by decide) (show id < 10 ^ 3 from fits) (by
    intro byte first
    obtain rfl : 10 = byte := by simpa using first
    decide)

theorem blockText_whole {fresh : Fresh} {i : Nat} {data : Bytes} (whole : Whole data) :
    blockText 4096 fresh i data = data := by
  rw [blockText, List.take_of_length_le whole.1.le, overlay_eq (by simp [whole.1]),
    contents_of_zero_free whole.2]

theorem mapIdx_blockText_whole {fresh : Fresh} {i : Nat} {datas : List Bytes}
    (whole : ∀ data ∈ datas, Whole data) :
    (datas.mapIdx fun j data => blockText 4096 fresh (i + j) data) = datas := by
  apply List.ext_getElem?
  intro index
  rw [List.getElem?_mapIdx]
  cases present : datas[index]? with
  | none => rfl
  | some data =>
      rw [Option.map_some, blockText_whole (whole data (List.mem_of_getElem? present))]

section

variable {storage : Storage} {fresh : Fresh} {ids : List Nat} {blocks : List Bytes}
  (small : ∀ id ∈ ids, id < 1000)
  (found : ids.map (fun id : Nat => storage.block id) = blocks.map some)
  (whole : ∀ block ∈ blocks, Whole block)
include small found

theorem idRecords_found :
    (ids.map fun id => zeroPadded 3 id ++ [10]).map (fun record => storage.block (atoi record)) =
      blocks.map some := by
  rw [List.map_map, ← found]
  apply List.map_congr_left
  intro id member
  rw [Function.comp, atoi_idRecord (small id member)]

include whole

theorem recordTexts_visited {first : Nat} (inside : first < ids.length) (idChar : Bytes) :
    recordTexts storage 4096 fresh 0
        (visited (ids.map fun id => zeroPadded 3 id ++ [10]) first idChar) =
      some (visited blocks first []) := by
  have sameLength : ids.length = blocks.length := by simpa using congrArg List.length found
  have wholeVisited : ∀ block ∈ visited blocks first [], Whole block := fun block member =>
    whole block (mem_visited (sameLength ▸ inside) _ member)
  have visitedFound : (visited (ids.map fun id => zeroPadded 3 id ++ [10]) first idChar).map
      (fun record => storage.block (atoi record)) = (visited blocks first []).map some := by
    rw [visited_map, idRecords_found small found, visited_map]
    exact visited_inside (by simpa [← sameLength] using inside) _ _
  rw [recordTexts_found visitedFound, mapIdx_blockText_whole wholeVisited]

end

/-! ## `bb_read` of whole blocks -/

theorem visited_flatten_take {blocks : List Bytes}
    (uniform : ∀ block ∈ blocks, block.length = 4096) {first count : Nat}
    (inside : 4096 * first + count ≤ 4096 * blocks.length) :
    (visited blocks first []).flatten.take count = slice blocks.flatten (4096 * first) count := by
  have dropped := flatten_length fun block (member : block ∈ blocks.drop first) =>
    uniform block (List.mem_of_mem_drop member)
  rw [List.length_drop] at dropped
  rw [visited, List.flatten_append, List.take_append_of_le_length (by omega), slice,
    flatten_drop uniform]

theorem flatten_length_le {records : List Bytes} {width : Nat}
    (short : ∀ record ∈ records, record.length ≤ width) :
    records.flatten.length ≤ width * records.length := by
  rw [List.length_flatten]
  have bound := List.sum_le_card_nsmul (records.map List.length) width (by simpa using short)
  rwa [List.length_map, smul_eq_mul, Nat.mul_comm] at bound

section

variable {Path : Type} [DecidableEq Path] {state : BbState Path} {path : Path}
  (member : path ∈ state.names) {ids : List Nat} {blocks : List Bytes}
  (text : state.idFile path = idText ids) (small : ∀ id ∈ ids, id < 1000)
include member text small

theorem bbRead_whole (found : ids.map (fun id : Nat => state.block id) = blocks.map some)
    (whole : ∀ block ∈ blocks, Whole block) (size : Nat) {offset : Int}
    (inside : firstBlock offset < ids.length) (fresh : Fresh) :
    bbRead state path size offset fresh =
      if toInt32 (4096 * ids.length : Nat) < 0 then none
      else some (((visited blocks (firstBlock offset) []).flatten.take
        (toInt32 (4096 * ids.length : Nat)).toNat).take size) := by
  have sameLength : ids.length = blocks.length := by simpa using congrArg List.length found
  have width := flatten_length fun block (present : block ∈ visited blocks (firstBlock offset) []) =>
    (whole block (mem_visited (sameLength ▸ inside) _ present)).1
  have notEmpty : (ids.map fun id => zeroPadded 3 id ++ [10]) ≠ [] := by
    intro empty
    rw [List.map_eq_nil_iff.mp empty] at inside
    cases inside
  rw [bbRead_eq member (text.trans (idText_records ids)) (idRecord_length small) notEmpty,
    recordTexts_visited small found whole inside]
  simp only [width, visited_length, sameLength]

theorem bbGetattr_whole (found : ids.map (fun id : Nat => state.block id) = blocks.map some)
    (whole : ∀ block ∈ blocks, Whole block) (positive : 0 < ids.length)
    (limit : 4096 * ids.length < 2 ^ 31) (fresh : Fresh) :
    bbGetattr state path fresh = some ((4096 * ids.length : Nat) : Int) := by
  have sameLength : ids.length = blocks.length := by simpa using congrArg List.length found
  have width := flatten_length fun block (present : block ∈ blocks) => (whole block present).1
  rw [bbGetattr_eq member (text.trans (idText_records ids)) (idRecord_length small),
    recordTexts_found (idRecords_found small found), mapIdx_blockText_whole whole]
  simp only [width, ← sameLength, toInt32_of_lt limit]
  rw [if_pos (by omega)]

theorem bbRead_nothing (limit : ids.length ≤ 16) (offset : Int) (fresh : Fresh) :
    bbRead state path 0 offset fresh = some [] := by
  rcases List.eq_nil_or_concat ids with empty | ⟨front, last, notEmpty⟩
  · have nothing : readFile state.toStorage ([] : Bytes).length offset ⟨[], 0⟩ base fresh = none :=
      rfl
    rw [bbRead, if_pos member, text, empty]
    simp only [idText, List.flatMap_nil, ftell, fseekEnd_pos, nothing, slice, List.take_zero]
  · rw [bbRead_eq member (text.trans (idText_records ids)) (idRecord_length small)
      (by simp [notEmpty])]
    cases returned : recordTexts state.toStorage 4096 fresh 0 _ with
    | none => simp [slice]
    | some texts =>
        rcases recordTexts_strings returned with ⟨sameLength, strings⟩
        have bound := flatten_length_le fun text member => (strings text member).2
        rw [sameLength, visited_length, List.length_map] at bound
        have small := toInt32_of_lt (show texts.flatten.length < 2 ^ 31 by omega)
        simp only [small, List.take_zero]
        exact if_neg (by omega)

theorem bbRead_blocks (found : ids.map (fun id : Nat => state.block id) = blocks.map some)
    (whole : ∀ block ∈ blocks, Whole block) (limit : ids.length ≤ 16) {index count : Nat}
    (inside : index + count ≤ ids.length) (fresh : Fresh) :
    bbRead state path (4096 * count) (4096 * index : Nat) fresh =
      some (slice blocks.flatten (4096 * index) (4096 * count)) := by
  have sameLength : ids.length = blocks.length := by simpa using congrArg List.length found
  rcases Nat.eq_zero_or_pos count with rfl | positive
  · rw [bbRead_nothing member text small limit, slice, List.take_zero]
  · have first : firstBlock (4096 * index : Nat) = index := by
      rw [firstBlock, toInt32_of_lt (by omega)]
      have quotient : ((4096 * index : Nat) : Int).tdiv 4096 = (4096 * index / 4096 : Nat) := rfl
      rw [quotient, Nat.mul_div_cancel_left _ (by decide), Int.toNat_natCast]
    rw [bbRead_whole member text small found whole _ (by omega), first,
      toInt32_of_lt (show 4096 * ids.length < 2 ^ 31 by omega), if_neg (by omega),
      Int.toNat_natCast, List.take_take, min_eq_left (by omega),
      visited_flatten_take fun block present => (whole block present).1]
    omega

end

end CE321.Dedup
