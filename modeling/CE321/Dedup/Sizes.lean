import CE321.Dedup.Reading
import CE321.Dedup.PushBlock

/-! # The size of a file and its contents

`bb_getattr` adds up what `bb_read` puts together. It reports the sum only if that is
positive: a file of empty blocks has the size of its ID list.
-/

namespace CE321.Dedup

open CString ByteFile

theorem visited_zero {Element : Type*} (list : List Element) (before : Element) :
    visited list 0 before = list := by
  simp [visited]

theorem firstBlock_zero : firstBlock 0 = 0 := by decide

theorem blockText_zeroed {fresh : Fresh} {i : Nat} {data : Bytes}
    (zeroed : ∀ j, fresh.block i j = 0) (short : data.length ≤ 4096) :
    blockText 4096 fresh i data = contents data := by
  have rest : ∀ bytes : Bytes, (∀ byte ∈ bytes, byte = 0) → contents (data ++ bytes) = contents data := by
    intro bytes zeros
    have stops : bytes.takeWhile (· ≠ 0) = [] := by
      cases bytes with
      | nil => rfl
      | cons byte bytes => simp [zeros byte List.mem_cons_self]
    rw [contents, contents, List.takeWhile_append, stops]
    split
    · next whole =>
        rw [List.append_nil, (List.takeWhile_prefix _).eq_of_length whole]
    · rfl
  rw [blockText, List.take_of_length_le short, overlay]
  apply rest
  intro byte member
  rcases List.mem_map.mp (List.mem_of_mem_drop member) with ⟨j, _, rfl⟩
  exact zeroed j

theorem mapIdx_blockText_zeroed {fresh : Fresh} {i : Nat} {datas : List Bytes}
    (zeroed : ∀ index < datas.length, ∀ j, fresh.block (i + index) j = 0)
    (short : ∀ data ∈ datas, data.length ≤ 4096) :
    (datas.mapIdx fun j data => blockText 4096 fresh (i + j) data) = datas.map contents := by
  apply List.ext_getElem?
  intro index
  rw [List.getElem?_mapIdx, List.getElem?_map]
  cases present : datas[index]? with
  | none => rfl
  | some data =>
      rw [Option.map_some, Option.map_some,
        blockText_zeroed (zeroed index (List.getElem?_eq_some_iff.mp present).1)
          (short data (List.mem_of_getElem? present))]

section

variable {Path : Type} [DecidableEq Path]

/-- The size reported is the number of bytes read if and only if the lengths of the blocks
add up to a positive `int`. -/
theorem size_eq_bytes_iff (state : BbState Path) (path : Path) (member : path ∈ state.names)
    (ids : List Nat) (datas : List Bytes) (text : state.idFile path = idText ids)
    (notEmpty : ids ≠ []) (small : ∀ id ∈ ids, id < 1000)
    (found : ids.map (fun id : Nat => state.block id) = datas.map some)
    (short : ∀ data ∈ datas, data.length ≤ 4096) (size : Nat) (enough : 4096 * ids.length ≤ size)
    (readFresh statFresh : Fresh) (readZeroed : ∀ i j, readFresh.block i j = 0)
    (statZeroed : ∀ i j, statFresh.block i j = 0) :
    (∃ bytes, bbRead state path size 0 readFresh = some bytes ∧
        bbGetattr state path statFresh = some (bytes.length : Int)) ↔
      0 < toInt32 (datas.map strlen).sum := by
  have recordsText := text.trans (idText_records ids)
  have uniform := idRecord_length small
  have recordsFound := idRecords_found small found
  have sameLength : ids.length = datas.length := by simpa using congrArg List.length found
  have total : ((datas.map contents).flatten.length : Int) = (datas.map strlen).sum := by
    rw [List.length_flatten, List.map_map]
    rfl
  have bound : (datas.map contents).flatten.length ≤ 4096 * (datas.map contents).length := by
    apply flatten_length_le
    intro block present
    rcases List.mem_map.mp present with ⟨data, dataMember, rfl⟩
    exact (List.takeWhile_prefix _).length_le.trans (short data dataMember)
  rw [List.length_map, ← sameLength] at bound
  rw [bbRead_eq member recordsText uniform (by simpa using notEmpty), firstBlock_zero,
    visited_zero, bbGetattr_eq member recordsText uniform, recordTexts_found recordsFound,
    recordTexts_found recordsFound, mapIdx_blockText_zeroed (fun _ _ => readZeroed _) short,
    mapIdx_blockText_zeroed (fun _ _ => statZeroed _) short]
  simp only [← total]
  have below := toInt32_le (show 0 ≤ ((datas.map contents).flatten.length : Int) by omega)
  have positive := List.length_pos_of_ne_nil notEmpty
  generalize (datas.map contents).flatten = data at *
  generalize toInt32 data.length = dataSize at *
  constructor
  · rintro ⟨bytes, read, reported⟩
    by_contra notPositive
    rw [if_neg notPositive, List.length_map] at reported
    split at read
    · cases read
    · have nothing : bytes = [] := by
        rw [← Option.some.inj read, show dataSize.toNat = 0 by omega]
        simp
      have sizes := Option.some.inj reported
      rw [nothing, List.length_nil] at sizes
      omega
  · intro positiveSize
    rw [if_pos positiveSize, if_neg (by omega)]
    refine ⟨_, rfl, congrArg some ?_⟩
    rw [List.length_take, List.length_take]
    omega

end

/-! ## A file of one block -/

/-- One line with one reference, whose block file has the given bytes. -/
def fileOf (data : Bytes) : BbState Unit where
  hashFile := ⟨ledgerText [Line.stored (blockHash sha1OfLetters data)], 0⟩
  block := Function.update (fun _ => none) 1 (some data)
  names := {()}
  idFile := fun _ => idText [1]

def zeroFresh : Fresh := ⟨[], fun _ _ => 0⟩

theorem size_eq_bytes_iff_letter : ∃ bytes,
    bbRead (fileOf [97]) () 4096 0 zeroFresh = some bytes ∧
      bbGetattr (fileOf [97]) () zeroFresh = some (bytes.length : Int) :=
  (size_eq_bytes_iff (fileOf [97]) () (by decide) [1] [[97]] rfl (by decide) (by decide) rfl
    (by decide) 4096 (by decide) zeroFresh zeroFresh (fun _ _ => rfl) (fun _ _ => rfl)).mpr
    (by decide)

/-- A block of zero bytes leaves an empty block file: its file is read as empty, and its
size is that of the ID list. -/
theorem emptyBlock_size :
    bbRead (fileOf []) () 4096 0 zeroFresh = some [] ∧
      bbGetattr (fileOf []) () zeroFresh = some 4 := by
  have member : () ∈ (fileOf []).names := by decide
  have text : (fileOf []).idFile () = idText [1] := rfl
  have small : ∀ id ∈ [1], id < 1000 := by decide
  have found : ([1] : List Nat).map (fun id : Nat => (fileOf []).block id) = [[]].map some := rfl
  have texts := @recordTexts_found (fileOf []).toStorage 4096 zeroFresh _ _
    (idRecords_found small found) 0
  rw [mapIdx_blockText_zeroed (fun _ _ _ => rfl) (by simp)] at texts
  rw [bbRead_eq member (text.trans (idText_records _)) (idRecord_length small) (by simp),
    firstBlock_zero, visited_zero, bbGetattr_eq member (text.trans (idText_records _))
      (idRecord_length small), texts]
  exact ⟨by simp [contents, toInt32], rfl⟩

end CE321.Dedup
