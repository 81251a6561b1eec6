import CE321.Foundation.CString

/-! # Byte files

A stream as the C library shows it: the bytes of the file and a position in
them. Reading stops at the end of the file, writing replaces bytes in place,
appends past the end and fills a gap with zero bytes.
-/

namespace CE321

/-- `pwrite`: writing nothing leaves the file alone, wherever it would go. -/
def patch (data : Bytes) (offset : Nat) (bytes : Bytes) : Bytes :=
  if bytes = [] then data
  else data.take offset ++ List.replicate (offset - data.length) 0 ++ bytes ++
    data.drop (offset + bytes.length)

/-- `ftruncate`: the file is cut, or filled up with zero bytes. -/
def resize (data : Bytes) (size : Nat) : Bytes :=
  data.take size ++ List.replicate (size - data.length) 0

/-- `pread`: the bytes of a range that the file has. -/
def slice (data : Bytes) (offset count : Nat) : Bytes := (data.drop offset).take count

theorem patch_inside {before old after new : Bytes} (sameLength : old.length = new.length) :
    patch (before ++ (old ++ after)) before.length new = before ++ (new ++ after) := by
  by_cases empty : new = []
  · have oldEmpty : old = [] := List.eq_nil_of_length_eq_zero (by simp [sameLength, empty])
    simp [patch, empty, oldEmpty]
  · have noGap : before.length - (before ++ (old ++ after)).length = 0 := by simp
    rw [patch, if_neg empty, noGap, ← sameLength, ← List.drop_drop]
    simp

theorem patch_atEnd (data new : Bytes) : patch data data.length new = data ++ new := by
  by_cases empty : new = []
  · simp [patch, empty]
  · simp [patch, empty]

theorem patch_length (data bytes : Bytes) (offset : Nat) :
    (patch data offset bytes).length =
      if bytes = [] then data.length else max data.length (offset + bytes.length) := by
  unfold patch
  split
  · rfl
  · simp only [List.length_append, List.length_take, List.length_replicate, List.length_drop]
    omega

@[simp] theorem resize_length (data : Bytes) (size : Nat) : (resize data size).length = size := by
  simp only [resize, List.length_append, List.length_take, List.length_replicate]
  omega

theorem resize_self (data : Bytes) : resize data data.length = data := by
  simp [resize]

theorem slice_inside {before middle after : Bytes} :
    slice (before ++ (middle ++ after)) before.length middle.length = middle := by
  simp [slice]

@[ext] structure ByteFile where
  data : Bytes
  pos : Nat
  deriving DecidableEq, Repr

namespace ByteFile

/-- `fseek(file, offset, SEEK_SET)`. -/
def fseekSet (file : ByteFile) (offset : Nat) : ByteFile := { file with pos := offset }

/-- `fseek(file, offset, SEEK_CUR)`: a seek before the first byte fails. -/
def fseekCur (file : ByteFile) (offset : Int) : ByteFile :=
  if 0 ≤ file.pos + offset then { file with pos := (file.pos + offset).toNat } else file

/-- `fseek(file, 0, SEEK_END)`. -/
def fseekEnd (file : ByteFile) : ByteFile := { file with pos := file.data.length }

def ftell (file : ByteFile) : Nat := file.pos

/-- `fread`: the bytes received and the stream behind them. -/
def fread (file : ByteFile) (count : Nat) : Bytes × ByteFile :=
  let received := slice file.data file.pos count
  (received, { file with pos := file.pos + received.length })

def fwrite (file : ByteFile) (bytes : Bytes) : ByteFile where
  data := patch file.data file.pos bytes
  pos := file.pos + bytes.length

@[simp] theorem fseekSet_data (file : ByteFile) (offset : Nat) :
    (file.fseekSet offset).data = file.data := rfl

@[simp] theorem fseekSet_pos (file : ByteFile) (offset : Nat) :
    (file.fseekSet offset).pos = offset := rfl

@[simp] theorem fseekEnd_pos (file : ByteFile) : file.fseekEnd.pos = file.data.length := rfl

theorem fseekCur_forward (file : ByteFile) (offset : Nat) :
    file.fseekCur offset = { file with pos := file.pos + offset } := by
  rw [fseekCur, if_pos (by omega)]
  congr 1

theorem fseekCur_backward (file : ByteFile) {offset : Nat} (inside : offset ≤ file.pos) :
    file.fseekCur (-offset) = { file with pos := file.pos - offset } := by
  rw [fseekCur, if_pos (by omega)]
  congr 1
  omega

theorem fread_inside {file : ByteFile} {count : Nat} (before field after : Bytes)
    (split : file.data = before ++ (field ++ after)) (atField : file.pos = before.length)
    (width : field.length = count) :
    file.fread count = (field, { file with pos := file.pos + count }) := by
  subst width
  rw [fread, split, atField, slice_inside]

theorem fwrite_inside {file : ByteFile} (before old after : Bytes) {new : Bytes}
    (split : file.data = before ++ (old ++ after)) (atField : file.pos = before.length)
    (width : old.length = new.length) :
    file.fwrite new = ⟨before ++ (new ++ after), file.pos + new.length⟩ := by
  rw [fwrite, split, atField, patch_inside width]

theorem fwrite_atEnd (file : ByteFile) (atEnd : file.pos = file.data.length) (new : Bytes) :
    file.fwrite new = ⟨file.data ++ new, file.pos + new.length⟩ := by
  rw [fwrite, atEnd, patch_atEnd]

end ByteFile

end CE321
