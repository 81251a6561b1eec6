import CE321.Foundation.ByteFile

/-! # Files of fixed-width records

A file whose bytes are records of one width: ranges of whole records are read and
replaced as records.
-/

namespace CE321

/-- Records that replace others or go behind the last one, with a filler for a gap. -/
def patchRecords {Record : Type} (filler : Record) (records : List Record) (index : Nat)
    (new : List Record) : List Record :=
  if new = [] then records
  else records.take index ++ List.replicate (index - records.length) filler ++ new ++
    records.drop (index + new.length)

theorem patchRecords_map {Record Other : Type} (translate : Record → Other) (filler : Record)
    (records : List Record) (index : Nat) (new : List Record) :
    (patchRecords filler records index new).map translate =
      patchRecords (translate filler) (records.map translate) index (new.map translate) := by
  by_cases empty : new = []
  · simp [patchRecords, empty]
  · simp [patchRecords, empty]

theorem patchRecords_length {Record : Type} (filler : Record) (records : List Record)
    {index : Nat} {new : List Record} {bound : Nat} (fits : records.length ≤ bound)
    (newFits : index + new.length ≤ bound) :
    (patchRecords filler records index new).length ≤ bound := by
  unfold patchRecords
  split
  · exact fits
  · simp only [List.length_append, List.length_take, List.length_replicate, List.length_drop]
    omega

/-! ## The records of a file -/

def recordsOf (width : Nat) (data : Bytes) : List Bytes :=
  (List.range (data.length / width)).map fun i => slice data (width * i) width

@[simp] theorem recordsOf_length (width : Nat) (data : Bytes) :
    (recordsOf width data).length = data.length / width := by
  simp [recordsOf]

theorem recordsOf_uniform (width : Nat) (data : Bytes) :
    ∀ record ∈ recordsOf width data, record.length = width := by
  intro record member
  rcases List.mem_map.mp member with ⟨i, inRange, rfl⟩
  have inside : (i + 1) * width ≤ data.length :=
    (Nat.mul_le_mul_right width (List.mem_range.mp inRange)).trans (Nat.div_mul_le_self _ _)
  have index : (i + 1) * width = width * i + width := by ring
  rw [slice, List.length_take, List.length_drop]
  omega

theorem recordsOf_flatten {width : Nat} (positive : 0 < width) {data : Bytes}
    (divides : width ∣ data.length) : (recordsOf width data).flatten = data := by
  rcases divides with ⟨count, length⟩
  rw [recordsOf, length, Nat.mul_div_cancel_left _ positive]
  induction count generalizing data with
  | zero => exact (List.eq_nil_of_length_eq_zero (by simpa using length)).symm
  | succ count induction =>
      have rest := @induction (data.drop width) (by
        rw [List.length_drop, length, Nat.mul_succ, Nat.add_sub_cancel])
      have shifted : ((fun i => slice data (width * i) width) ∘ Nat.succ) =
          fun i => slice (data.drop width) (width * i) width := by
        funext i
        rw [Function.comp, slice, slice, List.drop_drop, Nat.mul_succ, Nat.add_comm width]
      rw [List.range_succ_eq_map, List.map_cons, List.flatten_cons, List.map_map, shifted, rest,
        Nat.mul_zero, slice, List.drop_zero, List.take_append_drop]

section

variable {width : Nat} {records : List Bytes} (uniform : ∀ record ∈ records, record.length = width)
include uniform

theorem flatten_length : records.flatten.length = width * records.length := by
  rw [List.length_flatten, List.map_congr_left uniform, List.map_const', List.sum_replicate,
    smul_eq_mul, Nat.mul_comm]

theorem flatten_split (index : Nat) (inside : index ≤ records.length) :
    records.flatten = (records.take index).flatten ++ (records.drop index).flatten ∧
      (records.take index).flatten.length = width * index := by
  constructor
  · rw [← List.flatten_append, List.take_append_drop]
  · rw [flatten_length fun record member => uniform record (List.mem_of_mem_take member),
      List.length_take, min_eq_left inside]

theorem flatten_drop (index : Nat) :
    records.flatten.drop (width * index) = (records.drop index).flatten := by
  rcases Nat.lt_or_ge records.length index with beyond | inside
  · rw [List.drop_eq_nil_of_le beyond.le, List.drop_eq_nil_of_le]
    · rfl
    · rw [flatten_length uniform]
      exact Nat.mul_le_mul_left width beyond.le
  · rcases flatten_split uniform index inside with ⟨split, before⟩
    rw [split, List.drop_left' before]

theorem flatten_take (index : Nat) :
    records.flatten.take (width * index) = (records.take index).flatten := by
  rcases Nat.lt_or_ge records.length index with beyond | inside
  · rw [List.take_of_length_le beyond.le, List.take_of_length_le]
    rw [flatten_length uniform]
    exact Nat.mul_le_mul_left width beyond.le
  · rcases flatten_split uniform index inside with ⟨split, before⟩
    rw [split, List.take_left' before]

theorem slice_flatten (index count : Nat) :
    slice records.flatten (width * index) (width * count) =
      ((records.drop index).take count).flatten := by
  rw [slice, flatten_drop uniform, flatten_take]
  exact fun record member => uniform record (List.mem_of_mem_drop member)

theorem recordsOf_of_flatten (positive : 0 < width) : recordsOf width records.flatten = records := by
  apply List.ext_getElem
  · rw [recordsOf_length, flatten_length uniform, Nat.mul_div_cancel_left _ positive]
  · intro index _ inside
    have single := slice_flatten uniform index 1
    rw [List.drop_eq_getElem_cons inside, List.take_succ_cons, List.take_zero,
      List.flatten_singleton, Nat.mul_one] at single
    simpa [recordsOf, Nat.mul_comm] using single

theorem patch_flatten (positive : 0 < width) (index : Nat) {new : List Bytes}
    (newUniform : ∀ record ∈ new, record.length = width) :
    patch records.flatten (width * index) new.flatten =
      (patchRecords (List.replicate width 0) records index new).flatten := by
  have newLength := flatten_length newUniform
  by_cases empty : new = []
  · simp [patch, patchRecords, empty]
  · have notEmpty : new.flatten ≠ [] := by
      intro nothing
      rw [nothing, List.length_nil] at newLength
      rcases Nat.mul_eq_zero.mp newLength.symm with zero | none
      · omega
      · exact empty (List.eq_nil_of_length_eq_zero none)
    have gap : width * index - records.flatten.length = width * (index - records.length) := by
      rw [flatten_length uniform, Nat.mul_sub]
    have filler : List.replicate (width * (index - records.length)) (0 : UInt8) =
        (List.replicate (index - records.length) (List.replicate width 0)).flatten := by
      rw [List.flatten_replicate_replicate, Nat.mul_comm]
    rw [patch, if_neg notEmpty, patchRecords, if_neg empty, gap, filler, flatten_take uniform,
      newLength, ← Nat.mul_add, flatten_drop uniform]
    simp only [List.flatten_append]

end

end CE321
