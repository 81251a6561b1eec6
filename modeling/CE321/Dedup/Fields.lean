import CE321.Dedup.Ledger

/-! # The fields of a ledger

The ID, the hash and the counter that stand at fixed columns of a ledger's bytes,
as its readers find them, and their values on a ledger in format.
-/

namespace CE321.Dedup

open CString

def lineCount (data : Bytes) : Nat := data.length / 30

def lineText (data : Bytes) (index : Nat) : Bytes := slice data (30 * index) 30

def lineId (data : Bytes) (index : Nat) : Int := atoi (slice data (30 * index) 3)

def lineHash (data : Bytes) (index : Nat) : Bytes := slice data (30 * index + 5) 20

def lineCounter (data : Bytes) (index : Nat) : Int := atoi (slice data (30 * index + 27) 2)

/-- The number of lines with references. -/
def live (data : Bytes) : Nat :=
  (List.range (lineCount data)).countP fun index => 0 < lineCounter data index

theorem slice_at {data : Bytes} {offset count : Nat} (before field after : Bytes)
    (split : data = before ++ (field ++ after)) (atField : before.length = offset)
    (width : field.length = count) : slice data offset count = field := by
  subst split atField width
  exact slice_inside

section

variable {data before rest : Bytes} {line : Line} {index : Nat}
  (split : data = before ++ (line.render (index + 1) ++ rest))
  (position : before.length = 30 * index) (small : index + 1 < 1000)
include split position small

theorem lineText_render : lineText data index = line.render (index + 1) :=
  slice_at _ _ _ split position (line.render_length small)

theorem lineId_render : lineId data index = (index + 1 : Nat) := by
  have field : slice data (30 * index) 3 = zeroPadded 3 (index + 1) :=
    slice_at before _ ([44, 32] ++ (line.hash.text ++
      ([44, 32] ++ (zeroPadded 2 line.counter ++ [10] ++ rest)))) (by simp [split, Line.render])
      position (zeroPadded_length (show index + 1 < 10 ^ 3 from small))
  rw [lineId, field]
  exact atoi_zeroPadded_self (by decide) (show index + 1 < 10 ^ 3 from small)

theorem lineHash_render : lineHash data index = line.hash.text :=
  slice_at (before ++ (zeroPadded 3 (index + 1) ++ [44, 32])) _
    ([44, 32] ++ (zeroPadded 2 line.counter ++ [10] ++ rest)) (by simp [split, Line.render])
    (by simp [position, zeroPadded_length (show index + 1 < 10 ^ 3 from small)])
    line.hash.length_eq

theorem lineCounter_render : lineCounter data index = line.counter := by
  have field : slice data (30 * index + 27) 2 = zeroPadded 2 line.counter :=
    slice_at (before ++ (zeroPadded 3 (index + 1) ++ ([44, 32] ++ (line.hash.text ++ [44, 32]))))
      _ ([10] ++ rest) (by simp [split, Line.render])
      (by simp [position, line.hash.length_eq,
        zeroPadded_length (show index + 1 < 10 ^ 3 from small)])
      (zeroPadded_length (show line.counter < 10 ^ 2 from line.counter_lt))
  rw [lineCounter, field]
  exact atoi_zeroPadded_self (by decide) line.counter_lt

end

/-! ## Ledgers in format -/

theorem renderFrom_split {lines : List Line} {index : Nat} {line : Line}
    (present : lines[index]? = some line) :
    ∃ before after, lines = before ++ line :: after ∧ before.length = index := by
  rcases List.getElem?_eq_some_iff.mp present with ⟨bound, rfl⟩
  exact ⟨lines.take index, lines.drop (index + 1), by simp, by simp; omega⟩

theorem line_split {data : Bytes} {lines : List Line} (first : renderFrom 1 lines <+: data)
    (small : lines.length ≤ 999) {index : Nat} {line : Line}
    (present : lines[index]? = some line) :
    ∃ before rest, data = before ++ (line.render (index + 1) ++ rest) ∧
      before.length = 30 * index ∧ index + 1 < 1000 := by
  rcases renderFrom_split present with ⟨before, after, rfl, rfl⟩
  rcases first with ⟨tail, rfl⟩
  simp only [List.length_append, List.length_cons] at small
  refine ⟨renderFrom 1 before, renderFrom (before.length + 2) after ++ tail, ?_,
    renderFrom_length (by omega), by omega⟩
  rw [renderFrom_append, renderFrom, Nat.add_comm 1]
  simp

section

variable {data : Bytes} {lines : List Line} (text : data = ledgerText lines)
  (small : lines.length ≤ 998)
include text small

theorem lineCount_ledgerText : lineCount data = lines.length + 1 := by
  rw [lineCount, text, ledgerText_length small, Nat.mul_div_cancel_left _ (by decide)]

theorem line_fields {index : Nat} {line : Line}
    (present : (lines ++ [Line.sentinel])[index]? = some line) :
    lineText data index = line.render (index + 1) ∧ lineId data index = (index + 1 : Nat) ∧
      lineHash data index = line.hash.text ∧ lineCounter data index = line.counter := by
  have whole : renderFrom 1 (lines ++ [Line.sentinel]) <+: data := by
    rw [text, ledgerText]
  rcases line_split whole (by simp; omega) present with ⟨before, rest, split, position, bound⟩
  exact ⟨lineText_render split position bound, lineId_render split position bound,
    lineHash_render split position bound, lineCounter_render split position bound⟩

theorem line_present {index : Nat} (bound : index < lineCount data) :
    ∃ line, (lines ++ [Line.sentinel])[index]? = some line := by
  rw [lineCount_ledgerText text small] at bound
  exact ⟨_, List.getElem?_eq_getElem (by simpa using bound)⟩

end

theorem length_le_live {data : Bytes} {lines : List Line} (first : renderFrom 1 lines <+: data)
    (small : lines.length ≤ 999) (positive : ∀ line ∈ lines, 0 < line.counter) :
    lines.length ≤ live data := by
  have enough : lines.length ≤ lineCount data := by
    have bytes := first.length_le
    rw [renderFrom_length (by omega)] at bytes
    exact (Nat.le_div_iff_mul_le (by decide)).mpr (by omega)
  have all : (List.range lines.length).countP (fun index => 0 < lineCounter data index) =
      (List.range lines.length).length := by
    apply List.countP_eq_length.mpr
    intro index member
    have present := List.getElem?_eq_getElem (List.mem_range.mp member)
    rcases line_split first small present with ⟨before, rest, split, position, bound⟩
    rw [lineCounter_render split position bound]
    simpa using positive _ (List.getElem_mem _)
  calc lines.length = (List.range lines.length).length := List.length_range.symm
    _ = _ := all.symm
    _ ≤ live data := (List.range_sublist.mpr enough).countP_le

end CE321.Dedup
