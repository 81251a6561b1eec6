import CE321.Cpuinit.ReadProfile

/-! # Passes of the reading loops

Where each loop of `readProfile` gets to by the bytes in front of it, whatever follows them.
-/

namespace CE321.Cpuinit

open CString Reader

/-- At the label `WHITESPACE`, with some bytes read and others ahead. -/
def scanning (before after : Bytes) (parser : Parser) : State :=
  .running .whitespace (within before after) parser

def Spaces (bytes : Bytes) : Prop := ∀ c ∈ bytes, isSpace c = true

/-- No byte is a space. -/
def Solid (bytes : Bytes) : Prop := ∀ c ∈ bytes, isSpace c = false

instance (bytes : Bytes) : Decidable (Spaces bytes) :=
  inferInstanceAs (Decidable (∀ c ∈ bytes, isSpace c = true))

instance (bytes : Bytes) : Decidable (Solid bytes) :=
  inferInstanceAs (Decidable (∀ c ∈ bytes, isSpace c = false))

section

variable {before after gap word text : Bytes} {parser : Parser} {c : UInt8} {option : Copt}

theorem Ends.unique {outcome outcome' : Outcome} (ends : Ends text outcome)
    (ends' : Ends text outcome') : outcome = outcome' :=
  State.ended.inj (Leads.unique rfl rfl ends ends')

theorem loop_leads (before after : Bytes) (parser : Parser) :
    Leads step (.running .loop (within before after) parser) (scanning before after parser) :=
  leads_step

theorem loop_finishes {file : Reader} (atEnd : file.eof = true) :
    Leads step (.running .loop file parser) parser.finishes := by
  apply Leads.first
  rw [step, if_pos atEnd]
  exact .refl _

/-! ## White space -/

theorem space_leads (space : isSpace c = true) :
    Leads step (scanning before (c :: after) parser) (scanning (before ++ [c]) after parser) := by
  apply Leads.first
  rw [scanning, step, fread_cons]
  simp only [space, if_true]
  exact .refl _

theorem whitespace_atEnd (before : Bytes) (parser : Parser) :
    Leads step (scanning before [] parser) parser.finishes := by
  apply Leads.first
  rw [scanning, step, fread_nil]
  exact loop_finishes rfl

/-! ## Comments -/

theorem comment_byte (notNewline : c ≠ 10) (next : UInt8) :
    Leads step (.running (.comment c) (within before (next :: after)) parser)
      (.running (.comment next) (within (before ++ [next]) after) parser) := by
  apply Leads.first
  rw [step, if_neg notNewline, fread_cons]
  exact .refl _

theorem comment_lead (noNewline : 10 ∉ text) : ∀ before c, c ≠ 10 →
    Leads step (.running (.comment c) (within before (text ++ 10 :: after)) parser)
      (scanning (before ++ text ++ [10]) after parser) := by
  induction text with
  | nil =>
      intro before c notNewline
      rw [List.append_nil]
      refine (comment_byte notNewline 10).trans (Leads.first ?_)
      rw [step, if_pos rfl]
      exact loop_leads _ _ _
  | cons next text induction =>
      intro before c notNewline
      rw [List.mem_cons, not_or] at noNewline
      refine (comment_byte notNewline next).trans ?_
      rw [List.append_cons before next text]
      exact induction noNewline.2 _ _ fun same => noNewline.1 same.symm

theorem comment_leads (noNewline : 10 ∉ text) :
    Leads step (scanning before (59 :: text ++ 10 :: after) parser)
      (scanning (before ++ (59 :: text ++ [10])) after parser) := by
  apply Leads.first
  rw [List.cons_append, scanning, step, fread_cons]
  refine (comment_lead noNewline _ 59 (by decide)).trans (Leads.of_eq ?_)
  simp

/-- In a comment that the file ends in, the loop goes on for ever. -/
theorem comment_stuck (noNewline : 10 ∉ text) : ∀ before c, c ≠ 10 → ∃ state,
    Leads step (.running (.comment c) (within before text) parser) state ∧
      step state = state ∧ ∀ outcome, state ≠ .ended outcome := by
  induction text with
  | nil =>
      intro before c notNewline
      refine ⟨_, leads_step, ?_, fun _ => ?_⟩
      · rw [step, if_neg notNewline, fread_nil]
        rw [step, if_neg notNewline]
        rfl
      · rw [step, if_neg notNewline, fread_nil]
        exact State.noConfusion
  | cons next text induction =>
      intro before c notNewline
      rw [List.mem_cons, not_or] at noNewline
      rcases induction noNewline.2 (before ++ [next]) next fun same => noNewline.1 same.symm with
        ⟨state, leads, stuck⟩
      exact ⟨state, (comment_byte notNewline next).trans leads, stuck⟩

/-! ## Options -/

theorem option_lead (solid : Solid word) : ∀ before copt : Bytes,
    copt.length + word.length ≤ 48 →
    Leads step (.running (.option copt) (within before (word ++ after)) parser)
      (.running (.option (copt ++ word)) (within (before ++ word) after) parser) := by
  induction word with
  | nil =>
      intro before copt short
      rw [List.append_nil, List.append_nil]
      exact .refl _
  | cons next word induction =>
      intro before copt short
      rcases List.forall_mem_cons.mp solid with ⟨notSpace, solid⟩
      rw [List.length_cons] at short
      apply Leads.first
      have fits : ¬copt.length ≥ 48 := by omega
      rw [List.cons_append, step, if_neg (by simp [within]), if_neg fits, fread_cons]
      simp only [notSpace, Bool.false_eq_true, if_false]
      rw [List.append_cons before next word, List.append_cons copt next word]
      apply induction solid
      rw [List.length_append, List.length_singleton]
      omega

theorem option_tooLong (solid : Solid word) (long : 48 ≤ word.length) :
    Leads step (scanning before (35 :: word ++ after) parser) parser.fails := by
  apply Leads.first
  rw [List.cons_append, scanning, step, fread_cons]
  rw [← List.take_append_drop 48 word, List.append_assoc]
  have length : (word.take 48).length = 48 := by
    rw [List.length_take]
    omega
  refine (option_lead (fun c member => solid c (List.mem_of_mem_take member)) _ [] ?_).trans ?_
  · rw [length]
    exact le_rfl
  · apply Leads.first
    rw [step, if_neg (by simp [within]), if_pos (by rw [List.nil_append, length])]
    exact .refl _

theorem option_leads (solid : Solid word) (short : word.length < 48) (space : isSpace c = true) :
    Leads step (scanning before (35 :: word ++ c :: after) parser)
      (parseOption word (within (before ++ (35 :: word ++ [c])) after) parser) := by
  apply Leads.first
  rw [List.cons_append, scanning, step, fread_cons]
  refine (option_lead solid _ [] (by simpa using short.le)).trans (Leads.first ?_)
  have fits : ¬([] ++ word).length ≥ 48 := by simpa using short
  rw [step, if_neg (by simp [within]), if_neg fits, fread_cons]
  simp only [space, if_true]
  apply Leads.of_eq
  simp

/-- An option at the end of the file is not looked at. -/
theorem option_atEnd (solid : Solid word) (short : word.length < 48) :
    Leads step (scanning before (35 :: word) parser) parser.finishes := by
  apply Leads.first
  rw [scanning, step, fread_cons, ← List.append_nil word]
  refine (option_lead solid _ [] (by simpa using short.le)).trans (Leads.first ?_)
  have fits : ¬([] ++ word).length ≥ 48 := by simpa using short
  rw [step, if_neg (by simp [within]), if_neg fits, fread_nil]
  apply Leads.first
  exact loop_finishes rfl

theorem missing_fails (notSpace : isSpace c = false) (notComment : c ≠ 59) (notHash : c ≠ 35) :
    Leads step (scanning before (c :: after) parser) parser.fails := by
  apply Leads.first
  rw [scanning, step, fread_cons]
  simp only [notSpace, Bool.false_eq_true, if_false, if_neg notComment, if_pos notHash]
  exact .refl _

/-! ## Values -/

theorem value_spaces (spaces : Spaces gap) : ∀ before,
    Leads step (.running (.value option) (within before (gap ++ after)) parser)
      (.running (.value option) (within (before ++ gap) after) parser) := by
  induction gap with
  | nil =>
      intro before
      rw [List.append_nil]
      exact .refl _
  | cons c gap induction =>
      intro before
      rcases List.forall_mem_cons.mp spaces with ⟨space, spaces⟩
      apply Leads.first
      rw [List.cons_append, step, fread_cons]
      simp only [space, if_true]
      rw [List.append_cons before c gap]
      exact induction spaces _

/-- The byte that ends the white space is pushed back. -/
theorem value_leads (spaces : Spaces gap) (notSpace : isSpace c = false) :
    Leads step (.running (.value option) (within before (gap ++ c :: after)) parser)
      (parseValue option (within (before ++ gap) (c :: after)) parser) := by
  refine (value_spaces spaces before).trans (Leads.first ?_)
  rw [step, fread_cons]
  simp only [notSpace, Bool.false_eq_true, if_false]
  rw [show 1 = [c].length from rfl, seekBack_within, List.singleton_append]
  exact .refl _

/-- A directive without anything behind it is not executed. -/
theorem value_atEnd (spaces : Spaces gap) :
    Leads step (.running (.value option) (within before gap) parser) parser.finishes := by
  rw [← List.append_nil gap]
  refine (value_spaces spaces before).trans (Leads.first ?_)
  rw [step, fread_nil]
  exact loop_finishes rfl

section

variable {space : UInt8} (solid : Solid word) (short : word.length < 48)
  (found : lookup coptions word = some option)

include solid short found

theorem value_parses (spaces : Spaces (space :: gap)) (notSpace : isSpace c = false) :
    Leads step (scanning before (35 :: word ++ space :: (gap ++ c :: after)) parser)
      (parseValue option (within (before ++ (35 :: word ++ space :: gap)) (c :: after)) parser) := by
  rcases List.forall_mem_cons.mp spaces with ⟨isSpace, spaces⟩
  refine (option_leads solid short isSpace).trans ?_
  rw [parseOption, found]
  refine (value_leads spaces notSpace).trans (Leads.of_eq ?_)
  simp

theorem value_missing (spaces : Spaces (space :: gap)) :
    Leads step (scanning before (35 :: word ++ space :: gap) parser) parser.finishes := by
  rcases List.forall_mem_cons.mp spaces with ⟨isSpace, spaces⟩
  refine (option_leads solid short isSpace).trans ?_
  rw [parseOption, found]
  exact value_atEnd spaces

end

end

end CE321.Cpuinit
