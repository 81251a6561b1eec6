import CE321.Cpuinit.Passes

/-! # Numbers and words

What `readint` and `readstring` read, up to another byte and up to the end of the file.
-/

namespace CE321.Cpuinit

open CString Reader

/-- The sign of a number and its factor. -/
inductive IsSign : Bytes → Int → Prop
  | none : IsSign [] 1
  | plus : IsSign [43] 1
  | minus : IsSign [45] (-1)

/-- The number that `readint` makes of digits. -/
def number (factor : Int) (digits : Bytes) : Option Int :=
  if digits = [] then none else some (storeInt (factor * digitsValue digits))

/-- The parts of a text that `readint` tells apart. -/
structure NumberAhead (sign : Bytes) (factor : Int) (digits after : Bytes) : Prop where
  isSign : IsSign sign factor
  digit : ∀ c ∈ digits, isDigit c = true
  stops : ∀ c, after.head? = some c → isDigit c = false
  unsigned : sign = [] → ∀ c, (digits ++ after).head? = some c → c ≠ 43 ∧ c ≠ 45
  notSpace : ∀ c, (sign ++ (digits ++ after)).head? = some c → isSpace c = false

section

variable {before after sign digits word : Bytes} {factor : Int} {parser : Parser} {c : UInt8}

/-! ## Numbers -/

theorem NumberAhead.readSign (ahead : NumberAhead sign factor digits after) :
    readSign (within before (sign ++ (digits ++ after))) =
      (factor, within (before ++ sign) (digits ++ after)) := by
  have unsigned := ahead.unsigned
  cases ahead.isSign with
  | none =>
      rw [Cpuinit.readSign, List.nil_append, List.append_nil, if_neg, if_neg]
      · exact fun plus => (unsigned rfl 43 plus).1 rfl
      · exact fun minus => (unsigned rfl 45 minus).2 rfl
  | plus =>
      rw [Cpuinit.readSign, List.singleton_append, fread_cons]
      simp [within]
  | minus =>
      rw [Cpuinit.readSign, List.singleton_append, fread_cons]
      simp [within]

theorem NumberAhead.readint (ahead : NumberAhead sign factor digits after)
    (notEmpty : sign ++ (digits ++ after) ≠ []) :
    readint (within before (sign ++ (digits ++ after))) =
      (number factor digits, looked (before ++ sign ++ digits) after) := by
  have skipped := @readWhile_within before (sign ++ (digits ++ after)) [] isSpace
    (fun c member => absurd member List.not_mem_nil) ahead.notSpace
  have there : looked before (sign ++ (digits ++ after)) =
      within before (sign ++ (digits ++ after)) := by
    cases split : sign ++ (digits ++ after) with
    | nil => exact absurd split notEmpty
    | cons c rest => rfl
  rw [List.nil_append, List.append_nil, there] at skipped
  simp only [Cpuinit.readint, skipped, ahead.readSign, readWhile_within ahead.digit ahead.stops]
  rfl

/-- A text that follows a number and is no part of it. -/
def EndsNumber (text : Bytes) : Prop :=
  ∀ c, text.head? = some c → isDigit c = false ∧ c ≠ 43 ∧ c ≠ 45

theorem dropWhile_stops {text newline : Bytes} (ends : EndsNumber newline) :
    ∀ c, (text.dropWhile isDigit ++ newline).head? = some c → isDigit c = false := by
  intro c first
  cases rest : text.dropWhile isDigit with
  | nil =>
      rw [rest, List.nil_append] at first
      exact (ends c first).1
  | cons next rest' =>
      rw [rest] at first
      cases first
      have notDigit := List.head?_dropWhile_not isDigit text
      rw [rest] at notDigit
      exact notDigit

theorem numberAhead (notSpace : isSpace c = false) (rest : Bytes) :
    ∃ sign factor digits after, c :: rest = sign ++ (digits ++ after) ∧
      ∀ newline, EndsNumber newline → NumberAhead sign factor digits (after ++ newline) := by
  have digit : ∀ text : Bytes, ∀ c ∈ text.takeWhile isDigit, isDigit c = true :=
    fun text c member => List.mem_takeWhile_imp member
  have whole : ∀ text : Bytes, text = text.takeWhile isDigit ++ text.dropWhile isDigit :=
    fun text => List.takeWhile_append_dropWhile.symm
  by_cases signed : c = 43 ∨ c = 45
  · have isSign : ∃ factor, IsSign [c] factor := by
      rcases signed with rfl | rfl
      · exact ⟨1, .plus⟩
      · exact ⟨-1, .minus⟩
    rcases isSign with ⟨factor, isSign⟩
    refine ⟨[c], factor, _, _, congrArg (c :: ·) (whole rest), fun newline ends => ?_⟩
    refine ⟨isSign, digit rest, dropWhile_stops ends, (fun empty => by cases empty), ?_⟩
    intro first head
    cases head
    exact notSpace
  · rw [not_or] at signed
    refine ⟨[], 1, _, _, whole (c :: rest), fun newline ends => ?_⟩
    have head : ∀ first, ((c :: rest).takeWhile isDigit ++
        ((c :: rest).dropWhile isDigit ++ newline)).head? = some first → first = c := by
      intro first head
      rw [← List.append_assoc, ← whole] at head
      cases head
      rfl
    refine ⟨.none, digit _, dropWhile_stops ends, fun _ first isFirst => ?_, fun first isFirst => ?_⟩
    · exact head first isFirst ▸ signed
    · exact head first isFirst ▸ notSpace

/-! ## Words -/

theorem readstring_space (notEmpty : word ≠ []) (solid : Solid word) (space : isSpace c = true) :
    readstring (within before (word ++ c :: after)) =
      (some word, within (before ++ word) (c :: after)) := by
  have past := @readPast_cons before after word c (fun c => !isSpace c)
    (fun c member => by simp [solid c member]) (by simp [space])
  have back := @seekBack_within before after (word ++ [c])
  rw [List.length_append, List.length_singleton, ← List.append_assoc] at back
  simp only [readstring, past, if_neg notEmpty, back]
  simp [within]

/-- At the end of the file the step back goes too far. -/
theorem readstring_atEnd (solid : Solid (word ++ [c])) (first : UInt8) :
    readstring (within (before ++ [first]) (word ++ [c])) =
      (some (first :: word), within (before ++ first :: word) [c]) := by
  have past := @readPast_atEnd (before ++ [first]) (word ++ [c]) (fun c => !isSpace c)
    (fun c member => by simp [solid c member])
  have notEmpty : word ++ [c] ≠ [] := by simp
  have back := @seekBack_atEnd before [] (first :: (word ++ [c]))
  have same : before ++ [first] ++ (word ++ [c]) = before ++ (first :: (word ++ [c])) := by simp
  rw [List.length_cons] at back
  simp only [readstring, past, if_neg notEmpty, looked_nil, same, back]
  simp [within]

end

end CE321.Cpuinit
