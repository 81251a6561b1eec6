import CE321.Cpuinit.Places

/-! # The pieces of a file

Any file starts with pieces that can be read whole: white space, comments and directives. Behind
them the file is over, or what follows is no piece.
-/

namespace CE321.Cpuinit

open CString

/-- A directive of any file: its number may be missing, and its type may be another word. -/
inductive Command where
  | directive (directive : Directive)
  | missing (field : Field)
  | otherType

/-- The directive that a command counts as. -/
def Command.counted : Command → Option Directive
  | .directive known => some known
  | .missing field => some (.number field 0)
  | .otherType => none

def numberCommand (field : Field) : Option Int → Command
  | some value => .directive (.number field value)
  | none => .missing field

def typeCommand (word : Bytes) : Command :=
  match lookup ttype word with
  | some kind => .directive (.type kind)
  | none => .otherType

/-- A word for an option. -/
structure IsOption (copt : Bytes) (option : Copt) : Prop where
  solid : Solid copt
  short : copt.length < 48
  found : lookup coptions copt = some option

/-- A piece in front of other bytes, and the command in it. -/
inductive Piece : Option Command → Bytes → Bytes → Prop
  | space {c : UInt8} {after : Bytes} (isSpace : isSpace c = true) : Piece none [c] after
  | comment {text after : Bytes} (noNewline : 10 ∉ text) : Piece none (59 :: text ++ [10]) after
  | plain {copt gap after : Bytes} {space c : UInt8} {directive : Directive}
      (isPlain : directive.plain = true) (isOption : IsOption copt directive.option)
      (spaces : Spaces (space :: gap)) (notSpace : isSpace c = false) :
      Piece (some (.directive directive)) (35 :: copt ++ space :: gap) (c :: after)
  | number {copt gap sign digits after : Bytes} {space : UInt8} {factor : Int} (field : Field)
      (isOption : IsOption copt field.option) (spaces : Spaces (space :: gap))
      (ahead : NumberAhead sign factor digits after) (notEmpty : sign ++ (digits ++ after) ≠ []) :
      Piece (some (numberCommand field (number factor digits)))
        (35 :: copt ++ space :: (gap ++ (sign ++ digits))) after
  | name {copt gap word after : Bytes} {space c : UInt8} (isOption : IsOption copt .name)
      (spaces : Spaces (space :: gap)) (notEmpty : word ≠ []) (isWord : Solid word)
      (isSpace : isSpace c = true) :
      Piece (some (.directive (.name word))) (35 :: copt ++ space :: (gap ++ word)) (c :: after)
  | type {copt gap word after : Bytes} {space c : UInt8} (isOption : IsOption copt .type)
      (spaces : Spaces (space :: gap)) (notEmpty : word ≠ []) (isWord : Solid word)
      (isSpace : isSpace c = true) :
      Piece (some (typeCommand word)) (35 :: copt ++ space :: (gap ++ word)) (c :: after)

/-- Some pieces at the start of a file, with their commands and the rest of the file. -/
inductive Pieces : List Command → Bytes → Bytes → Prop
  | nil {rest : Bytes} : Pieces [] rest rest
  | cons {command : Option Command} {commands : List Command} {text after rest : Bytes}
      (piece : Piece command text after) (pieces : Pieces commands rest after) :
      Pieces (command.toList ++ commands) rest (text ++ after)

/-- What follows is no piece: the file is over, there is another byte than the start of a comment
or an option, the file ends in a comment, in an option, behind it or with a word, or the option is
too long or unknown. -/
inductive Stops : Bytes → Prop
  | done : Stops []
  | stray {c : UInt8} {rest : Bytes} (notSpace : isSpace c = false) (notComment : c ≠ 59)
      (notHash : c ≠ 35) : Stops (c :: rest)
  | comment {text : Bytes} (noNewline : 10 ∉ text) : Stops (59 :: text)
  | option {copt : Bytes} (solid : Solid copt) (short : copt.length < 48) : Stops (35 :: copt)
  | tooLong {copt rest : Bytes} (solid : Solid copt) (long : 48 ≤ copt.length) :
      Stops (35 :: copt ++ rest)
  | unknown {copt rest : Bytes} {space : UInt8} (solid : Solid copt) (short : copt.length < 48)
      (missing : lookup coptions copt = none) (isSpace : isSpace space = true) :
      Stops (35 :: copt ++ space :: rest)
  | valueless {copt gap : Bytes} {space : UInt8} {option : Copt} (isOption : IsOption copt option)
      (spaces : Spaces (space :: gap)) : Stops (35 :: copt ++ space :: gap)
  | name {copt gap front : Bytes} {space last : UInt8} (isOption : IsOption copt .name)
      (spaces : Spaces (space :: gap)) (isWord : Solid (front ++ [last])) :
      Stops (35 :: copt ++ space :: (gap ++ (front ++ [last])))
  | type {copt gap front : Bytes} {space last : UInt8} (isOption : IsOption copt .type)
      (spaces : Spaces (space :: gap)) (isWord : Solid (front ++ [last])) :
      Stops (35 :: copt ++ space :: (gap ++ (front ++ [last])))

section

variable {contents rest text after copt gap sign digits : Bytes} {c space : UInt8} {factor : Int}
  {option : Copt} {command : Option Command} {commands : List Command}

/-! ## Parts of a text -/

theorem split_while (kind : UInt8 → Bool) (bytes : Bytes) : ∃ front rest, bytes = front ++ rest ∧
    (∀ c ∈ front, kind c = true) ∧ ∀ c, rest.head? = some c → kind c = false := by
  refine ⟨bytes.takeWhile kind, bytes.dropWhile kind, List.takeWhile_append_dropWhile.symm,
    fun c member => List.mem_takeWhile_imp member, fun c isFirst => ?_⟩
  have stops := List.head?_dropWhile_not kind bytes
  rw [isFirst] at stops
  exact stops

theorem split_word (bytes : Bytes) : ∃ word rest, bytes = word ++ rest ∧ Solid word ∧
    (rest = [] ∨ ∃ c after, rest = c :: after ∧ isSpace c = true) := by
  rcases split_while (fun c => !isSpace c) bytes with ⟨word, rest, split, solid, stops⟩
  refine ⟨word, rest, split, fun c member => by simpa using solid c member, ?_⟩
  cases rest with
  | nil => exact .inl rfl
  | cons c after => exact .inr ⟨c, after, rfl, by simpa using stops c rfl⟩

theorem split_spaces (bytes : Bytes) : ∃ gap rest, bytes = gap ++ rest ∧ Spaces gap ∧
    (rest = [] ∨ ∃ c after, rest = c :: after ∧ isSpace c = false) := by
  rcases split_while isSpace bytes with ⟨gap, rest, split, spaces, stops⟩
  refine ⟨gap, rest, split, spaces, ?_⟩
  cases rest with
  | nil => exact .inl rfl
  | cons c after => exact .inr ⟨c, after, rfl, stops c rfl⟩

theorem split_line {bytes : Bytes} (hasNewline : 10 ∈ bytes) :
    ∃ text rest, bytes = text ++ 10 :: rest ∧ 10 ∉ text := by
  rcases split_while (· ≠ 10) bytes with ⟨text, rest, rfl, others, stops⟩
  have notText : 10 ∉ text := fun member => by simpa using others 10 member
  cases rest with
  | nil =>
      rw [List.append_nil] at hasNewline
      exact absurd hasNewline notText
  | cons c rest =>
      have isNewline : c = 10 := by simpa using stops c rfl
      exact ⟨text, rest, by rw [isNewline], notText⟩

/-! ## Cutting a file -/

/-- A file starts with a piece. -/
def HasPiece (contents : Bytes) : Prop :=
  ∃ command text after, contents = text ++ after ∧ text ≠ [] ∧ Piece command text after

/-- A word behind an option is followed by white space, or the file ends with it. -/
theorem cut_word (isOption : IsOption copt option) (spaces : Spaces (space :: gap))
    (notSpace : isSpace c = false) (isWord : option = .name ∨ option = .type) :
    Stops (35 :: copt ++ space :: (gap ++ c :: rest)) ∨
      HasPiece (35 :: copt ++ space :: (gap ++ c :: rest)) := by
  rcases split_word (c :: rest) with ⟨word, following, split, solid, atEnd⟩
  have notEmpty : word ≠ [] := by
    rintro rfl
    rcases atEnd with rfl | ⟨first, after, rfl, isSpace⟩
    · cases split
    · cases split
      rw [isSpace] at notSpace
      cases notSpace
  rw [split]
  rcases atEnd with rfl | ⟨next, after, rfl, isSpace⟩
  · left
    rw [List.append_nil]
    rcases List.eq_nil_or_concat' word with empty | ⟨front, last, rfl⟩
    · exact absurd empty notEmpty
    · rcases isWord with rfl | rfl
      · exact .name isOption spaces solid
      · exact .type isOption spaces solid
  · right
    have whole : 35 :: copt ++ space :: (gap ++ (word ++ next :: after)) =
        (35 :: copt ++ space :: (gap ++ word)) ++ next :: after := by simp
    rcases isWord with rfl | rfl
    · exact ⟨_, _, _, whole, by simp, .name isOption spaces notEmpty solid isSpace⟩
    · exact ⟨_, _, _, whole, by simp, .type isOption spaces notEmpty solid isSpace⟩

theorem cut_number (field : Field) (isOption : IsOption copt field.option)
    (spaces : Spaces (space :: gap)) (notSpace : isSpace c = false) :
    HasPiece (35 :: copt ++ space :: (gap ++ c :: rest)) := by
  rcases numberAhead notSpace rest with ⟨sign, factor, digits, after, split, ahead⟩
  have plain : EndsNumber [] := fun c isFirst => by cases isFirst
  have ahead := ahead [] plain
  rw [List.append_nil] at ahead
  refine ⟨_, _, after, ?_, by simp, .number field isOption spaces ahead ?_⟩
  · rw [split]
    simp
  · rw [← split]
    exact List.cons_ne_nil _ _

theorem cut_plain {directive : Directive} (isPlain : directive.plain = true)
    (isOption : IsOption copt directive.option) (spaces : Spaces (space :: gap))
    (notSpace : isSpace c = false) : HasPiece (35 :: copt ++ space :: (gap ++ c :: rest)) :=
  ⟨_, _, c :: rest, by simp, by simp, .plain isPlain isOption spaces notSpace⟩

theorem cut_value (isOption : IsOption copt option) (spaces : Spaces (space :: gap))
    (notSpace : isSpace c = false) : Stops (35 :: copt ++ space :: (gap ++ c :: rest)) ∨
      HasPiece (35 :: copt ++ space :: (gap ++ c :: rest)) := by
  cases option with
  | cycleTime => exact .inr (cut_number .cycleTime isOption spaces notSpace)
  | seed => exact .inr (cut_number .seed isOption spaces notSpace)
  | endtime => exact .inr (cut_number .endtime isOption spaces notSpace)
  | spawnTime => exact .inr (cut_number .spawnTime isOption spaces notSpace)
  | killTime => exact .inr (cut_number .killTime isOption spaces notSpace)
  | nice => exact .inr (cut_number .nice isOption spaces notSpace)
  | workDuration => exact .inr (cut_number .workDuration isOption spaces notSpace)
  | newProcess => exact .inr (@cut_plain _ _ _ c space .newProcess rfl isOption spaces notSpace)
  | endProcess => exact .inr (@cut_plain _ _ _ c space .endProcess rfl isOption spaces notSpace)
  | spawn => exact .inr (@cut_plain _ _ _ c space .spawn rfl isOption spaces notSpace)
  | endSpawn => exact .inr (@cut_plain _ _ _ c space .endSpawn rfl isOption spaces notSpace)
  | name => exact cut_word isOption spaces notSpace (.inl rfl)
  | type => exact cut_word isOption spaces notSpace (.inr rfl)

theorem cut_option (rest : Bytes) : Stops (35 :: rest) ∨ HasPiece (35 :: rest) := by
  rcases split_word rest with ⟨copt, following, rfl, solid, atEnd⟩
  by_cases short : copt.length < 48
  · rcases atEnd with rfl | ⟨space, after, rfl, isSpace⟩
    · rw [List.append_nil]
      exact .inl (.option solid short)
    · cases found : lookup coptions copt with
      | none => exact .inl (.unknown solid short found isSpace)
      | some option =>
          have isOption : IsOption copt option := ⟨solid, short, found⟩
          rcases split_spaces after with ⟨gap, rest, rfl, spaces, atEnd⟩
          have spaces : Spaces (space :: gap) := List.forall_mem_cons.mpr ⟨isSpace, spaces⟩
          rcases atEnd with rfl | ⟨c, after, rfl, notSpace⟩
          · rw [List.append_nil]
            exact .inl (.valueless isOption spaces)
          · exact cut_value isOption spaces notSpace
  · exact .inl (.tooLong solid (by omega))

theorem cut_first (contents : Bytes) : Stops contents ∨ HasPiece contents := by
  cases contents with
  | nil => exact .inl .done
  | cons c rest =>
      cases isSpace : isSpace c with
      | true => exact .inr ⟨none, [c], rest, rfl, by simp, .space isSpace⟩
      | false =>
          by_cases isComment : c = 59
          · subst isComment
            by_cases hasNewline : 10 ∈ rest
            · rcases split_line hasNewline with ⟨text, after, rfl, noNewline⟩
              exact .inr ⟨none, 59 :: text ++ [10], after, by simp, by simp, .comment noNewline⟩
            · exact .inl (.comment hasNewline)
          · by_cases isHash : c = 35
            · subst isHash
              exact cut_option rest
            · exact .inl (.stray isSpace isComment isHash)

/-- Every file can be cut into pieces up to where it stops. -/
theorem cut (contents : Bytes) : ∃ commands rest, Pieces commands rest contents ∧ Stops rest := by
  induction size : contents.length using Nat.strongRecOn generalizing contents with
  | _ length induction =>
      rcases cut_first contents with stops | ⟨command, text, after, rfl, notEmpty, piece⟩
      · exact ⟨[], contents, .nil, stops⟩
      · have shorter : after.length < length := by
          have positive := List.length_pos_iff.mpr notEmpty
          rw [List.length_append] at size
          omega
        rcases induction after.length shorter after rfl with ⟨commands, rest, pieces, stops⟩
        exact ⟨_, rest, .cons piece pieces, stops⟩

/-! ## A newline behind the file -/

theorem NumberAhead.newline (ahead : NumberAhead sign factor digits after)
    (notEmpty : sign ++ (digits ++ after) ≠ []) :
    NumberAhead sign factor digits (after ++ [10]) where
  isSign := ahead.isSign
  digit := ahead.digit
  stops := by
    intro c isFirst
    cases after with
    | nil =>
        cases isFirst
        rfl
    | cons next after => exact ahead.stops c isFirst
  unsigned := by
    intro noSign c isFirst
    rw [noSign, List.nil_append] at notEmpty
    rw [← List.append_assoc, List.head?_append_of_ne_nil _ notEmpty] at isFirst
    exact ahead.unsigned noSign c isFirst
  notSpace := by
    intro c isFirst
    rw [← List.append_assoc digits, ← List.append_assoc, List.head?_append_of_ne_nil _ notEmpty]
      at isFirst
    exact ahead.notSpace c isFirst

theorem Piece.newline (piece : Piece command text after) : Piece command text (after ++ [10]) := by
  cases piece with
  | space isSpace => exact .space isSpace
  | comment noNewline => exact .comment noNewline
  | plain isPlain isOption spaces notSpace => exact .plain isPlain isOption spaces notSpace
  | @number _ _ sign digits _ _ _ field isOption spaces ahead notEmpty =>
      refine .number field isOption spaces (ahead.newline notEmpty) ?_
      rw [← List.append_assoc digits, ← List.append_assoc sign]
      exact List.append_ne_nil_of_left_ne_nil notEmpty [10]
  | name isOption spaces notEmpty isWord isSpace =>
      exact .name isOption spaces notEmpty isWord isSpace
  | type isOption spaces notEmpty isWord isSpace =>
      exact .type isOption spaces notEmpty isWord isSpace

theorem Pieces.newline (pieces : Pieces commands rest contents) :
    Pieces commands (rest ++ [10]) (contents ++ [10]) := by
  induction pieces with
  | nil => exact .nil
  | cons piece pieces induction =>
      rw [List.append_assoc]
      exact .cons piece.newline induction

end

end CE321.Cpuinit
