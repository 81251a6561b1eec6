import CE321.Cpuinit.Commands

/-! # A file piece by piece

`readProfile` executes the commands of a file in their order, up to the place where the file stops.
-/

namespace CE321.Cpuinit

open CString Reader

/-- The run behind a piece: the loop over the file ends, or it goes on. -/
def settled (before after : Bytes) (result : Except Outcome Parser) : State :=
  if after = [] then conclude result else resume before after result

/-- What the word of a `#TYPE` does. Another word does nothing. -/
def Parser.typed (parser : Parser) (word : Bytes) : Except Outcome Parser :=
  match lookup ttype word with
  | none => .ok parser
  | some kind => writeTask parser fun info => { info with threadType := some kind }

section

variable {before after text word gap rest contents : Bytes} {parser parser' : Parser}
  {command : Option Command} {commands : List Command} {c space first last : UInt8}
  {outcome : Outcome}

/-! ## Values -/

theorem parseValue_name {file file' : Reader} {name : Option Bytes}
    (read : readstring file = (name, file')) :
    parseValue .name file parser =
      goOn file' (writeTask parser fun info => { info with processName := name }) := by
  simp only [parseValue, read]

theorem parseValue_type {file file' : Reader} (read : readstring file = (some word, file')) :
    parseValue .type file parser = goOn file' (parser.typed word) := by
  simp only [parseValue, read, Parser.typed]
  cases lookup ttype word <;> rfl

theorem typeCommand_execute (word : Bytes) (parser : Parser) :
    (typeCommand word).execute parser = parser.typed word := by
  unfold typeCommand Parser.typed
  cases lookup ttype word <;> rfl

theorem numberCommand_execute (field : Field) (value : Option Int) (parser : Parser) :
    (numberCommand field value).execute parser = assign field value parser := by
  cases value <;> rfl

/-! ## Pieces -/

theorem settled_error : settled before after (.error outcome) = .ended outcome := by
  unfold settled
  split_ifs <;> rfl

/-- The loop goes on behind a value, or finds that the flag is set. -/
theorem looked_settled (before after : Bytes) (result : Except Outcome Parser) :
    Leads step (goOn (looked before after) result) (settled before after result) := by
  cases after with
  | nil =>
      cases result with
      | error outcome => exact .refl _
      | ok parser => exact loop_finishes rfl
  | cons c after => exact goOn_leads result

theorem scanning_settled (before after : Bytes) (parser : Parser) :
    Leads step (scanning before after parser) (settled before after (.ok parser)) := by
  cases after with
  | nil => exact whitespace_atEnd before parser
  | cons c after => exact .refl _

theorem IsOption.parses {copt : Bytes} {option : Copt} (isOption : IsOption copt option)
    (spaces : Spaces (space :: gap)) (notSpace : isSpace c = false) :
    Leads step (scanning before (35 :: copt ++ space :: (gap ++ c :: after)) parser)
      (parseValue option (within (before ++ (35 :: copt ++ space :: gap)) (c :: after)) parser) :=
  value_parses isOption.solid isOption.short isOption.found spaces notSpace

theorem executeCommands_singleton (known : Command) (parser : Parser) :
    executeCommands [known] parser = known.execute parser := by
  rw [executeCommands]
  cases known.execute parser <;> rfl

theorem word_leads {copt : Bytes} {option : Copt} {result : Except Outcome Parser}
    (isOption : IsOption copt option) (spaces : Spaces (space :: gap)) (notEmpty : word ≠ [])
    (isWord : Solid word) (isSpace : isSpace c = true)
    (parses : ∀ file file', readstring file = (some word, file') →
      parseValue option file parser = goOn file' result) :
    Leads step (scanning before (35 :: copt ++ space :: (gap ++ word) ++ c :: after) parser)
      (settled (before ++ (35 :: copt ++ space :: (gap ++ word))) (c :: after) result) := by
  cases word with
  | nil => exact absurd rfl notEmpty
  | cons first word =>
      have whole : 35 :: copt ++ space :: (gap ++ first :: word) ++ c :: after =
          35 :: copt ++ space :: (gap ++ first :: (word ++ c :: after)) := by simp
      rw [whole]
      refine (isOption.parses spaces (isWord first List.mem_cons_self)).trans ?_
      rw [← List.cons_append, parses _ _ (readstring_space notEmpty isWord isSpace)]
      refine (goOn_leads result).trans (Leads.of_eq ?_)
      simp [settled]

theorem Piece.leads (piece : Piece command text after) (before : Bytes) (parser : Parser) :
    Leads step (scanning before (text ++ after) parser)
      (settled (before ++ text) after (executeCommands command.toList parser)) := by
  cases piece with
  | space isSpace => exact (space_leads isSpace).trans (scanning_settled _ _ _)
  | @comment text after noNewline =>
      have whole : 59 :: text ++ [10] ++ after = 59 :: text ++ 10 :: after := by simp
      rw [whole]
      exact (comment_leads noNewline).trans (scanning_settled _ _ _)
  | @plain copt gap after space c directive isPlain isOption spaces notSpace =>
      have whole : 35 :: copt ++ space :: gap ++ c :: after =
          35 :: copt ++ space :: (gap ++ c :: after) := by simp
      rw [whole, Option.toList_some, executeCommands_singleton]
      refine (isOption.parses spaces notSpace).trans ?_
      rw [parseValue_plain isPlain]
      exact goOn_leads _
  | @number copt gap sign digits after space factor field isOption spaces ahead notEmpty =>
      have read := @NumberAhead.readint (before ++ (35 :: copt ++ space :: gap)) after sign digits
        factor ahead notEmpty
      have whole : 35 :: copt ++ space :: (gap ++ (sign ++ digits)) ++ after =
          35 :: copt ++ space :: (gap ++ (sign ++ (digits ++ after))) := by simp
      have notSpace := ahead.notSpace
      have placed : before ++ (35 :: copt ++ space :: gap) ++ sign ++ digits =
          before ++ (35 :: copt ++ space :: (gap ++ (sign ++ digits))) := by simp
      rw [whole, Option.toList_some, executeCommands_singleton, numberCommand_execute, ← placed]
      generalize sign ++ (digits ++ after) = value at notEmpty notSpace read
      cases value with
      | nil => exact absurd rfl notEmpty
      | cons c value =>
          refine (isOption.parses spaces (notSpace c rfl)).trans ?_
          rw [parseValue_number, read]
          exact looked_settled _ _ _
  | name isOption spaces notEmpty isWord isSpace =>
      rw [Option.toList_some, executeCommands_singleton]
      exact word_leads isOption spaces notEmpty isWord isSpace fun file file' read =>
        parseValue_name read
  | @type copt gap word after space c isOption spaces notEmpty isWord isSpace =>
      rw [Option.toList_some, executeCommands_singleton, typeCommand_execute]
      exact word_leads isOption spaces notEmpty isWord isSpace fun file file' read =>
        parseValue_type read

theorem Piece.notEmpty (piece : Piece command text after) : text ≠ [] := by
  cases piece <;> simp

theorem executeCommands_append (commands commands' : List Command) (parser : Parser) :
    executeCommands (commands ++ commands') parser =
      (executeCommands commands parser).bind (executeCommands commands') := by
  induction commands generalizing parser with
  | nil => rfl
  | cons known commands induction =>
      rw [List.cons_append, executeCommands, executeCommands]
      cases known.execute parser with
      | ok parser => exact induction parser
      | error outcome => rfl

theorem Pieces.of_nil (pieces : Pieces commands rest contents) (empty : contents = []) :
    commands = [] ∧ rest = [] := by
  cases pieces with
  | nil => exact ⟨rfl, empty⟩
  | cons piece pieces => exact absurd (List.append_eq_nil_iff.mp empty).1 piece.notEmpty

theorem Pieces.split (pieces : Pieces commands rest contents) :
    ∃ front, contents = front ++ rest := by
  induction pieces with
  | nil => exact ⟨[], rfl⟩
  | @cons _ _ text _ _ piece pieces induction =>
      rcases induction with ⟨front, rfl⟩
      exact ⟨text ++ front, (List.append_assoc _ _ _).symm⟩

theorem Pieces.leads (pieces : Pieces commands rest contents) : ∀ before parser, ∃ before',
    Leads step (scanning before contents parser)
      (settled before' rest (executeCommands commands parser)) := by
  induction pieces with
  | nil => exact fun before parser => ⟨before, scanning_settled _ _ _⟩
  | @cons command commands text after rest piece pieces induction =>
      intro before parser
      have first := piece.leads before parser
      rw [executeCommands_append]
      cases result : executeCommands command.toList parser with
      | error outcome =>
          rw [result, settled_error] at first
          refine ⟨[], ?_⟩
          show Leads step _ (settled _ _ (.error outcome))
          rw [settled_error]
          exact first
      | ok middle =>
          rw [result] at first
          show ∃ before', Leads step _ (settled before' rest (executeCommands commands middle))
          cases after with
          | nil =>
              rcases pieces.of_nil rfl with ⟨rfl, rfl⟩
              exact ⟨_, first⟩
          | cons c after =>
              rcases induction (before ++ text) middle with ⟨before', leads⟩
              exact ⟨before', first.trans leads⟩

theorem Pieces.ends_iff (pieces : Pieces commands rest contents)
    (executes : executeCommands commands initialParser = .ok parser) : ∃ before, ∀ outcome,
    Ends contents outcome ↔ Leads step (scanning before rest parser) (.ended outcome) := by
  rcases pieces.leads [] initialParser with ⟨before, leads⟩
  rw [executes] at leads
  have starts := (loop_leads [] contents initialParser).trans leads
  refine ⟨before, fun outcome => ⟨fun ends => ?_, fun ends => ?_⟩⟩
  · exact (scanning_settled _ _ _).trans (Leads.onward rfl ends starts)
  · exact starts.trans (Leads.onward rfl ends (scanning_settled _ _ _))

theorem Pieces.ends_error (pieces : Pieces commands rest contents)
    (stops : executeCommands commands initialParser = .error outcome) : Ends contents outcome := by
  rcases pieces.leads [] initialParser with ⟨before, leads⟩
  rw [stops, settled_error] at leads
  exact (loop_leads [] contents initialParser).trans leads

/-! ## Ends of files -/

theorem newline_finishes (before : Bytes) (parser : Parser) :
    Leads step (scanning before [10] parser) parser.finishes :=
  (space_leads rfl).trans (whitespace_atEnd _ _)

theorem comment_endless {text : Bytes} (noNewline : 10 ∉ text) :
    ¬Leads step (scanning before (59 :: text) parser) (.ended outcome) := by
  intro ends
  have starts : Leads step (scanning before (59 :: text) parser)
      (.running (.comment 59) (within (before ++ [59]) text) parser) := by
    apply Leads.first
    rw [scanning, step, fread_cons]
    exact .refl _
  rcases @comment_stuck text parser noNewline (before ++ [59]) 59 (by decide) with
    ⟨state, leads, stuck, running⟩
  exact running outcome (Leads.unique stuck rfl (starts.trans leads) ends)

theorem lastByte_leads (notSpace : isSpace last = false) (notComment : last ≠ 59) :
    Leads step (scanning before [last] parser)
      (.ended (.returned (decide (parser.children = 0 ∧ last = 35)) parser.memory)) := by
  by_cases isHash : last = 35
  · subst isHash
    have leads := @option_atEnd before [] parser (fun c member => absurd member List.not_mem_nil)
      (by decide)
    rw [Parser.finishes] at leads
    simpa using leads
  · have leads := @missing_fails before [] parser last notSpace notComment isHash
    rw [Parser.fails] at leads
    simpa [isHash] using leads

theorem lastByte_memory (notSpace : isSpace last = false)
    (ends : Leads step (scanning before [last] parser) (.ended outcome)) :
    ∃ value, outcome = .returned value parser.memory := by
  by_cases isComment : last = 59
  · subst isComment
    exact absurd ends (comment_endless List.not_mem_nil)
  · have same := Leads.unique rfl rfl ends (lastByte_leads notSpace isComment)
    exact ⟨_, State.ended.inj same⟩

/-! ## Words at the end of a file -/

/-- With a newline behind it a word is the last thing that counts. -/
theorem newline_leads (before : Bytes) (result : Except Outcome Parser) :
    Leads step (goOn (within before [10]) result) (conclude result) := by
  cases result with
  | error outcome => exact .refl _
  | ok parser => exact (loop_leads before [10] parser).trans (newline_finishes _ _)

/-- The step back goes one byte too far, and the last byte is left to be read again. -/
theorem readstring_last {front : Bytes} (spaces : Spaces (space :: gap))
    (isWord : Solid (front ++ [last])) : ∃ others first, isSpace first = true ∧
      readstring (within (before ++ space :: gap) (front ++ [last])) =
        (some (first :: front), within others [last]) := by
  rcases List.eq_nil_or_concat' (space :: gap) with empty | ⟨others, first, split⟩
  · cases empty
  · have isSpace : isSpace first = true := by
      apply spaces
      rw [split]
      simp
    have read := @readstring_atEnd (before ++ others) front last isWord first
    rw [split, ← List.append_assoc]
    exact ⟨_, first, isSpace, read⟩

theorem readstring_newline {front : Bytes} (isWord : Solid (front ++ [last])) :
    readstring (within before (front ++ [last] ++ [10])) =
      (some (front ++ [last]), within (before ++ (front ++ [last])) [10]) :=
  readstring_space (by simp) isWord rfl

theorem ne_of_isSpace (space : isSpace first = true) : first ≠ 0 ∧ first ≠ 73 ∧ first ≠ 78 := by
  refine ⟨?_, ?_, ?_⟩
  all_goals
    rintro rfl
    revert space
    decide

theorem lookup_type_space (space : isSpace first = true) (front : Bytes) :
    lookup ttype (first :: front) = none := by
  rcases ne_of_isSpace space with ⟨notZero, notI, notN⟩
  have starts : ∀ text : Bytes, ∀ second rest, contents text = second :: rest → first ≠ second →
      strcmpEq (first :: front) text = false := by
    intro text second rest isText differ
    rw [strcmpEq, isText, contents, List.takeWhile_cons_of_pos (by simpa using notZero)]
    simp [differ]
  have interactive : strcmpEq (first :: front) (ascii "INTERACTIVE") = false :=
    starts _ 73 (ascii "NTERACTIVE") rfl notI
  have noninteractive : strcmpEq (first :: front) (ascii "NONINTERACTIVE") = false :=
    starts _ 78 (ascii "ONINTERACTIVE") rfl notN
  simp [lookup, ttype, interactive, noninteractive]

theorem memory_typed (task : Nat) (kind : Vsched.ThreadType) :
    parser.memory = (parser.setInfo task fun info => { info with threadType := some kind }).memory ↔
      (parser.memory.info task).threadType = some kind := by
  constructor
  · intro same
    have kinds := congrArg (fun memory => (memory.info task).threadType) same
    simpa [Parser.setInfo, Memory.setInfo] using kinds
  · intro has
    have unchanged : { parser.memory.info task with threadType := some kind } =
        parser.memory.info task := by rw [← has]
    simp only [Parser.setInfo, Memory.setInfo, unchanged, Function.update_eq_self]

end

end CE321.Cpuinit
