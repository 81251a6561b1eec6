import CE321.Cpuinit.Values

/-! # Directives

A profile as a sequence of directives: what each of them does, how it is written, and that
`readProfile` does it where it finds it written.
-/

namespace CE321.Cpuinit

open CString Reader
open Vsched (ThreadType)

/-- What a directive with a number sets. -/
inductive Field where
  | cycleTime
  | seed
  | endtime
  | spawnTime
  | killTime
  | nice
  | workDuration
  deriving DecidableEq

inductive Directive where
  | number (field : Field) (value : Int)
  | name (word : Bytes)
  | type (kind : ThreadType)
  | newProcess
  | endProcess
  | spawn
  | endSpawn
  deriving DecidableEq

def Field.option : Field → Copt
  | .cycleTime => .cycleTime
  | .seed => .seed
  | .endtime => .endtime
  | .spawnTime => .spawnTime
  | .killTime => .killTime
  | .nice => .nice
  | .workDuration => .workDuration

def Directive.option : Directive → Copt
  | .number field _ => field.option
  | .name _ => .name
  | .type _ => .type
  | .newProcess => .newProcess
  | .endProcess => .endProcess
  | .spawn => .spawn
  | .endSpawn => .endSpawn

/-- A directive without a value. -/
def Directive.plain : Directive → Bool
  | .newProcess => true
  | .endProcess => true
  | .spawn => true
  | .endSpawn => true
  | _ => false

/-- A directive that sets a field of a process. -/
def Directive.perProcess : Directive → Bool
  | .number .cycleTime _ => false
  | .number .seed _ => false
  | .number .endtime _ => false
  | .number _ _ => true
  | .name _ => true
  | .type _ => true
  | _ => false

/-! ## Execution -/

/-- The number that `readint` found, if any, goes to its field. -/
def assign (field : Field) (value : Option Int) (parser : Parser) : Except Outcome Parser :=
  match field with
  | .cycleTime => .ok { parser with memory := { parser.memory with cycletime := value } }
  | .seed => .ok { parser with memory := { parser.memory with ranSeed := value } }
  | .endtime => .ok { parser with memory := { parser.memory with endtime := value } }
  | .spawnTime => writeTask parser fun info => { info with spawnTime := value }
  | .killTime => writeTask parser fun info => { info with killTime := value }
  | .nice => writeTask parser fun info => { info with niceValue := value.map checkNice }
  | .workDuration => writeTask parser fun info => { info with workDuration := value }

def Directive.execute (parser : Parser) : Directive → Except Outcome Parser
  | .number field value => assign field (some value) parser
  | .name word => writeTask parser fun info => { info with processName := some word }
  | .type kind => writeTask parser fun info => { info with threadType := some kind }
  | .newProcess => Cpuinit.newProcess parser
  | .endProcess => .ok { parser with newtask := none }
  | .spawn => Cpuinit.spawn parser
  | .endSpawn => Cpuinit.endSpawn parser

def executeAll : List Directive → Parser → Except Outcome Parser
  | [], parser => .ok parser
  | directive :: rest, parser => (directive.execute parser).bind (executeAll rest)

/-- The end of the file after some directives. -/
def conclude : Except Outcome Parser → State
  | .ok parser => parser.finishes
  | .error outcome => .ended outcome

/-- What a directive changes of the process it is for. -/
def Directive.change (info : ThreadInfo) : Directive → ThreadInfo
  | .number .spawnTime value => { info with spawnTime := some value }
  | .number .killTime value => { info with killTime := some value }
  | .number .nice value => { info with niceValue := some (checkNice value) }
  | .number .workDuration value => { info with workDuration := some value }
  | .name word => { info with processName := some word }
  | .type kind => { info with threadType := some kind }
  | _ => info

theorem execute_perProcess {directive : Directive} (perProcess : directive.perProcess = true)
    (parser : Parser) :
    directive.execute parser = writeTask parser fun info => directive.change info := by
  cases directive with
  | number field value =>
      cases field with
      | cycleTime => cases perProcess
      | seed => cases perProcess
      | endtime => cases perProcess
      | _ => rfl
  | name word => rfl
  | type kind => rfl
  | _ => cases perProcess

/-! ## Texts -/

def Copt.text : Copt → Bytes
  | .cycleTime => ascii "CYCLE_TIME"
  | .newProcess => ascii "NEWPROCESS"
  | .endProcess => ascii "ENDPROCESS"
  | .spawnTime => ascii "SPAWNTIME"
  | .name => ascii "NAME"
  | .type => ascii "TYPE"
  | .seed => ascii "SEED"
  | .endtime => ascii "ENDTIME"
  | .killTime => ascii "KILLTIME"
  | .nice => ascii "NICE"
  | .spawn => ascii "SPAWN"
  | .endSpawn => ascii "ENDSPAWN"
  | .workDuration => ascii "WORKDURATION"

/-- The values of an `int`. -/
def IsInt (value : Int) : Prop := -2 ^ 31 ≤ value ∧ value < 2 ^ 31

instance (value : Int) : Decidable (IsInt value) := inferInstanceAs (Decidable (_ ∧ _))

/-- A decimal number, with a sign or without. -/
def Numeral (text : Bytes) (value : Int) : Prop :=
  ∃ sign factor digits, text = sign ++ digits ∧ IsSign sign factor ∧ digits ≠ [] ∧
    (∀ c ∈ digits, isDigit c = true) ∧ value = factor * digitsValue digits

def ValueText : Directive → Bytes → Prop
  | .number _ value, text => Numeral text value ∧ IsInt value
  | .name word, text => text = word ∧ word ≠ [] ∧ Solid word
  | .type kind, text => (text, kind) ∈ ttype
  | _, _ => False

/-- A directive as it is written: white space stands between an option and its value. -/
inductive DirectiveText : Directive → Bytes → Prop
  | plain {directive : Directive} (isPlain : directive.plain = true) :
      DirectiveText directive (35 :: directive.option.text)
  | valued {directive : Directive} {space : UInt8} {gap value : Bytes}
      (spaces : Spaces (space :: gap)) (isValue : ValueText directive value) :
      DirectiveText directive (35 :: directive.option.text ++ space :: (gap ++ value))

section

variable {before after gap text value : Bytes} {parser : Parser} {c space : UInt8}
  {directive : Directive} {option : Copt} {kind : ThreadType}

/-! ## The tables -/

theorem lookup_text (option : Copt) : lookup coptions option.text = some option := by
  cases option <;> rfl

theorem text_solid (option : Copt) : Solid option.text := by
  cases option <;> decide +kernel

theorem text_short (option : Copt) : option.text.length < 48 := by
  cases option <;> decide

theorem lookup_type (entry : (text, kind) ∈ ttype) :
    lookup ttype text = some kind ∧ text ≠ [] ∧ Solid text := by
  simp only [ttype, List.mem_cons, Prod.mk.injEq, List.not_mem_nil, or_false] at entry
  rcases entry with ⟨rfl, rfl⟩ | ⟨rfl, rfl⟩
  · exact ⟨rfl, by decide +kernel⟩
  · exact ⟨rfl, by decide +kernel⟩

/-! ## Values -/

theorem storeInt_eq {value : Int} (fits : IsInt value) : storeInt value = value := by
  rcases fits with ⟨lower, upper⟩
  have above : max (-2 ^ 63) (min value (2 ^ 63 - 1)) = value := by omega
  rw [storeInt, above]
  exact Int.bmod_eq_of_le (by omega) (by omega)

theorem bytes_of_isDigit (digit : isDigit c = true) : isSpace c = false ∧ c ≠ 43 ∧ c ≠ 45 := by
  simp only [isDigit, isSpace, Bool.and_eq_true, decide_eq_true_eq, UInt8.le_iff_toNat_le,
    Bool.or_eq_false_iff, Bool.and_eq_false_iff, beq_eq_false_iff_ne, decide_eq_false_iff_not,
    ne_eq, ← UInt8.toNat_inj, UInt8.reduceToNat] at *
  omega

theorem notDigit_of_isSpace (space : isSpace c = true) : isDigit c = false := by
  by_contra digit
  rw [(bytes_of_isDigit (Bool.not_eq_false _ ▸ digit)).1] at space
  cases space

theorem Numeral.readint {number : Int} (numeral : Numeral text number) (fits : IsInt number)
    (space : isSpace c = true) :
    readint (within before (text ++ c :: after)) =
      (some number, within (before ++ text) (c :: after)) := by
  rcases numeral with ⟨sign, factor, digits, rfl, isSign, notEmpty, digit, rfl⟩
  have first : ∀ byte, (digits ++ c :: after).head? = some byte → isDigit byte = true := by
    intro byte isFirst
    rw [List.head?_append_of_ne_nil _ notEmpty] at isFirst
    exact digit byte (List.mem_of_head? isFirst)
  have ahead : NumberAhead sign factor digits (c :: after) := by
    refine ⟨isSign, digit, ?_, fun _ byte isFirst => (bytes_of_isDigit (first byte isFirst)).2, ?_⟩
    · intro byte isFirst
      cases isFirst
      exact notDigit_of_isSpace space
    · intro byte isFirst
      cases isSign with
      | none => exact (bytes_of_isDigit (first byte isFirst)).1
      | plus => cases isFirst; rfl
      | minus => cases isFirst; rfl
  rw [List.append_assoc, ahead.readint (by simp), Cpuinit.number, if_neg notEmpty,
    storeInt_eq fits, looked_cons, List.append_assoc]

theorem ValueText.first (isValue : ValueText directive value) :
    ∃ c rest, value = c :: rest ∧ isSpace c = false := by
  cases directive with
  | number field number =>
      rcases isValue.1 with ⟨sign, factor, digits, rfl, isSign, notEmpty, digit, -⟩
      cases isSign with
      | none =>
          cases digits with
          | nil => exact absurd rfl notEmpty
          | cons c rest => exact ⟨c, rest, rfl, (bytes_of_isDigit (digit c List.mem_cons_self)).1⟩
      | plus => exact ⟨43, digits, rfl, rfl⟩
      | minus => exact ⟨45, digits, rfl, rfl⟩
  | name word =>
      rcases isValue with ⟨rfl, notEmpty, solid⟩
      cases value with
      | nil => exact absurd rfl notEmpty
      | cons c rest => exact ⟨c, rest, rfl, solid c List.mem_cons_self⟩
  | type kind =>
      rcases lookup_type isValue with ⟨-, notEmpty, solid⟩
      cases value with
      | nil => exact absurd rfl notEmpty
      | cons c rest => exact ⟨c, rest, rfl, solid c List.mem_cons_self⟩
  | _ => exact isValue.elim

theorem ValueText.notPlain (isValue : ValueText directive value) : ¬directive.plain = true := by
  intro isPlain
  cases directive with
  | number field number => cases isPlain
  | name word => cases isPlain
  | type kind => cases isPlain
  | _ => exact isValue.elim

/-! ## What is executed -/

theorem parseValue_number (field : Field) (file : Reader) (parser : Parser) :
    parseValue field.option file parser =
      goOn (readint file).2 (assign field (readint file).1 parser) := by
  cases field <;> rfl

theorem parseValue_plain (isPlain : directive.plain = true) (file : Reader) (parser : Parser) :
    parseValue directive.option file parser = goOn file (directive.execute parser) := by
  cases directive with
  | newProcess => rfl
  | endProcess => rfl
  | spawn => rfl
  | endSpawn => rfl
  | _ => cases isPlain

theorem parseValue_valued (isValue : ValueText directive value) (space : isSpace c = true) :
    parseValue directive.option (within before (value ++ c :: after)) parser =
      goOn (within (before ++ value) (c :: after)) (directive.execute parser) := by
  cases directive with
  | number field number =>
      rw [Directive.option, parseValue_number, isValue.1.readint isValue.2 space]
      rfl
  | name word =>
      rcases isValue with ⟨rfl, notEmpty, solid⟩
      simp only [Directive.option, parseValue, readstring_space notEmpty solid space]
      rfl
  | type kind =>
      rcases lookup_type isValue with ⟨found, notEmpty, solid⟩
      simp only [Directive.option, parseValue, readstring_space notEmpty solid space, found]
      rfl
  | _ => exact isValue.elim

/-- Where the loop goes on after a directive. -/
def resume (before after : Bytes) : Except Outcome Parser → State
  | .ok parser => scanning before after parser
  | .error outcome => .ended outcome

theorem goOn_leads (result : Except Outcome Parser) :
    Leads step (goOn (within before after) result) (resume before after result) := by
  cases result with
  | ok parser => exact loop_leads before after parser
  | error outcome => exact .refl _

theorem option_parses (spaces : Spaces (space :: gap)) (notSpace : isSpace c = false) :
    Leads step (scanning before (35 :: option.text ++ space :: (gap ++ c :: after)) parser)
      (parseValue option (within (before ++ (35 :: option.text ++ space :: gap)) (c :: after))
        parser) :=
  value_parses (text_solid option) (text_short option) (lookup_text option) spaces notSpace

theorem valued_leads (spaces : Spaces (space :: gap)) (isValue : ValueText directive value)
    (isSpace : isSpace c = true) :
    Leads step
      (scanning before (35 :: directive.option.text ++ space :: (gap ++ (value ++ c :: after))) parser)
      (resume (before ++ (35 :: directive.option.text ++ space :: (gap ++ value))) (c :: after)
        (directive.execute parser)) := by
  rcases isValue.first with ⟨first, rest, split, notSpace⟩
  have parses := @option_parses before (rest ++ c :: after) gap parser first space directive.option
    spaces notSpace
  have same : first :: (rest ++ c :: after) = value ++ c :: after := by rw [split, List.cons_append]
  rw [same] at parses
  refine parses.trans ?_
  rw [parseValue_valued isValue isSpace]
  refine (goOn_leads _).trans (Leads.of_eq ?_)
  simp

/-- A directive without one is executed when a byte follows the white space behind it. -/
theorem plain_leads (isPlain : directive.plain = true) (spaces : Spaces (space :: gap))
    (notSpace : isSpace c = false) :
    Leads step (scanning before (35 :: directive.option.text ++ space :: (gap ++ c :: after)) parser)
      (resume (before ++ (35 :: directive.option.text ++ space :: gap)) (c :: after)
        (directive.execute parser)) := by
  refine (option_parses spaces notSpace).trans ?_
  rw [parseValue_plain isPlain]
  exact goOn_leads _

/-- At the end of the file it is not executed. -/
theorem plain_atEnd (spaces : Spaces (space :: gap)) :
    Leads step (scanning before (35 :: option.text ++ space :: gap) parser) parser.finishes :=
  value_missing (text_solid option) (text_short option) (lookup_text option) spaces

end

end CE321.Cpuinit
