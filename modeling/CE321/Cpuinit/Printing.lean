import CE321.Cpuinit.Building

/-! # Parsing undoes printing

A forest that is printed in any order of attributes and with any layout is what `readProfile`
builds below init.
-/

namespace CE321.Cpuinit

open CString
open Vsched (ThreadType)

/-! ## A printer -/

def kindText : ThreadType → Bytes
  | .interactive => ascii "INTERACTIVE"
  | .noninteractive => ascii "NONINTERACTIVE"
  | .init => []

/-- Ten digits are enough for an `int`. -/
def printInt (value : Int) : Bytes :=
  (if value < 0 then [45] else []) ++ decimalDigits 10 value.natAbs

def Directive.print (directive : Directive) : Bytes :=
  match directive with
  | .number _ value => 35 :: directive.option.text ++ 32 :: ([] ++ printInt value)
  | .name word => 35 :: directive.option.text ++ 32 :: ([] ++ word)
  | .type kind => 35 :: directive.option.text ++ 32 :: ([] ++ kindText kind)
  | _ => 35 :: directive.option.text

def printAll (gap : Bytes) (directives : List Directive) : Bytes :=
  directives.flatMap fun directive => directive.print ++ gap

def Directive.Writable : Directive → Prop
  | .number _ value => IsInt value
  | .name word => word ≠ [] ∧ Solid word
  | .type kind => kind ≠ .init
  | _ => True

def Forest.print : Forest → List Directive
  | .nil => []
  | .cons attributes .nil rest =>
      .newProcess :: (attributes.lines ++ .endProcess :: rest.print)
  | .cons attributes children rest =>
      .newProcess :: (attributes.lines ++
        .spawn :: (children.print ++ .endSpawn :: .endProcess :: rest.print))

section

variable {forest : Forest} {directives : List Directive} {directive : Directive} {gap : Bytes}
  {isGap : Bytes → Prop}

theorem printInt_numeral {value : Int} (fits : IsInt value) : Numeral (printInt value) value := by
  rcases fits with ⟨lower, upper⟩
  have digit : ∀ c ∈ decimalDigits 10 value.natAbs, isDigit c = true := fun c member =>
    isDigit_of_mem_decimalDigits member
  have notEmpty : decimalDigits 10 value.natAbs ≠ [] := by
    apply List.ne_nil_of_length_pos
    rw [decimalDigits_length]
    decide
  have isValue : digitsValue (decimalDigits 10 value.natAbs) = value.natAbs := by
    have fold := @digitsValue_append _ [] digit fun byte first => by cases first
    rw [List.append_nil, decimalDigits_fold] at fold
    rw [fold, Nat.mod_eq_of_lt]
    omega
  by_cases negative : value < 0
  · refine ⟨[45], -1, _, ?_, .minus, notEmpty, digit, ?_⟩
    · rw [printInt, if_pos negative]
    · rw [isValue]
      omega
  · refine ⟨[], 1, _, ?_, .none, notEmpty, digit, ?_⟩
    · rw [printInt, if_neg negative]
    · rw [isValue]
      omega

theorem print_isText (writable : directive.Writable) : DirectiveText directive directive.print := by
  have spaces : Spaces [32] := List.forall_mem_singleton.mpr rfl
  cases directive with
  | number field value => exact .valued spaces ⟨printInt_numeral writable, writable⟩
  | name word => exact .valued spaces ⟨rfl, writable.1, writable.2⟩
  | type kind =>
      refine .valued spaces ?_
      cases kind with
      | init => exact absurd rfl writable
      | interactive => exact List.mem_cons_self
      | noninteractive => exact List.mem_cons_of_mem _ List.mem_cons_self
  | _ => exact .plain rfl

theorem printAll_written (gapped : isGap gap) (writable : ∀ directive ∈ directives, directive.Writable) :
    Written isGap directives (printAll gap directives) := by
  induction directives with
  | nil => exact .nil
  | cons directive directives induction =>
      rcases List.forall_mem_cons.mp writable with ⟨isWritable, writable⟩
      rw [printAll, List.flatMap_cons, List.append_assoc]
      exact .cons (print_isText isWritable) gapped (induction writable)

theorem prints_print (forest : Forest) : Prints forest forest.print := by
  induction forest with
  | nil => exact .nil
  | cons attributes children rest inner outer =>
      cases children with
      | nil => exact .leaf (.refl _) outer
      | cons _ _ _ => exact .node (.refl _) Forest.noConfusion inner outer

theorem lines_writable (attributes : Attributes) :
    ∀ directive ∈ attributes.lines, directive.Writable := by
  have niceIsInt : ∀ value ∈ attributes.niceValue, IsInt value := by
    intro value member
    have bounds := attributes.isNiceValue value member
    exact ⟨by omega, by omega⟩
  intro directive member
  simp only [Attributes.lines, List.mem_append, List.mem_cons, List.not_mem_nil, or_false,
    Option.mem_toList, Option.map_eq_some_iff] at member
  rcases member with (((rfl | rfl | rfl) | ⟨value, member, rfl⟩) | ⟨value, member, rfl⟩) |
    ⟨value, member, rfl⟩
  · exact attributes.isName
  · exact attributes.isKind
  · exact attributes.isSpawnTime
  · exact attributes.isKillTime value member
  · exact attributes.isWorkDuration value member
  · exact niceIsInt value member

theorem Prints.writable (prints : Prints forest directives) :
    ∀ directive ∈ directives, directive.Writable := by
  induction prints with
  | nil => exact fun directive member => absurd member List.not_mem_nil
  | @leaf attributes rest lines following ordered prints induction =>
      intro directive member
      simp only [List.mem_cons, List.mem_append] at member
      rcases member with rfl | member | rfl | member
      · trivial
      · exact lines_writable attributes directive (ordered.subset member)
      · trivial
      · exact induction directive member
  | @node attributes children rest lines inner following ordered isNode printsInner prints
      inductionInner induction =>
      intro directive member
      simp only [List.mem_cons, List.mem_append] at member
      rcases member with rfl | member | rfl | member | rfl | rfl | member
      · trivial
      · exact lines_writable attributes directive (ordered.subset member)
      · trivial
      · exact inductionInner directive member
      · trivial
      · trivial
      · exact induction directive member

/-! ## The end of the file -/

theorem Prints.last (prints : Prints forest directives) :
    directives = [] ∨ ∃ others, directives = others ++ [.endProcess] := by
  induction prints with
  | nil => exact .inl rfl
  | @leaf attributes rest lines following ordered prints induction =>
      rcases induction with rfl | ⟨others, rfl⟩
      · exact .inr ⟨.newProcess :: lines, rfl⟩
      · exact .inr ⟨.newProcess :: (lines ++ .endProcess :: others), by simp⟩
  | @node attributes children rest lines inner following ordered isNode printsInner prints _ induction =>
      rcases induction with rfl | ⟨others, rfl⟩
      · exact .inr ⟨.newProcess :: (lines ++ .spawn :: (inner ++ [.endSpawn])), by simp⟩
      · exact .inr ⟨.newProcess :: (lines ++ .spawn :: (inner ++ .endSpawn :: .endProcess :: others)),
          by simp⟩

theorem Prints.executed_grown (prints : Prints forest directives) {run : List Directive}
    (isRun : run = directives ∨ run = executed directives) :
    ∃ parser grown, executeAll run initialParser = .ok parser ∧
      executeAll directives initialParser = .ok grown ∧ Grown initialParser grown 0 forest ∧
      parser.children = 0 ∧ parser.memory = grown.memory := by
  rcases prints.grows initialParser 0 rfl (by decide) with ⟨parser, executes, grown⟩
  rcases isRun with rfl | rfl
  · exact ⟨parser, parser, executes, executes, grown, grown.children_eq, rfl⟩
  · rcases prints.last with rfl | ⟨others, rfl⟩
    · exact ⟨parser, parser, executes, executes, grown, grown.children_eq, rfl⟩
    · rw [executed_concat, if_pos (show Directive.endProcess.plain = true from rfl)]
      have whole := executes
      rw [executeAll_append] at executes
      cases executesOthers : executeAll others initialParser with
      | error outcome =>
          rw [executesOthers] at executes
          cases executes
      | ok before =>
          rw [executesOthers] at executes
          cases executes
          exact ⟨before, _, rfl, whole, grown, grown.children_eq, rfl⟩

theorem Grown.represents {parser : Parser} (grown : Grown initialParser parser 0 forest) :
    Represents parser.memory 0 1 forest (parser.memory.info 0).list := by
  rcases grown.built with ⟨ids, list, represents⟩
  rw [list]
  exact represents

/-! ## Profiles -/

/-- `readProfile` accepts every printed forest and builds it below init. -/
theorem readProfile_print {lead text : Bytes} (prints : Prints forest directives)
    (layout : Layout lead) (written : Written Gap directives text) :
    ∃ memory, Ends (lead ++ text) (.returned true memory) ∧
      Represents memory 0 1 forest (memory.info 0).list := by
  rcases written.ends layout fun _ gapped => gapped with ⟨run, isRun, -, leads⟩
  rcases prints.executed_grown isRun with ⟨parser, built, executes, -, grown, closed, same⟩
  refine ⟨parser.memory, ?_, same ▸ grown.represents⟩
  rw [executes, conclude, Parser.finishes, closed] at leads
  exact leads

/-- A process `b` below a process `a`. -/
def nested : Forest :=
  .cons ⟨[97], .noninteractive, 5, some 40, none, some (-3), by decide +kernel, by decide, by decide,
      by decide, by decide, by decide⟩
    (.cons ⟨[98], .interactive, 7, none, some 9, none, by decide +kernel, by decide, by decide,
      by decide, by decide, by decide⟩ .nil .nil)
    .nil

theorem readProfile_print_nested :
    ∃ memory, Ends (59 :: ascii " two" ++ 10 :: [] ++
        printAll (10 :: 32 :: (59 :: ascii " next" ++ 10 :: [10])) nested.print)
        (.returned true memory) ∧
      Represents memory 0 1 nested (memory.info 0).list :=
  readProfile_print (prints_print nested) (.comment (by decide) .nil)
    (printAll_written (.intro rfl (.space rfl (.comment (by decide) (.space rfl .nil))))
      (prints_print nested).writable)

end

end CE321.Cpuinit
