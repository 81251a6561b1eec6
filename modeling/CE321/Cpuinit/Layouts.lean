import CE321.Cpuinit.Directives

/-! # Files of directives

White space and comments between directives, and what `readProfile` makes of a whole file:
it executes the directives in their order, all but a last one without a value when only white
space follows it.
-/

namespace CE321.Cpuinit

open CString Reader

/-- White space and comments, which end with their lines. -/
inductive Layout : Bytes → Prop
  | nil : Layout []
  | space {c : UInt8} {rest : Bytes} (isSpace : isSpace c = true) (layout : Layout rest) :
      Layout (c :: rest)
  | comment {text rest : Bytes} (noNewline : 10 ∉ text) (layout : Layout rest) :
      Layout (59 :: text ++ 10 :: rest)

/-- What separates two directives starts with white space. -/
inductive Gap : Bytes → Prop
  | intro {c : UInt8} {rest : Bytes} (isSpace : isSpace c = true) (layout : Layout rest) :
      Gap (c :: rest)

/-- Directives with gaps of a kind behind them. -/
inductive Written (isGap : Bytes → Prop) : List Directive → Bytes → Prop
  | nil : Written isGap [] []
  | cons {directive : Directive} {directives : List Directive} {text gap rest : Bytes}
      (isText : DirectiveText directive text) (gapped : isGap gap)
      (written : Written isGap directives rest) :
      Written isGap (directive :: directives) (text ++ (gap ++ rest))

/-- A newline behind every directive. -/
def Lines : List Directive → Bytes → Prop := Written (· = [10])

/-- The directives that are executed when white space is all that follows the last one. -/
def executed : List Directive → List Directive
  | [] => []
  | [directive] => if directive.plain then [] else [directive]
  | directive :: next :: rest => directive :: executed (next :: rest)

section

variable {before after gap rest text : Bytes} {parser : Parser} {directive : Directive}
  {directives : List Directive} {isGap : Bytes → Prop}

/-! ## Execution -/

theorem executeAll_append (directives directives' : List Directive) (parser : Parser) :
    executeAll (directives ++ directives') parser =
      (executeAll directives parser).bind (executeAll directives') := by
  induction directives generalizing parser with
  | nil => rfl
  | cons directive directives induction =>
      rw [List.cons_append, executeAll, executeAll]
      cases directive.execute parser with
      | ok parser => exact induction parser
      | error outcome => rfl

/-! ## Gaps -/

theorem layout_leads (layout : Layout gap) : ∀ before,
    Leads step (scanning before (gap ++ after) parser) (scanning (before ++ gap) after parser) := by
  induction layout with
  | nil =>
      intro before
      rw [List.append_nil]
      exact .refl _
  | @space c rest isSpace layout induction =>
      intro before
      refine (space_leads isSpace).trans ?_
      rw [List.append_cons before c rest]
      exact induction _
  | @comment text rest noNewline layout induction =>
      intro before
      have whole : 59 :: text ++ 10 :: rest ++ after = 59 :: text ++ 10 :: (rest ++ after) := by simp
      have split : before ++ (59 :: text ++ 10 :: rest) = before ++ (59 :: text ++ [10]) ++ rest := by
        simp
      rw [whole, split]
      exact (comment_leads noNewline).trans (induction _)

theorem Layout.split (layout : Layout gap) : ∃ spaces rest, gap = spaces ++ rest ∧
    Spaces spaces ∧ Layout rest ∧ (rest = [] ∨ rest.head? = some 59) := by
  induction layout with
  | nil => exact ⟨[], [], rfl, fun c member => absurd member List.not_mem_nil, .nil, .inl rfl⟩
  | @space c _ isSpace _ induction =>
      rcases induction with ⟨spaces, rest, rfl, isSpaces, layout, ends⟩
      exact ⟨c :: spaces, rest, rfl, List.forall_mem_cons.mpr ⟨isSpace, isSpaces⟩, layout, ends⟩
  | comment noNewline layout =>
      exact ⟨[], _, rfl, fun c member => absurd member List.not_mem_nil, .comment noNewline layout,
        .inr rfl⟩

theorem Gap.split (gapped : Gap gap) : ∃ space spaces rest, gap = space :: spaces ++ rest ∧
    Spaces (space :: spaces) ∧ Layout rest ∧ (rest = [] ∨ rest.head? = some 59) := by
  cases gapped with
  | @intro space _ isSpace layout =>
      rcases layout.split with ⟨spaces, rest, rfl, isSpaces, layout, ends⟩
      exact ⟨space, spaces, rest, rfl, List.forall_mem_cons.mpr ⟨isSpace, isSpaces⟩, layout, ends⟩

/-! ## Directives -/

theorem resume_leads (layout : Layout gap) (result : Except Outcome Parser) :
    Leads step (resume before (gap ++ after) result) (resume (before ++ gap) after result) := by
  cases result with
  | ok parser => exact layout_leads layout before
  | error outcome => exact .refl _

/-- A directive with a gap behind it. If it has no value, and the gap no comment, then another
directive follows. -/
theorem directive_leads (isText : DirectiveText directive text) (gapped : Gap gap)
    (goesOn : directive.plain = true → Spaces gap → rest.head? = some 35) :
    Leads step (scanning before (text ++ (gap ++ rest)) parser)
      (resume (before ++ text ++ gap) rest (directive.execute parser)) := by
  rcases gapped.split with ⟨space, spaces, layoutRest, rfl, isSpaces, layout, ends⟩
  cases isText with
  | plain isPlain =>
      have next : ∃ c following, layoutRest ++ rest = c :: following ∧ isSpace c = false := by
        rcases ends with rfl | comment
        · rw [List.append_nil] at goesOn
          rcases List.head?_eq_some_iff.mp (goesOn isPlain isSpaces) with ⟨following, rfl⟩
          exact ⟨35, following, rfl, rfl⟩
        · rcases List.head?_eq_some_iff.mp comment with ⟨following, rfl⟩
          exact ⟨59, following ++ rest, rfl, rfl⟩
      rcases next with ⟨c, following, split, notSpace⟩
      have whole : 35 :: directive.option.text ++ (space :: spaces ++ layoutRest ++ rest) =
          35 :: directive.option.text ++ space :: (spaces ++ c :: following) := by
        rw [List.append_assoc (space :: spaces), split]
        rfl
      rw [whole]
      refine (plain_leads isPlain isSpaces notSpace).trans ?_
      rw [← split]
      refine (resume_leads layout _).trans (Leads.of_eq ?_)
      simp
  | @valued gapSpace inner value innerSpaces isValue =>
      rcases List.forall_mem_cons.mp isSpaces with ⟨isSpace, -⟩
      have whole : 35 :: directive.option.text ++ gapSpace :: (inner ++ value) ++
          (space :: spaces ++ layoutRest ++ rest) =
          35 :: directive.option.text ++ gapSpace ::
            (inner ++ (value ++ space :: (spaces ++ (layoutRest ++ rest)))) := by
        simp
      rw [whole]
      refine (valued_leads innerSpaces isValue isSpace).trans ?_
      have gapLayout : Layout (space :: (spaces ++ layoutRest)) := by
        refine .space isSpace ?_
        cases gapped with
        | intro _ layout => exact layout
      have again : space :: (spaces ++ (layoutRest ++ rest)) =
          space :: (spaces ++ layoutRest) ++ rest := by simp
      rw [again]
      refine (resume_leads gapLayout _).trans (Leads.of_eq ?_)
      simp

theorem last_leads (isText : DirectiveText directive text) (isPlain : directive.plain = true)
    (gapped : Gap gap) (spaces : Spaces gap) :
    Leads step (scanning before (text ++ gap) parser) parser.finishes := by
  cases isText with
  | plain _ =>
      cases gapped with
      | intro _ _ => exact plain_atEnd spaces
  | valued _ isValue => exact absurd isPlain isValue.notPlain

/-! ## Files -/

theorem Written.first (written : Written isGap (directive :: directives) text) :
    text.head? = some 35 := by
  cases written with
  | cons isText _ _ => cases isText <;> rfl

theorem conclude_leads {directives : List Directive}
    (leads : ∀ parser, Leads step (scanning before after parser)
      (conclude (executeAll directives parser))) (result : Except Outcome Parser) :
    Leads step (resume before after result) (conclude (result.bind (executeAll directives))) := by
  cases result with
  | ok parser => exact leads parser
  | error outcome => exact .refl _

theorem executed_cons (notEmpty : directives ≠ []) :
    executed (directive :: directives) = directive :: executed directives := by
  cases directives with
  | nil => exact absurd rfl notEmpty
  | cons next rest => rfl

theorem executed_concat (directives : List Directive) (directive : Directive) :
    executed (directives ++ [directive]) =
      if directive.plain then directives else directives ++ [directive] := by
  induction directives with
  | nil => rfl
  | cons first directives induction =>
      rw [List.cons_append, executed_cons (by simp), induction]
      split <;> rfl

theorem Written.leads (gaps : ∀ gap, isGap gap → Gap gap) (written : Written isGap directives text) :
    ∃ run, (run = directives ∨ run = executed directives) ∧
      ((∀ gap, isGap gap → Spaces gap) → run = executed directives) ∧
      ∀ before parser, Leads step (scanning before text parser)
        (conclude (executeAll run parser)) := by
  induction written with
  | nil => exact ⟨[], .inl rfl, fun _ => rfl, whitespace_atEnd⟩
  | @cons directive directives text gap rest isText gapped written induction =>
      rcases induction with ⟨run, isRun, isExecuted, leads⟩
      have isGap := gaps gap gapped
      by_cases notLast : directives = []
      · subst notLast
        cases written
        by_cases skipped : directive.plain = true ∧ Spaces gap
        · refine ⟨[], .inr ?_, fun _ => ?_, fun before parser => ?_⟩
          · rw [executed, if_pos skipped.1]
          · rw [executed, if_pos skipped.1]
          · rw [List.append_nil]
            exact last_leads isText skipped.1 isGap skipped.2
        · refine ⟨[directive], .inl rfl, fun spaces => ?_, fun before parser => ?_⟩
          · rw [executed, if_neg fun isPlain => skipped ⟨isPlain, spaces gap gapped⟩]
          · refine (directive_leads isText isGap fun isPlain spaces =>
              absurd ⟨isPlain, spaces⟩ skipped).trans ?_
            exact conclude_leads (fun parser => whitespace_atEnd _ parser) _
      · rw [executed_cons notLast]
        refine ⟨directive :: run, ?_, fun spaces => by rw [isExecuted spaces],
          fun before parser => ?_⟩
        · rcases isRun with rfl | rfl
          · exact .inl rfl
          · exact .inr rfl
        · have first : rest.head? = some 35 := by
            cases directives with
            | nil => exact absurd rfl notLast
            | cons next others => exact written.first
          refine (directive_leads isText isGap fun _ _ => first).trans ?_
          exact conclude_leads (leads _) _

theorem Written.ends {lead : Bytes} (layout : Layout lead) (gaps : ∀ gap, isGap gap → Gap gap)
    (written : Written isGap directives text) :
    ∃ run, (run = directives ∨ run = executed directives) ∧
      ((∀ gap, isGap gap → Spaces gap) → run = executed directives) ∧
      Leads step (start (lead ++ text)) (conclude (executeAll run initialParser)) := by
  rcases written.leads gaps with ⟨run, isRun, isExecuted, leads⟩
  refine ⟨run, isRun, isExecuted, ?_⟩
  refine (loop_leads [] _ _).trans ((layout_leads layout []).trans ?_)
  exact leads _ _

end

end CE321.Cpuinit
