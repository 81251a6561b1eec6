import CE321.Cpuinit.Rounds

/-! # The end of a profile

`readProfile` returns on a file, and does the same with a newline behind it, unless a command of
the file has no process or block to go to, or the file breaks off in a comment or in a word that
the end of the file does harm to.
-/

namespace CE321.Cpuinit

open CString Reader

/-- Two runs return the same. -/
def SameReturn (state newline : State) : Prop :=
  ∃ value memory, Leads step state (.ended (.returned value memory)) ∧
    Leads step newline (.ended (.returned value memory))

/-- `readProfile` returns on a file, and a newline behind a last byte that is no white space makes
no difference. -/
def ReadsAlike (contents : Bytes) : Prop :=
  (∃ value memory, Ends contents (.returned value memory)) ∧
    ((∀ c ∈ contents.getLast?, isSpace c = false) →
      ∃ value memory, Ends contents (.returned value memory) ∧
        Ends (contents ++ [10]) (.returned value memory))

/-- A word of `#TYPE` and its last byte at the end of a file that do no harm: the last byte, which
is read again, starts no comment, a block is open or the byte starts an option, and a type is the
one that the open process has already. -/
def Harmless (directives : List Directive) (word : Bytes) (last : UInt8) : Prop :=
  last ≠ 59 ∧ (opened directives ≠ 0 ∨ last = 35) ∧
    ∀ kind, lookup ttype word = some kind → openKind directives = some kind

/-- Behind some directives a file breaks off in a comment, in an unknown option while all blocks
are closed, in a name, or in a type that does harm. -/
inductive BreaksOff (directives : List Directive) : Bytes → Prop
  | comment {text : Bytes} (noNewline : 10 ∉ text) : BreaksOff directives (59 :: text)
  | unknown {copt : Bytes} (solid : Solid copt) (short : copt.length < 48)
      (missing : lookup coptions copt = none) (closed : opened directives = 0) :
      BreaksOff directives (35 :: copt)
  | name {copt gap front : Bytes} {space last : UInt8} (isOption : IsOption copt .name)
      (spaces : Spaces (space :: gap)) (isWord : Solid (front ++ [last])) :
      BreaksOff directives (35 :: copt ++ space :: (gap ++ (front ++ [last])))
  | type {copt gap front : Bytes} {space last : UInt8} (isOption : IsOption copt .type)
      (spaces : Spaces (space :: gap)) (isWord : Solid (front ++ [last]))
      (harm : ¬Harmless directives (front ++ [last]) last) :
      BreaksOff directives (35 :: copt ++ space :: (gap ++ (front ++ [last])))

/-- A file with a command that goes astray, or one that breaks off. -/
def Broken (contents : Bytes) : Prop :=
  ∃ commands rest, Pieces commands rest contents ∧
    (¬Steady outside (counted commands) ∨ BreaksOff (counted commands) rest)

/-- What the directives tell of the parser behind them. -/
structure Behind (parser : Parser) (directives : List Directive) : Prop where
  children : parser.children = opened directives
  kind : openKind directives = parser.newtask.bind fun task => (parser.memory.info task).threadType

section

variable {before before' gap copt front rest contents : Bytes} {parser : Parser}
  {directives : List Directive} {commands : List Command} {state newline state' newline' : State}
  {first last space : UInt8} {option : Copt} {outcome : Outcome}

/-! ## Runs -/

theorem executed_behind (steady : Steady outside (counted commands)) :
    ∃ parser, executeCommands commands initialParser = .ok parser ∧
      Behind parser (counted commands) := by
  rcases executeCommands_steady commands _ _ _ initial_stands initial_names steady with
    ⟨parser, executes, -, names, count⟩
  refine ⟨parser, executes, count.trans (Int.zero_add _), ?_⟩
  simp only [openKind, names.process, funext names.kinds]

theorem SameReturn.leads (there : SameReturn state' newline') (leads : Leads step state state')
    (leads' : Leads step newline newline') : SameReturn state newline := by
  rcases there with ⟨value, memory, ends, ends'⟩
  exact ⟨value, memory, leads.trans ends, leads'.trans ends'⟩

theorem SameReturn.onward (there : SameReturn state newline) (leads : Leads step state state')
    (leads' : Leads step newline newline') : SameReturn state' newline' := by
  rcases there with ⟨value, memory, ends, ends'⟩
  exact ⟨value, memory, Leads.onward rfl ends leads, Leads.onward rfl ends' leads'⟩

theorem sameReturn_iff {value : Bool} {memory : Memory}
    (ends : Leads step state (.ended (.returned value memory)))
    (ends' : Leads step newline (.ended outcome)) :
    SameReturn state newline ↔ .returned value memory = outcome := by
  constructor
  · rintro ⟨value', memory', returns, returns'⟩
    have same := State.ended.inj (Leads.unique rfl rfl ends returns)
    have same' := State.ended.inj (Leads.unique rfl rfl ends' returns')
    rw [same, same']
  · rintro rfl
    exact ⟨value, memory, ends, ends'⟩

theorem sameReturn_fails (fails : Leads step state parser.fails)
    (fails' : Leads step newline parser.fails) : SameReturn state newline :=
  ⟨_, _, fails, fails'⟩

theorem sameReturn_finishes (finishes : Leads step state parser.finishes)
    (finishes' : Leads step newline parser.finishes) : SameReturn state newline :=
  ⟨_, _, finishes, finishes'⟩

/-! ## Words at the end of a file -/

/-- The name of an open process loses its last byte, and gets the space in front of it. -/
theorem name_differs {others : Bytes} (isSpace : isSpace first = true)
    (isWord : Solid (front ++ [last])) : ¬SameReturn
      (goOn (within others [last])
        (writeTask parser fun info => { info with processName := some (first :: front) }))
      (goOn (within before [10])
        (writeTask parser fun info => { info with processName := some (front ++ [last]) })) := by
  intro same
  have notSpace := isWord last (List.mem_append_right front List.mem_cons_self)
  cases isTask : parser.newtask with
  | none =>
      rw [writeTask, writeTask, isTask] at same
      rcases same with ⟨value, memory, returns, -⟩
      have null := State.ended.inj (Leads.stays rfl returns)
      cases null
  | some task =>
      rw [writeTask, writeTask, isTask] at same
      rcases same.onward (loop_leads _ _ _) (newline_leads before _) with
        ⟨value, memory, returns, returns'⟩
      rcases lastByte_memory notSpace returns with ⟨value', returned⟩
      have equal := State.ended.inj (Leads.stays rfl returns')
      rw [returned] at equal
      injection equal with _ memories
      have names := congrArg (fun memory => (memory.info task).processName) memories
      simp only [Parser.setInfo, Memory.setInfo, Function.update_self, Option.some.injEq] at names
      have member : first ∈ front ++ [last] := names ▸ List.mem_cons_self
      rw [isWord first member] at isSpace
      cases isSpace

/-- A type at the end of a file is not found, and its last byte is read again. -/
theorem sameReturn_type {others : Bytes} (behind : Behind parser directives)
    (space : isSpace first = true) (isWord : Solid (front ++ [last])) :
    SameReturn (goOn (within others [last]) (parser.typed (first :: front)))
      (goOn (within before [10]) (parser.typed (front ++ [last]))) ↔
      Harmless directives (front ++ [last]) last := by
  have notSpace := isWord last (List.mem_append_right front List.mem_cons_self)
  have untyped : parser.typed (first :: front) = .ok parser := by
    rw [Parser.typed, lookup_type_space space]
  rw [untyped, Harmless, ← behind.children, behind.kind]
  by_cases isComment : last = 59
  · subst isComment
    refine iff_of_false (fun same => ?_) fun harmless => harmless.1 rfl
    rcases same.onward (loop_leads _ _ _) (.refl _) with ⟨value, memory, returns, -⟩
    exact comment_endless List.not_mem_nil returns
  · have ends : Leads step (goOn (within others [last]) (.ok parser)) _ :=
      (loop_leads others [last] parser).trans (lastByte_leads notSpace isComment)
    have values : decide (parser.children = 0 ∧ last = 35) = decide (parser.children = 0) ↔
        parser.children ≠ 0 ∨ last = 35 := by
      rw [decide_eq_decide]
      tauto
    have ends' := newline_leads before (parser.typed (front ++ [last]))
    cases found : lookup ttype (front ++ [last]) with
    | none =>
        rw [Parser.typed, found] at ends' ⊢
        rw [sameReturn_iff ends ends', Outcome.returned.injEq, values]
        simp [isComment]
    | some kind =>
        rw [Parser.typed, found] at ends' ⊢
        simp only [writeTask] at ends' ⊢
        cases isTask : parser.newtask with
        | none =>
            rw [isTask] at ends'
            rw [sameReturn_iff ends ends']
            simp
        | some task =>
            rw [isTask] at ends'
            rw [sameReturn_iff ends ends', Outcome.returned.injEq, memory_typed]
            show decide _ = decide (parser.children = 0) ∧ _ ↔ _
            rw [values]
            simp [isComment]

theorem lastWord_leads {stores : Bytes → Except Outcome Parser}
    (parses : ∀ file file' word, readstring file = (some word, file') →
      parseValue option file parser = goOn file' (stores word))
    (isOption : IsOption copt option) (spaces : Spaces (space :: gap))
    (isWord : Solid (front ++ [last])) (before before' : Bytes) :
    ∃ first others behind, isSpace first = true ∧
      Leads step (scanning before (35 :: copt ++ space :: (gap ++ (front ++ [last]))) parser)
        (goOn (within others [last]) (stores (first :: front))) ∧
      Leads step
        (scanning before' (35 :: copt ++ space :: (gap ++ (front ++ [last])) ++ [10]) parser)
        (goOn (within behind [10]) (stores (front ++ [last]))) := by
  have start : ∃ c rest, front ++ [last] = c :: rest ∧ isSpace c = false := by
    cases front with
    | nil => exact ⟨last, [], rfl, isWord last List.mem_cons_self⟩
    | cons c front => exact ⟨c, front ++ [last], rfl, isWord c List.mem_cons_self⟩
  rcases start with ⟨c, rest, split, notSpace⟩
  have here := @IsOption.parses before rest gap parser c space copt option isOption spaces notSpace
  have there := @IsOption.parses before' (rest ++ [10]) gap parser c space copt option isOption
    spaces notSpace
  have next : c :: (rest ++ [10]) = front ++ [last] ++ [10] := by rw [split, List.cons_append]
  rw [← split, ← List.append_assoc before] at here
  rw [next, ← List.append_assoc before'] at there
  rcases @readstring_last (before ++ 35 :: copt) gap space last front spaces isWord with
    ⟨others, first, isSpace, read⟩
  rw [parses _ _ _ read] at here
  rw [parses _ _ _ (readstring_newline isWord)] at there
  have whole : 35 :: copt ++ space :: (gap ++ (front ++ [last])) ++ [10] =
      35 :: copt ++ space :: (gap ++ (front ++ [last] ++ [10])) := by simp
  rw [whole]
  exact ⟨first, others, _, isSpace, here, there⟩

/-! ## Where a file stops -/

theorem Stops.alike (stops : Stops rest) (behind : Behind parser directives)
    (whole : ¬BreaksOff directives rest) (before before' : Bytes) :
    SameReturn (scanning before rest parser) (scanning before' (rest ++ [10]) parser) := by
  cases stops with
  | done => exact sameReturn_finishes (whitespace_atEnd _ _) (newline_finishes _ _)
  | stray notSpace notComment notHash =>
      exact sameReturn_fails (missing_fails notSpace notComment notHash)
        (missing_fails notSpace notComment notHash)
  | comment noNewline => exact absurd (.comment noNewline) whole
  | @option copt solid short =>
      have ends := @option_atEnd before copt parser solid short
      have ends' := @option_leads before' [] copt parser 10 solid short rfl
      cases found : lookup coptions copt with
      | none =>
          rw [parseOption, found] at ends'
          have isOpen : parser.children ≠ 0 := fun closed =>
            whole (.unknown solid short found (behind.children ▸ closed))
          rw [Parser.finishes, decide_eq_false isOpen] at ends
          exact sameReturn_fails ends ends'
      | some option =>
          rw [parseOption, found] at ends'
          exact sameReturn_finishes ends
            (ends'.trans (value_atEnd fun _ member => absurd member List.not_mem_nil))
  | @tooLong copt rest solid long =>
      rw [List.append_assoc]
      exact sameReturn_fails (option_tooLong solid long) (option_tooLong solid long)
  | @unknown copt rest space solid short missing isSpace =>
      have fails : ∀ before behind, Leads step
          (scanning before (35 :: copt ++ space :: behind) parser) parser.fails := by
        intro before behind
        have leads := @option_leads before behind copt parser space solid short isSpace
        rw [parseOption, missing] at leads
        exact leads
      rw [List.append_assoc]
      exact sameReturn_fails (fails _ _) (fails _ _)
  | @valueless copt gap space option isOption spaces =>
      have isNewline : Spaces (space :: (gap ++ [10])) :=
        List.forall_mem_append.mpr ⟨spaces, List.forall_mem_singleton.mpr rfl⟩
      rw [List.append_assoc]
      exact sameReturn_finishes
        (value_missing isOption.solid isOption.short isOption.found spaces)
        (value_missing isOption.solid isOption.short isOption.found isNewline)
  | name isOption spaces isWord => exact absurd (.name isOption spaces isWord) whole
  | type isOption spaces isWord =>
      have harmless := not_not.mp fun harm => whole (.type isOption spaces isWord harm)
      rcases lastWord_leads (fun file file' word read => @parseValue_type word parser file file' read)
        isOption spaces isWord before before' with ⟨first, others, beyond, isSpace, here, there⟩
      exact SameReturn.leads ((sameReturn_type behind isSpace isWord).mpr harmless) here there

theorem word_notSpace (isWord : Solid (front ++ [last])) (others : Bytes) :
    ∀ c ∈ (others ++ (front ++ [last])).getLast?, isSpace c = false := by
  intro c isLast
  rw [← List.append_assoc, List.getLast?_concat] at isLast
  cases isLast
  exact isWord _ (List.mem_append_right front List.mem_cons_self)

/-- Where a file breaks off, it has no end, or another one than with a newline. -/
theorem BreaksOff.differs (broken : BreaksOff directives rest) (behind : Behind parser directives)
    (before before' : Bytes) :
    (¬∃ outcome, Leads step (scanning before rest parser) (.ended outcome)) ∨
      ((∀ others : Bytes, ∀ c ∈ (others ++ rest).getLast?, isSpace c = false) ∧
        ¬SameReturn (scanning before rest parser) (scanning before' (rest ++ [10]) parser)) := by
  cases broken with
  | comment noNewline =>
      left
      rintro ⟨outcome, ends⟩
      exact comment_endless noNewline ends
  | @unknown copt solid short missing closed =>
      right
      have ends := @option_atEnd before copt parser solid short
      have ends' := @option_leads before' [] copt parser 10 solid short rfl
      rw [Parser.finishes, decide_eq_true (behind.children.trans closed)] at ends
      rw [parseOption, missing] at ends'
      refine ⟨fun others => ?_, fun same => ?_⟩
      · have isWord : Solid (35 :: copt) := List.forall_mem_cons.mpr ⟨rfl, solid⟩
        rcases List.eq_nil_or_concat' (35 :: copt) with empty | ⟨front, last, split⟩
        · cases empty
        · rw [split] at isWord ⊢
          exact word_notSpace isWord others
      · have equal := (sameReturn_iff ends ends').mp same
        cases equal
  | @name copt gap front space last isOption spaces isWord =>
      right
      refine ⟨fun others => ?_, fun same => ?_⟩
      · have isLast := word_notSpace isWord (others ++ (35 :: copt ++ space :: gap))
        simpa using isLast
      · rcases lastWord_leads
          (fun file file' word read => @parseValue_name parser file file' word read)
          isOption spaces isWord before before' with ⟨first, others, beyond, isSpace, here, there⟩
        exact name_differs isSpace isWord (same.onward here there)
  | @type copt gap front space last isOption spaces isWord harm =>
      right
      refine ⟨fun others => ?_, fun same => ?_⟩
      · have isLast := word_notSpace isWord (others ++ (35 :: copt ++ space :: gap))
        simpa using isLast
      · rcases lastWord_leads
          (fun file file' word read => @parseValue_type word parser file file' read)
          isOption spaces isWord before before' with ⟨first, others, beyond, isSpace, here, there⟩
        exact harm ((sameReturn_type behind isSpace isWord).mp (same.onward here there))

/-! ## Files -/

theorem Pieces.ends_both (pieces : Pieces commands rest contents)
    (steady : Steady outside (counted commands)) : ∃ parser before before',
    Behind parser (counted commands) ∧
    (∀ outcome, Ends contents outcome ↔
      Leads step (scanning before rest parser) (.ended outcome)) ∧
    ∀ outcome, Ends (contents ++ [10]) outcome ↔
      Leads step (scanning before' (rest ++ [10]) parser) (.ended outcome) := by
  rcases executed_behind steady with ⟨parser, executes, behind⟩
  rcases pieces.ends_iff executes with ⟨before, ends⟩
  rcases pieces.newline.ends_iff executes with ⟨before', ends'⟩
  exact ⟨parser, before, before', behind, ends, ends'⟩

theorem Broken.notAlike (broken : Broken contents) : ¬ReadsAlike contents := by
  rintro ⟨⟨value, memory, returns⟩, alike⟩
  rcases broken with ⟨commands, rest, pieces, broken⟩
  by_cases steady : Steady outside (counted commands)
  · rcases pieces.ends_both steady with ⟨parser, before, before', behind, ends, ends'⟩
    rcases (broken.resolve_left (not_not.mpr steady)).differs behind before before' with
      endless | ⟨notSpace, differs⟩
    · exact endless ⟨_, (ends _).mp returns⟩
    · rcases pieces.split with ⟨front, rfl⟩
      rcases alike (notSpace front) with ⟨value, memory, returns, returns'⟩
      exact differs ⟨value, memory, (ends _).mp returns, (ends' _).mp returns'⟩
  · rcases executeCommands_astray commands _ _ initial_stands steady with ⟨directive, stops⟩
    have same := (pieces.ends_error stops).unique returns
    rw [Directive.null] at same
    split at same <;> cases same

/-- `readProfile` returns on a file and reads it alike with a newline, if and only if none of its
commands goes astray and the file does not break off. -/
theorem readsAlike_iff (contents : Bytes) : ReadsAlike contents ↔ ¬Broken contents := by
  refine ⟨fun alike broken => broken.notAlike alike, fun whole => ?_⟩
  rcases cut contents with ⟨commands, rest, pieces, stops⟩
  have steady := not_not.mp fun astray => whole ⟨commands, rest, pieces, .inl astray⟩
  rcases pieces.ends_both steady with ⟨parser, before, before', behind, ends, ends'⟩
  rcases stops.alike behind (fun broken => whole ⟨commands, rest, pieces, .inr broken⟩) before
    before' with ⟨value, memory, returns, returns'⟩
  have returned := (ends _).mpr returns
  exact ⟨⟨value, memory, returned⟩, fun _ => ⟨value, memory, returned, (ends' _).mpr returns'⟩⟩

/-- A file of one comment, a file of one unknown option, a file that ends in a name, and a value for
a process where none is open. -/
theorem readsAlike_fails :
    ¬ReadsAlike (ascii ";") ∧ ¬ReadsAlike (ascii "#FOO") ∧
      ¬ReadsAlike (ascii "#NEWPROCESS\n#NAME abc") ∧ ¬ReadsAlike (ascii "#SPAWNTIME 5") := by
  have space : Spaces [32] := List.forall_mem_singleton.mpr rfl
  have newline : Spaces [10] := List.forall_mem_singleton.mpr rfl
  have isOption : ∀ option : Copt, IsOption option.text option := fun option =>
    ⟨text_solid option, text_short option, lookup_text option⟩
  refine ⟨Broken.notAlike ?_, Broken.notAlike ?_, Broken.notAlike ?_, Broken.notAlike ?_⟩
  · exact ⟨[], _, .nil, .inr (.comment List.not_mem_nil)⟩
  · exact ⟨[], _, .nil, .inr (@BreaksOff.unknown [] (ascii "FOO") (by decide +kernel) (by decide) rfl
      rfl)⟩
  · refine ⟨[.directive .newProcess] ++ [], ascii "#NAME abc", ?_, .inr ?_⟩
    · exact .cons (@Piece.plain _ [] (ascii "NAME abc") 10 35 .newProcess rfl (isOption .newProcess)
        newline rfl) .nil
    · exact @BreaksOff.name _ _ [] (ascii "ab") 32 99 (isOption .name) space (by decide +kernel)
  · refine ⟨[numberCommand .spawnTime (number 1 [53])] ++ [], [], ?_, .inl ?_⟩
    · have ahead : NumberAhead [] 1 [53] [] := by
        refine ⟨.none, by decide +kernel, ?_, ?_, ?_⟩
        · intro c isFirst
          cases isFirst
        · intro _ c isFirst
          cases isFirst
          decide
        · intro c isFirst
          cases isFirst
          rfl
      exact .cons (@Piece.number _ [] [] [53] [] 32 1 .spawnTime (isOption .spawnTime) space ahead
        (by decide)) .nil
    · exact fun steady => steady [] (.number .spawnTime 5) [] rfl (.inl ⟨.inl rfl, rfl⟩)

end

end CE321.Cpuinit
