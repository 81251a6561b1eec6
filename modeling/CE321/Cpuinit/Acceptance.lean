import CE321.Cpuinit.Places
import CE321.Cpuinit.Printing

/-! # Which profiles are accepted

When `readProfile` accepts just the balanced profiles and writes through no null pointer. It
counts the open blocks at the end only, and white space behind the last directive decides
that this directive is not executed.
-/

namespace CE321.Cpuinit

open CString

/-- At every point there are at least as many `#SPAWN` as `#ENDSPAWN`. -/
def NeverBelow (directives : List Directive) : Prop :=
  ∀ before, before <+: directives → before.count .endSpawn ≤ before.count .spawn

instance (directives : List Directive) : Decidable (NeverBelow directives) :=
  decidable_of_iff (∀ before ∈ directives.inits, before.count .endSpawn ≤ before.count .spawn) <| by
    simp only [List.mem_inits, NeverBelow]

/-- Whether a process is open behind a directive: `#ENDSPAWN` goes back to the process that the
block belongs to. -/
def openAfter (isOpen : Bool) : Directive → Bool
  | .newProcess => true
  | .endProcess => false
  | .endSpawn => true
  | _ => isOpen

structure Balanced (directives : List Directive) : Prop where
  neverBelow : NeverBelow directives
  closed : directives.count .spawn = directives.count .endSpawn
  inProcess : ∀ before directive after, directives = before ++ directive :: after →
    directive.needsProcess → before.foldl openAfter false = true

/-- A file is accepted if and only if its directives are balanced, and no null pointer is
written through. -/
def JudgedRight (directives : List Directive) (text : Bytes) : Prop :=
  ((∃ memory, Ends text (.returned true memory)) ↔ Balanced directives) ∧ ¬Ends text .nullWrite

/-- The directives that `readProfile` judges right. The first executed directive that goes astray,
if there is one, is an `#ENDSPAWN`, and the directives are not balanced. If there is none, and all
executed blocks are closed, then none is closed too early, and none is opened or closed by the
last directive. If one block is left open and none is closed too early, then the last directive
does not close it. -/
structure Regular (directives : List Directive) : Prop where
  lost : ∀ directive, FirstAstray outside (executed directives) directive →
    directive = .endSpawn ∧ ¬Balanced directives
  closed : Steady outside (executed directives) →
    (executed directives).count .spawn = (executed directives).count .endSpawn →
    NeverBelow (executed directives) ∧ directives.getLast? ≠ some .spawn ∧
      directives.getLast? ≠ some .endSpawn
  pending : Steady outside (executed directives) → NeverBelow (executed directives) →
    (executed directives).count .spawn = (executed directives).count .endSpawn + 1 →
    directives.getLast? ≠ some .endSpawn

section

variable {directives run : List Directive} {directive last : Directive} {text : Bytes}

theorem Lines.leads (lines : Lines directives text) :
    Leads step (start text) (conclude (executeAll (executed directives) initialParser)) := by
  have gaps : ∀ gap, gap = [10] → Gap gap := by
    rintro gap rfl
    exact .intro rfl .nil
  have spaces : ∀ gap, gap = [10] → Spaces gap := by
    rintro gap rfl
    exact List.forall_mem_singleton.mpr rfl
  rcases Written.ends .nil gaps lines with ⟨run, -, isExecuted, leads⟩
  rw [isExecuted spaces] at leads
  exact leads

theorem Lines.astray (lines : Lines directives text)
    (first : FirstAstray outside (executed directives) directive) : Ends text directive.null := by
  have leads := lines.leads
  rw [executeAll_astray initial_stands first] at leads
  exact leads

theorem Lines.steady (lines : Lines directives text)
    (steady : Steady outside (executed directives)) :
    ∃ memory, Ends text (.returned (decide (opened (executed directives) = 0)) memory) := by
  have leads := lines.leads
  rcases executeAll_steady _ _ _ initial_stands steady with ⟨parser, executes, -, count⟩
  rw [show initialParser.children = 0 from rfl, Int.zero_add] at count
  rw [executes, conclude, Parser.finishes, count] at leads
  exact ⟨parser.memory, leads⟩

/-! ## Counts -/

theorem opened_append (directives directives' : List Directive) :
    opened (directives ++ directives') = opened directives + opened directives' := by
  rw [opened, List.map_append, List.sum_append]
  rfl

theorem opened_eq (directives : List Directive) :
    opened directives = (directives.count .spawn : Int) - directives.count .endSpawn := by
  induction directives with
  | nil => rfl
  | cons directive directives induction =>
      rw [show opened (directive :: directives) = directive.opened + opened directives from
        List.sum_cons, induction, List.count_cons, List.count_cons]
      cases directive <;> simp [Directive.opened] <;> omega

theorem NeverBelow.opened (neverBelow : NeverBelow directives) : 0 ≤ opened directives := by
  have bound := neverBelow directives (List.prefix_refl _)
  rw [opened_eq]
  omega

/-! ## Open processes -/

theorem isSome_process (directives : List Directive) : ∀ place : Place,
    (directives.foldl Place.after place).process.isSome =
      directives.foldl openAfter place.process.isSome := by
  induction directives with
  | nil => exact fun place => rfl
  | cons directive directives induction =>
      intro place
      rw [List.foldl_cons, List.foldl_cons, induction]
      cases directive <;> rfl

theorem Steady.inProcess (steady : Steady outside run) : ∀ before directive after,
    run = before ++ directive :: after → directive.needsProcess →
    before.foldl openAfter false = true := by
  intro before directive after split needs
  have notAstray := steady before directive after split
  rw [Place.Astray, not_or, not_and] at notAstray
  have isOpen := notAstray.1 needs
  rw [← ne_eq, ← Option.isSome_iff_ne_none, isSome_process] at isOpen
  exact isOpen

theorem Steady.balanced (steady : Steady outside run) :
    Balanced run ↔ NeverBelow run ∧ opened run = 0 := by
  rw [opened_eq]
  constructor
  · intro balanced
    have closed := balanced.closed
    exact ⟨balanced.neverBelow, by omega⟩
  · rintro ⟨neverBelow, closed⟩
    exact ⟨neverBelow, by omega, steady.inProcess⟩

theorem plain_perProcess (isPlain : directive.plain = true) : ¬directive.perProcess = true := by
  intro perProcess
  cases directive with
  | number field value => cases isPlain
  | name word => cases isPlain
  | type kind => cases isPlain
  | _ => cases perProcess

theorem Steady.balanced_concat (steady : Steady outside run) (isPlain : last.plain = true) :
    Balanced (run ++ [last]) ↔ NeverBelow run ∧ opened run + last.opened = 0 ∧ last ≠ .spawn := by
  have whole : opened run + last.opened = opened (run ++ [last]) := by
    rw [opened_append, opened, opened, List.map_singleton, List.sum_singleton]
  constructor
  · intro balanced
    have closed := balanced.closed
    have neverBelow : NeverBelow run := fun before isPrefix =>
      balanced.neverBelow before (isPrefix.trans (List.prefix_append run [last]))
    have count : opened run + last.opened = 0 := by
      rw [whole, opened_eq]
      omega
    refine ⟨neverBelow, count, ?_⟩
    rintro rfl
    have bound := neverBelow.opened
    rw [Directive.opened] at count
    omega
  · rintro ⟨neverBelow, count, notSpawn⟩
    rw [whole, opened_eq] at count
    refine ⟨fun before isPrefix => ?_, by omega, fun before directive after split needs => ?_⟩
    · rcases List.prefix_concat_iff.mp isPrefix with rfl | isPrefix
      · omega
      · exact neverBelow before isPrefix
    · rcases List.eq_nil_or_concat' after with rfl | ⟨others, final, rfl⟩
      · have same := List.append_inj_right' split rfl
        cases same
        rcases needs with perProcess | isSpawn
        · exact absurd perProcess (plain_perProcess isPlain)
        · exact absurd isSpawn notSpawn
      · rw [← List.cons_append, ← List.append_assoc] at split
        have same := List.append_inj_left' split rfl
        exact steady.inProcess before directive others same needs

/-! ## The last directive -/

theorem executed_or (directives : List Directive) :
    (executed directives = directives ∧ ∀ last ∈ directives.getLast?, ¬last.plain = true) ∨
      ∃ last, directives = executed directives ++ [last] ∧ last.plain = true := by
  rcases List.eq_nil_or_concat' directives with rfl | ⟨others, last, rfl⟩
  · refine .inl ⟨rfl, fun last isLast => ?_⟩
    cases isLast
  · rw [executed_concat]
    by_cases isPlain : last.plain = true
    · rw [if_pos isPlain]
      exact .inr ⟨last, rfl, isPlain⟩
    · rw [if_neg isPlain, List.getLast?_concat]
      refine .inl ⟨rfl, fun other isLast => ?_⟩
      cases isLast
      exact isPlain

/-- With no directive astray, the count of the executed ones says whether all are balanced. -/
theorem balanced_iff_of_steady (steady : Steady outside (executed directives)) :
    (opened (executed directives) = 0 ↔ Balanced directives) ↔
      (opened (executed directives) = 0 → NeverBelow (executed directives) ∧
        directives.getLast? ≠ some .spawn ∧ directives.getLast? ≠ some .endSpawn) ∧
      (NeverBelow (executed directives) → opened (executed directives) = 1 →
        directives.getLast? ≠ some .endSpawn) := by
  rcases executed_or directives with ⟨same, notPlain⟩ | ⟨last, split, isPlain⟩
  · have notSpawn : directives.getLast? ≠ some .spawn := fun isLast => notPlain _ isLast rfl
    have notEnd : directives.getLast? ≠ some .endSpawn := fun isLast => notPlain _ isLast rfl
    rw [same] at steady ⊢
    rw [steady.balanced]
    tauto
  · have isLast : directives.getLast? = some last := by
      rw [split, List.getLast?_concat]
    have balanced := steady.balanced_concat isPlain
    rw [← split] at balanced
    rw [balanced, isLast]
    have bound : NeverBelow (executed directives) → 0 ≤ opened (executed directives) :=
      NeverBelow.opened
    cases last with
    | newProcess => simp [Directive.opened]
    | endProcess => simp [Directive.opened]
    | spawn => simp [Directive.opened]
    | endSpawn =>
        simp only [Directive.opened, ne_eq, reduceCtorEq, not_false_eq_true, and_true, not_true_eq_false,
          and_false, imp_false]
        by_cases neverBelow : NeverBelow (executed directives)
        · simp only [neverBelow, true_and, forall_const]
          omega
        · simp only [neverBelow, false_and, iff_false, IsEmpty.forall_iff, and_true]
    | _ => cases isPlain

/-! ## Judgement -/

/-- `readProfile` judges just the regular directives right. -/
theorem judgedRight_iff (lines : Lines directives text) :
    JudgedRight directives text ↔ Regular directives := by
  rcases steady_or (executed directives) outside with steady | ⟨directive, first⟩
  · rcases lines.steady steady with ⟨memory, ends⟩
    have noWrite : ¬Ends text .nullWrite := fun ends' => Outcome.noConfusion (ends.unique ends')
    have accepts : (∃ memory, Ends text (.returned true memory)) ↔
        opened (executed directives) = 0 := by
      constructor
      · rintro ⟨memory', ends'⟩
        have same := ends.unique ends'
        injection same with same
        exact of_decide_eq_true same
      · intro closed
        rw [decide_eq_true closed] at ends
        exact ⟨memory, ends⟩
    have counts := opened_eq (executed directives)
    rw [JudgedRight, accepts, balanced_iff_of_steady steady]
    constructor
    · rintro ⟨⟨closed, pending⟩, -⟩
      refine ⟨fun directive first => absurd steady first.notSteady, fun _ equal => closed (by omega),
        fun _ neverBelow equal => pending neverBelow (by omega)⟩
    · intro regular
      refine ⟨⟨fun closed => regular.closed steady (by omega), fun neverBelow pending =>
        regular.pending steady neverBelow (by omega)⟩, noWrite⟩
  · have ends := lines.astray first
    have notSteady := first.notSteady
    have rejects : ¬∃ memory, Ends text (.returned true memory) := by
      rintro ⟨memory, ends'⟩
      have same := ends.unique ends'
      rw [Directive.null] at same
      split at same <;> cases same
    have writes : Ends text .nullWrite ↔ directive ≠ .endSpawn := by
      by_cases isEnd : directive = .endSpawn
      · rw [Directive.null, if_pos isEnd] at ends
        exact iff_of_false (fun ends' => Outcome.noConfusion (ends.unique ends'))
          (fun different => different isEnd)
      · rw [Directive.null, if_neg isEnd] at ends
        exact iff_of_true ends isEnd
    rw [JudgedRight, writes, not_not, iff_false_left rejects]
    constructor
    · rintro ⟨notBalanced, isEnd⟩
      refine ⟨fun other firstToo => ⟨?_, notBalanced⟩, fun steady => absurd steady notSteady,
        fun steady => absurd steady notSteady⟩
      rw [← first.unique firstToo]
      exact isEnd
    · intro regular
      exact (regular.lost directive first).symm

theorem judgedRight_iff_nested :
    JudgedRight nested.print (printAll [10] nested.print) ↔ Regular nested.print :=
  judgedRight_iff (printAll_written rfl (prints_print nested).writable)

/-- A line for a process that was never opened, a block that is closed by the last line, and a
block that is closed before it is opened. -/
theorem judgedRight_fails :
    (Lines [.number .spawnTime 5] (ascii "#SPAWNTIME 5\n") ∧
      Ends (ascii "#SPAWNTIME 5\n") .nullWrite) ∧
    (Lines [.newProcess, .spawn, .newProcess, .endProcess, .endSpawn]
        (printAll [10] [.newProcess, .spawn, .newProcess, .endProcess, .endSpawn]) ∧
      ¬JudgedRight [.newProcess, .spawn, .newProcess, .endProcess, .endSpawn]
        (printAll [10] [.newProcess, .spawn, .newProcess, .endProcess, .endSpawn])) ∧
    (Lines [.endSpawn, .spawn, .number .seed 1]
        (printAll [10] [.endSpawn, .spawn, .number .seed 1]) ∧
      ¬JudgedRight [.endSpawn, .spawn, .number .seed 1]
        (printAll [10] [.endSpawn, .spawn, .number .seed 1])) := by
  have none : ∀ place, Steady place [] := fun place before directive after split => by
    simp at split
  refine ⟨?_, ?_, ?_⟩
  · have lines : Lines [.number .spawnTime 5] (ascii "#SPAWNTIME 5\n") := by
      have isValue : ValueText (.number .spawnTime 5) [53] :=
        ⟨⟨[], 1, [53], rfl, .none, by decide, List.forall_mem_singleton.mpr rfl, by decide⟩, by decide⟩
      have spaces : Spaces [32] := List.forall_mem_singleton.mpr rfl
      have split : ascii "#SPAWNTIME 5\n" =
          35 :: Copt.spawnTime.text ++ 32 :: ([] ++ [53]) ++ ([10] ++ []) := by rfl
      rw [split]
      exact Written.cons (.valued spaces isValue) rfl .nil
    exact ⟨lines, lines.astray ⟨[], [], rfl, none _, by decide⟩⟩
  · have lines : Lines [.newProcess, .spawn, .newProcess, .endProcess, .endSpawn]
        (printAll [10] [.newProcess, .spawn, .newProcess, .endProcess, .endSpawn]) :=
      printAll_written rfl (by simp [Directive.Writable])
    refine ⟨lines, fun judged => ?_⟩
    have steady : Steady outside [.newProcess, .spawn, .newProcess, .endProcess] :=
      .of_cons (by decide) (.of_cons (by decide) (.of_cons (by decide) (.of_cons (by decide) (none _))))
    rcases lines.steady steady with ⟨memory, ends⟩
    have balanced := (@Steady.balanced_concat _ .endSpawn steady rfl).mpr ⟨by decide, rfl, by decide⟩
    rcases judged.1.mpr balanced with ⟨memory', ends'⟩
    cases ends.unique ends'
  · have lines : Lines [.endSpawn, .spawn, .number .seed 1]
        (printAll [10] [.endSpawn, .spawn, .number .seed 1]) :=
      printAll_written rfl (by simp [Directive.Writable, IsInt])
    refine ⟨lines, fun judged => ?_⟩
    have steady : Steady outside [.endSpawn, .spawn, .number .seed 1] :=
      .of_cons (by decide) (.of_cons (by decide) (.of_cons (by decide) (none _)))
    rcases lines.steady steady with ⟨memory, ends⟩
    have neverBelow := (judged.1.mp ⟨memory, ends⟩).neverBelow
    revert neverBelow
    decide

end

end CE321.Cpuinit
