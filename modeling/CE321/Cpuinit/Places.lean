import CE321.Cpuinit.Layouts

/-! # Places in a profile

How deep `readProfile` stands in the tree, as the directives say it, and where it follows a
null pointer.
-/

namespace CE321.Cpuinit

/-- The depth of the structure that `top` points to, and of the open process. Init has depth 0,
and a null `top` counts as -1. -/
structure Place where
  level : Int
  process : Option Int

def Place.after (place : Place) : Directive → Place
  | .newProcess => { place with process := some (place.level + 1) }
  | .endProcess => { place with process := none }
  | .spawn => { place with level := place.process.getD place.level }
  | .endSpawn => ⟨place.level - 1, some place.level⟩
  | _ => place

/-- At the start no process is open below init. -/
def outside : Place := ⟨0, none⟩

def Directive.needsProcess (directive : Directive) : Prop :=
  directive.perProcess = true ∨ directive = .spawn

/-- A directive for a process where none is open, or one for the processes of a block above
init. -/
def Place.Astray (place : Place) (directive : Directive) : Prop :=
  (directive.needsProcess ∧ place.process = none) ∨
    ((directive = .newProcess ∨ directive = .endSpawn) ∧ place.level < 0)

instance (place : Place) (directive : Directive) : Decidable (place.Astray directive) :=
  inferInstanceAs (Decidable (((directive.perProcess = true ∨ directive = .spawn) ∧
    place.process = none) ∨ ((directive = .newProcess ∨ directive = .endSpawn) ∧ place.level < 0)))

/-- No directive goes astray. -/
def Steady (place : Place) (directives : List Directive) : Prop :=
  ∀ before directive after, directives = before ++ directive :: after →
    ¬(before.foldl Place.after place).Astray directive

/-- The first directive that goes astray. -/
def FirstAstray (place : Place) (directives : List Directive) (directive : Directive) : Prop :=
  ∃ before after, directives = before ++ directive :: after ∧ Steady place before ∧
    (before.foldl Place.after place).Astray directive

/-- The null pointer that a directive follows: `#ENDSPAWN` reads through it. -/
def Directive.null (directive : Directive) : Outcome :=
  if directive = .endSpawn then .nullRead else .nullWrite

/-! ## Depths in memory -/

/-- Every structure is one deeper than its parent. -/
structure Nested (memory : Memory) (depth : Option Nat → Int) : Prop where
  above : depth none = -1
  deeper : ∀ task < memory.allocated, depth (some task) = depth (memory.info task).parent + 1
  nonnegative : ∀ task < memory.allocated, 0 ≤ depth (some task)
  linked : ∀ task < memory.allocated, ∀ parent ∈ (memory.info task).parent,
    parent < memory.allocated

/-- A parser stands at a place. -/
def Stands (parser : Parser) (place : Place) : Prop :=
  ∃ depth, Nested parser.memory depth ∧ (∀ task ∈ parser.top, task < parser.memory.allocated) ∧
    (∀ task ∈ parser.newtask, task < parser.memory.allocated) ∧
    place.level = depth parser.top ∧
    place.process = parser.newtask.map fun task => depth (some task)

section

variable {place : Place} {parser : Parser} {directive : Directive} {directives : List Directive}
  {memory : Memory} {depth : Option Nat → Int} {task : Nat} {change : ThreadInfo → ThreadInfo}

theorem initial_stands : Stands initialParser outside := by
  refine ⟨fun task => if task = none then -1 else 0, ⟨rfl, ?_, ?_, ?_⟩, ?_, ?_, rfl, rfl⟩
  · intro task _
    rfl
  · intro task _
    exact le_rfl
  · intro task _ parent isParent
    cases isParent
  · intro task isTop
    cases isTop
    decide
  · intro task isTask
    cases isTask

theorem Nested.setInfo (nested : Nested memory depth)
    (keeps : ∀ info, (change info).parent = info.parent) :
    Nested (memory.setInfo task change) depth := by
  have parent : ∀ other, ((memory.setInfo task change).info other).parent =
      (memory.info other).parent := by
    intro other
    by_cases same : other = task
    · simp only [same, Memory.setInfo, Function.update_self, keeps]
    · simp only [Memory.setInfo, Function.update_of_ne same]
  refine ⟨nested.above, fun other bound => ?_, nested.nonnegative, fun other bound => ?_⟩
  · rw [parent, nested.deeper other bound]
  · rw [parent]
    exact nested.linked other bound

theorem Stands.setInfo (stands : Stands parser place)
    (keeps : ∀ info, (change info).parent = info.parent) :
    Stands (parser.setInfo task change) place := by
  rcases stands with ⟨depth, nested, topBelow, taskBelow, level, process⟩
  exact ⟨depth, nested.setInfo keeps, topBelow, taskBelow, level, process⟩

theorem Stands.globals {memory' : Memory} (stands : Stands parser place)
    (info : memory'.info = parser.memory.info)
    (allocated : memory'.allocated = parser.memory.allocated) :
    Stands { parser with memory := memory' } place := by
  rcases stands with ⟨depth, ⟨above, deeper, nonnegative, linked⟩, topBelow, taskBelow, level,
    process⟩
  rw [← info, ← allocated] at deeper linked
  rw [← allocated] at nonnegative topBelow taskBelow
  exact ⟨depth, ⟨above, deeper, nonnegative, linked⟩, topBelow, taskBelow, level, process⟩

/-- A null `top` is at the level above init. -/
theorem Stands.top (stands : Stands parser place) : parser.top = none ↔ place.level < 0 := by
  rcases stands with ⟨depth, nested, topBelow, -, level, -⟩
  constructor
  · intro isNull
    rw [level, isNull, nested.above]
    decide
  · intro negative
    cases isTop : parser.top with
    | none => rfl
    | some task =>
        have bound := nested.nonnegative task (topBelow task isTop)
        rw [level, isTop] at negative
        omega

theorem Stands.newtask (stands : Stands parser place) :
    parser.newtask = none ↔ place.process = none := by
  rcases stands with ⟨depth, -, -, -, -, process⟩
  rw [process, Option.map_eq_none_iff]

/-! ## One directive -/

theorem change_parent (directive : Directive) (info : ThreadInfo) :
    (directive.change info).parent = info.parent := by
  cases directive with
  | number field value => cases field <;> rfl
  | _ => rfl

theorem newProcess_stands (stands : Stands parser place) (isTop : parser.top = some task) :
    ∃ parser', newProcess parser = .ok parser' ∧ Stands parser' (place.after .newProcess) ∧
      parser'.children = parser.children := by
  rcases stands with ⟨depth, nested, topBelow, taskBelow, level, process⟩
  have below := topBelow task isTop
  rw [newProcess, isTop]
  refine ⟨_, rfl, Stands.setInfo ?_ fun _ => rfl, rfl⟩
  have apart : ∀ other < parser.memory.allocated,
      (some other : Option Nat) ≠ some parser.memory.allocated := by
    rintro other bound same
    cases same
    exact lt_irrefl _ bound
  have old : ∀ other < parser.memory.allocated, ∀ value : Int, Function.update depth
      (some parser.memory.allocated) value (some other) = depth (some other) :=
    fun other bound value => Function.update_of_ne (apart other bound) _ _
  have oldParent : ∀ other < parser.memory.allocated, ∀ value : Int, Function.update depth
      (some parser.memory.allocated) value (parser.memory.info other).parent =
        depth (parser.memory.info other).parent := by
    intro other bound value
    cases isParent : (parser.memory.info other).parent with
    | none => exact Function.update_of_ne (by simp) _ _
    | some parent => exact old parent (nested.linked other bound parent isParent) value
  refine ⟨Function.update depth (some parser.memory.allocated) (depth (some task) + 1),
    ⟨?_, ?_, ?_, ?_⟩, ?_, ?_, ?_, ?_⟩
  · rw [Function.update_of_ne (by simp), nested.above]
  · intro other bound
    rcases Nat.lt_succ_iff_lt_or_eq.mp bound with bound | rfl
    · rw [old other bound]
      simp only [Function.update_of_ne bound.ne]
      rw [oldParent other bound, nested.deeper other bound]
    · simp only [Function.update_self]
      rw [old task below]
  · intro other bound
    rcases Nat.lt_succ_iff_lt_or_eq.mp bound with bound | rfl
    · rw [old other bound]
      exact nested.nonnegative other bound
    · rw [Function.update_self]
      have bound := nested.nonnegative task below
      omega
  · intro other bound parent isParent
    rcases Nat.lt_succ_iff_lt_or_eq.mp bound with bound | rfl
    · simp only [Function.update_of_ne bound.ne] at isParent
      exact (nested.linked other bound parent isParent).trans (Nat.lt_succ_self _)
    · simp only [Function.update_self] at isParent
      cases isParent
      exact below.trans (Nat.lt_succ_self _)
  · intro other isTop
    cases isTop
    exact below.trans (Nat.lt_succ_self _)
  · intro other isTask
    cases isTask
    exact Nat.lt_succ_self _
  · show place.level = _
    rw [old task below, level, isTop]
  · simp only [Place.after, Option.map_some, Function.update_self, level, isTop]

theorem spawn_stands (stands : Stands parser place) (isTask : parser.newtask = some task) :
    ∃ parser', spawn parser = .ok parser' ∧ Stands parser' (place.after .spawn) ∧
      parser'.children = parser.children + 1 := by
  have written := @Stands.setInfo place parser task
    (fun info => { info with spawns := some true }) stands fun _ => rfl
  rcases written with ⟨depth, nested, topBelow, taskBelow, level, process⟩
  rw [spawn, isTask]
  refine ⟨_, rfl, ⟨depth, nested, ?_, taskBelow, ?_, process⟩, rfl⟩
  · intro other isTop
    cases isTop
    exact taskBelow task isTask
  · show place.process.getD place.level = depth (some task)
    rw [process]
    show ((parser.newtask.map fun task => depth (some task)).getD place.level) = depth (some task)
    rw [isTask]
    rfl

theorem endSpawn_stands (stands : Stands parser place) (isTop : parser.top = some task) :
    ∃ parser', endSpawn parser = .ok parser' ∧ Stands parser' (place.after .endSpawn) ∧
      parser'.children = parser.children - 1 := by
  rcases stands with ⟨depth, nested, topBelow, taskBelow, level, process⟩
  have below := topBelow task isTop
  have deeper := nested.deeper task below
  rw [endSpawn, isTop]
  refine ⟨_, rfl, ⟨depth, nested, ?_, ?_, ?_, ?_⟩, rfl⟩
  · exact nested.linked task below
  · intro other isTask
    cases isTask
    exact below
  · show place.level - 1 = depth (parser.memory.info task).parent
    rw [level, isTop]
    omega
  · show some place.level = some (depth (some task))
    rw [level, isTop]

/-- What a directive adds to the count of open blocks. -/
def Directive.opened (directive : Directive) : Int :=
  match directive with
  | .spawn => 1
  | .endSpawn => -1
  | _ => 0

theorem execute_stands (stands : Stands parser place) (steady : ¬place.Astray directive) :
    ∃ parser', directive.execute parser = .ok parser' ∧ Stands parser' (place.after directive) ∧
      parser'.children = parser.children + directive.opened := by
  rw [Place.Astray, not_or] at steady
  rcases steady with ⟨hasProcess, hasLevel⟩
  have isOpen : directive.needsProcess → ∃ task, parser.newtask = some task := by
    intro needs
    apply Option.ne_none_iff_exists'.mp
    exact fun isNull => hasProcess ⟨needs, stands.newtask.mp isNull⟩
  have isBelow : directive = .newProcess ∨ directive = .endSpawn →
      ∃ task, parser.top = some task := by
    intro needs
    apply Option.ne_none_iff_exists'.mp
    exact fun isNull => hasLevel ⟨needs, stands.top.mp isNull⟩
  by_cases perProcess : directive.perProcess = true
  · rcases isOpen (.inl perProcess) with ⟨task, isTask⟩
    refine ⟨parser.setInfo task fun info => directive.change info, ?_, ?_, ?_⟩
    · rw [execute_perProcess perProcess, writeTask, isTask]
    · have same : place.after directive = place := by cases directive <;> first | rfl | cases perProcess
      rw [same]
      exact stands.setInfo (change_parent directive)
    · have none : directive.opened = 0 := by cases directive <;> first | rfl | cases perProcess
      rw [none, Int.add_zero]
      rfl
  · cases directive with
    | number field value =>
        -- Only the globals change.
        cases field with
        | cycleTime => exact ⟨_, rfl, stands.globals rfl rfl, (Int.add_zero _).symm⟩
        | seed => exact ⟨_, rfl, stands.globals rfl rfl, (Int.add_zero _).symm⟩
        | endtime => exact ⟨_, rfl, stands.globals rfl rfl, (Int.add_zero _).symm⟩
        | _ => exact absurd rfl perProcess
    | name word => exact absurd rfl perProcess
    | type kind => exact absurd rfl perProcess
    | newProcess =>
        rcases isBelow (.inl rfl) with ⟨task, isTop⟩
        rw [show Directive.newProcess.opened = 0 from rfl, Int.add_zero]
        exact newProcess_stands stands isTop
    | endProcess =>
        rcases stands with ⟨depth, nested, topBelow, taskBelow, level, process⟩
        refine ⟨_, rfl, ⟨depth, nested, topBelow, ?_, level, rfl⟩, (Int.add_zero _).symm⟩
        intro task isTask
        cases isTask
    | spawn =>
        rcases isOpen (.inr rfl) with ⟨task, isTask⟩
        exact spawn_stands stands isTask
    | endSpawn =>
        rcases isBelow (.inr rfl) with ⟨task, isTop⟩
        exact endSpawn_stands stands isTop

theorem execute_astray (stands : Stands parser place) (astray : place.Astray directive) :
    directive.execute parser = .error directive.null := by
  rcases astray with ⟨perProcess | rfl, isClosed⟩ | ⟨rfl | rfl, isAbove⟩
  · have notEnd : directive ≠ .endSpawn := by
      rintro rfl
      cases perProcess
    rw [execute_perProcess perProcess, writeTask, stands.newtask.mpr isClosed, Directive.null,
      if_neg notEnd]
  · rw [Directive.execute, spawn, stands.newtask.mpr isClosed]
    rfl
  · rw [Directive.execute, newProcess, stands.top.mpr isAbove]
    rfl
  · rw [Directive.execute, endSpawn, stands.top.mpr isAbove]
    rfl

/-! ## A whole file -/

theorem Steady.cons (steady : Steady place (directive :: directives)) :
    ¬place.Astray directive ∧ Steady (place.after directive) directives :=
  ⟨steady [] directive directives rfl, fun before next after split =>
    steady (directive :: before) next after (by rw [split]; rfl)⟩

theorem Steady.of_cons (first : ¬place.Astray directive)
    (steady : Steady (place.after directive) directives) :
    Steady place (directive :: directives) := by
  intro before next after split
  cases before with
  | nil =>
      cases split
      exact first
  | cons other before =>
      cases split
      exact steady before next after rfl

theorem steady_or (directives : List Directive) : ∀ place,
    Steady place directives ∨ ∃ directive, FirstAstray place directives directive := by
  induction directives with
  | nil =>
      intro place
      exact .inl fun before directive after split => by simp at split
  | cons directive directives induction =>
      intro place
      by_cases astray : place.Astray directive
      · refine .inr ⟨directive, [], directives, rfl, ?_, astray⟩
        exact fun before directive after split => by simp at split
      · rcases induction (place.after directive) with
          steady | ⟨first, before, after, split, steady, isFirst⟩
        · exact .inl (.of_cons astray steady)
        · exact .inr ⟨first, directive :: before, after, by rw [split]; rfl, .of_cons astray steady,
            isFirst⟩

theorem FirstAstray.notSteady (first : FirstAstray place directives directive) :
    ¬Steady place directives := by
  rcases first with ⟨before, after, split, -, astray⟩
  exact fun steady => steady before directive after split astray

theorem FirstAstray.unique {other : Directive} (first : FirstAstray place directives directive)
    (first' : FirstAstray place directives other) : directive = other := by
  rcases first with ⟨before, after, rfl, steady, astray⟩
  rcases first' with ⟨before', after', split, steady', astray'⟩
  rcases List.append_eq_append_iff.mp split with ⟨between, rfl, same⟩ | ⟨between, rfl, same⟩
  · cases between with
    | nil =>
        cases same
        rfl
    | cons next between =>
        cases same
        exact absurd astray (steady' before directive between rfl)
  · cases between with
    | nil =>
        cases same
        rfl
    | cons next between =>
        cases same
        exact absurd astray' (steady before' other between rfl)

/-- The count of open blocks behind some directives. -/
def opened (directives : List Directive) : Int := (directives.map Directive.opened).sum

theorem executeAll_steady (directives : List Directive) : ∀ parser place, Stands parser place →
    Steady place directives →
    ∃ parser', executeAll directives parser = .ok parser' ∧
      Stands parser' (directives.foldl Place.after place) ∧
      parser'.children = parser.children + opened directives := by
  induction directives with
  | nil =>
      intro parser place stands steady
      exact ⟨parser, rfl, stands, (Int.add_zero _).symm⟩
  | cons directive directives induction =>
      intro parser place stands steady
      rcases execute_stands stands steady.cons.1 with ⟨middle, executes, standsMiddle, count⟩
      rcases induction middle _ standsMiddle steady.cons.2 with
        ⟨parser', executesRest, standsEnd, countRest⟩
      refine ⟨parser', ?_, standsEnd, ?_⟩
      · rw [executeAll, executes]
        exact executesRest
      · rw [countRest, count, opened, opened, List.map_cons, List.sum_cons]
        omega

theorem executeAll_astray (stands : Stands parser place)
    (first : FirstAstray place directives directive) :
    executeAll directives parser = .error directive.null := by
  rcases first with ⟨before, after, rfl, steady, astray⟩
  rcases executeAll_steady before parser place stands steady with ⟨middle, executes, standsThere, -⟩
  rw [executeAll_append, executes]
  show (directive.execute middle).bind _ = _
  rw [execute_astray standsThere astray]
  rfl

end

end CE321.Cpuinit
