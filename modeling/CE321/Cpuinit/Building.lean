import CE321.Cpuinit.Forest

/-! # Building a forest

The directives that print a forest build it below the structure that `top` points to, and
leave `top` and the count of open blocks as they were.
-/

namespace CE321.Cpuinit

open CString

/-- A forest was built at the end of the list of a structure. -/
structure Grown (parser parser' : Parser) (top : Nat) (forest : Forest) : Prop where
  top_eq : parser'.top = some top
  children_eq : parser'.children = parser.children
  allocated_eq : parser'.memory.allocated = parser.memory.allocated + forest.size
  kept : ∀ id < parser.memory.allocated, id ≠ top → parser'.memory.info id = parser.memory.info id
  built : ∃ ids, parser'.memory.info top =
      { parser.memory.info top with list := (parser.memory.info top).list ++ ids } ∧
    Represents parser'.memory top parser.memory.allocated forest ids

section

variable {parser parser' parser'' : Parser} {top task : Nat} {forest children rest : Forest}
  {attributes : Attributes} {lines directives : List Directive}

/-! ## Attributes -/

theorem setInfo_setInfo (parser : Parser) (task : Nat) (first second : ThreadInfo → ThreadInfo) :
    (parser.setInfo task first).setInfo task second =
      parser.setInfo task fun info => second (first info) := by
  simp [Parser.setInfo, Memory.setInfo]

theorem executeAll_perProcess (perProcess : ∀ directive ∈ lines, directive.perProcess = true)
    (isOpen : parser.newtask = some task) :
    executeAll lines parser = .ok (parser.setInfo task fun info => lines.foldl Directive.change info) := by
  induction lines generalizing parser with
  | nil => simp [executeAll, Parser.setInfo, Memory.setInfo]
  | cons directive lines induction =>
      rcases List.forall_mem_cons.mp perProcess with ⟨isPerProcess, perProcess⟩
      rw [executeAll, execute_perProcess isPerProcess, writeTask, isOpen]
      have others := @induction (parser.setInfo task fun info => directive.change info) perProcess
        isOpen
      rw [setInfo_setInfo] at others
      exact others

/-- Different options write different fields. -/
theorem change_comm {directive directive' : Directive} (differ : directive.option ≠ directive'.option)
    (info : ThreadInfo) :
    directive'.change (directive.change info) = directive.change (directive'.change info) := by
  have fields : ∀ field field' : Field, field ≠ field' → ∀ value value' : Int,
      (Directive.number field' value').change ((Directive.number field value).change info) =
        (Directive.number field value).change ((Directive.number field' value').change info) := by
    intro field field' differ value value'
    cases field <;> cases field' <;> first | rfl | exact absurd rfl differ
  cases directive with
  | number field value =>
      cases directive' with
      | number field' value' => exact fields field field' (fun same => differ (same ▸ rfl)) value value'
      | _ => cases field <;> rfl
  | name word =>
      cases directive' with
      | number field value => cases field <;> rfl
      | name word' => exact absurd rfl differ
      | _ => rfl
  | type kind =>
      cases directive' with
      | number field value => cases field <;> rfl
      | type kind' => exact absurd rfl differ
      | _ => rfl
  | _ => rfl

theorem perProcess_lines (attributes : Attributes) :
    ∀ directive ∈ attributes.lines, directive.perProcess = true := by
  cases killTime : attributes.killTime <;> cases workDuration : attributes.workDuration <;>
    cases niceValue : attributes.niceValue <;>
    simp [Attributes.lines, killTime, workDuration, niceValue, Directive.perProcess]

theorem lines_comm (attributes : Attributes) : ∀ directive ∈ attributes.lines,
    ∀ directive' ∈ attributes.lines, ∀ info,
      directive'.change (directive.change info) = directive.change (directive'.change info) := by
  have different : (attributes.lines.map Directive.option).Nodup := by
    cases killTime : attributes.killTime <;> cases workDuration : attributes.workDuration <;>
      cases niceValue : attributes.niceValue <;>
      simp [Attributes.lines, killTime, workDuration, niceValue, Directive.option, Field.option]
  intro directive member directive' member' info
  by_cases same : directive = directive'
  · rw [same]
  · exact change_comm (fun equal => same (List.inj_on_of_nodup_map different member member' equal)) info

def freshInfo (parent : Nat) : ThreadInfo where
  spawnTime := none
  killTime := some (-1)
  niceValue := some 0
  spawns := none
  workDuration := some (-1)
  threadType := none
  processName := none
  parent := some parent
  list := []

theorem foldl_lines (attributes : Attributes) (parent : Nat) :
    attributes.lines.foldl (fun info directive => directive.change info) (freshInfo parent) =
      attributes.info parent none [] := by
  have inRange : ∀ value ∈ attributes.niceValue, checkNice value = value := by
    intro value member
    have bounds := attributes.isNiceValue value member
    rw [checkNice, if_neg (by omega)]
  cases killTime : attributes.killTime <;> cases workDuration : attributes.workDuration <;>
    cases niceValue : attributes.niceValue <;>
    simp_all [Attributes.lines, Attributes.info, freshInfo, Directive.change]

theorem foldl_ordered (ordered : lines.Perm attributes.lines) (parent : Nat) :
    lines.foldl (fun info directive => directive.change info) (freshInfo parent) =
      attributes.info parent none [] := by
  rw [← foldl_lines]
  refine ordered.foldl_eq' (fun directive member directive' member' info => ?_) _
  exact lines_comm attributes directive (ordered.subset member) directive' (ordered.subset member') info

/-! ## Processes -/

/-- A process was opened and has its attributes. -/
structure Opened (parser parser' : Parser) (top : Nat) (attributes : Attributes) : Prop where
  top_eq : parser'.top = some top
  newtask_eq : parser'.newtask = some parser.memory.allocated
  children_eq : parser'.children = parser.children
  allocated_eq : parser'.memory.allocated = parser.memory.allocated + 1
  kept : ∀ id < parser.memory.allocated, id ≠ top → parser'.memory.info id = parser.memory.info id
  linked : parser'.memory.info top = { parser.memory.info top with
    list := (parser.memory.info top).list ++ [parser.memory.allocated] }
  made : parser'.memory.info parser.memory.allocated = attributes.info top none []

theorem opens (isTop : parser.top = some top) (below : top < parser.memory.allocated)
    (ordered : lines.Perm attributes.lines) :
    ∃ parser', executeAll (.newProcess :: lines) parser = .ok parser' ∧
      Opened parser parser' top attributes := by
  have perProcess : ∀ directive ∈ lines, directive.perProcess = true := fun directive member =>
    perProcess_lines attributes directive (ordered.subset member)
  have apart : top ≠ parser.memory.allocated := below.ne
  rw [executeAll, Directive.execute, newProcess, isTop]
  refine ⟨_, executeAll_perProcess perProcess rfl, ?_⟩
  refine ⟨rfl, rfl, rfl, rfl, fun id bound differs => ?_, ?_, ?_⟩
  · simp [Parser.setInfo, Memory.setInfo, differs, bound.ne]
  · simp [Parser.setInfo, Memory.setInfo, apart]
  · simp only [Parser.setInfo, Memory.setInfo, Function.update_self, Function.update_of_ne apart.symm]
    exact foldl_ordered ordered top

/-! ## Trees -/

theorem Opened.leaf (opened : Opened parser parser' top attributes) :
    Grown parser { parser' with newtask := none } top (.cons attributes .nil .nil) where
  top_eq := opened.top_eq
  children_eq := opened.children_eq
  allocated_eq := opened.allocated_eq
  kept := opened.kept
  built := ⟨_, opened.linked, [], [], rfl, opened.made, rfl, rfl⟩

/-- The parser behind `#SPAWN` in an opened process. -/
def Parser.spawned (parser : Parser) (task : Nat) : Parser :=
  { parser.setInfo task fun info => { info with spawns := some true } with
    top := some task
    children := parser.children + 1 }

theorem Opened.node (opened : Opened parser parser' top attributes)
    (below : top < parser.memory.allocated) (isNode : children ≠ .nil)
    (grown : Grown (parser'.spawned parser.memory.allocated) parser'' parser.memory.allocated
      children) :
    Grown parser
      { parser'' with
        top := (parser''.memory.info parser.memory.allocated).parent
        newtask := none
        children := parser''.children - 1 } top (.cons attributes children .nil) := by
  have allocated := grown.allocated_eq
  have kept := grown.kept
  rcases grown.built with ⟨ids, list, represents⟩
  have count := grown.children_eq
  simp only [Parser.spawned, Parser.setInfo, Memory.setInfo, Function.update_self,
    opened.allocated_eq, opened.made, opened.children_eq] at allocated kept list represents count
  have same : ∀ id < parser.memory.allocated, parser''.memory.info id = parser'.memory.info id := by
    intro id bound
    rw [kept id (by omega) bound.ne, Function.update_of_ne bound.ne]
  refine ⟨?_, ?_, ?_, ?_, ?_⟩
  · show (parser''.memory.info parser.memory.allocated).parent = some top
    rw [list]
    rfl
  · show parser''.children - 1 = parser.children
    omega
  · show parser''.memory.allocated = _
    rw [allocated, Forest.size, Forest.size]
    omega
  · intro id bound differs
    rw [same id bound, opened.kept id bound differs]
  · refine ⟨[parser.memory.allocated], ?_, [], ids, rfl, ?_, represents, rfl⟩
    · rw [same top below, opened.linked]
    · rw [list]
      cases children with
      | nil => exact absurd rfl isNode
      | cons _ _ _ => rfl

/-! ## Forests -/

theorem Grown.trans (below : top < parser.memory.allocated)
    (first : Grown parser parser' top (.cons attributes children .nil))
    (second : Grown parser' parser'' top rest) :
    Grown parser parser'' top (.cons attributes children rest) := by
  rcases first.built with ⟨ids, list, others, inner, isIds, info, representsInner, isOthers⟩
  rcases second.built with ⟨ids', list', representsRest⟩
  have allocated := first.allocated_eq
  have count := second.allocated_eq
  cases isIds
  cases isOthers
  rw [Forest.size, Forest.size, Nat.add_zero] at allocated
  have same : ∀ id < parser'.memory.allocated, id ≠ top →
      parser''.memory.info id = parser'.memory.info id := second.kept
  refine ⟨second.top_eq, second.children_eq.trans first.children_eq, ?_, ?_, ?_⟩
  · rw [count, allocated, Forest.size]
    omega
  · intro id bound differs
    rw [same id (by omega) differs, first.kept id bound differs]
  · refine ⟨parser.memory.allocated :: ids', ?_, ids', inner, rfl, ?_, ?_, ?_⟩
    · rw [list', list]
      simp
    · rw [same _ (by omega) below.ne', info]
    · exact representsInner.frame fun id lower upper => same id (by omega) (by omega)
    · rw [allocated, ← Nat.add_assoc] at representsRest
      exact representsRest

theorem Prints.grows (prints : Prints forest directives) : ∀ parser top, parser.top = some top →
    top < parser.memory.allocated →
    ∃ parser', executeAll directives parser = .ok parser' ∧ Grown parser parser' top forest := by
  induction prints with
  | nil =>
      intro parser top isTop below
      exact ⟨parser, rfl, isTop, rfl, rfl, fun _ _ _ => rfl, [], by simp, rfl⟩
  | @leaf attributes rest lines following ordered prints induction =>
      intro parser top isTop below
      rcases opens isTop below ordered with ⟨opened, executes, isOpened⟩
      have grown := isOpened.leaf
      have belowNext : top < opened.memory.allocated := by
        rw [isOpened.allocated_eq]
        omega
      rcases induction { opened with newtask := none } top isOpened.top_eq belowNext with
        ⟨parser', executesRest, grownRest⟩
      refine ⟨parser', ?_, grown.trans below grownRest⟩
      rw [← List.cons_append, executeAll_append, executes]
      exact executesRest
  | @node attributes children rest lines inner following ordered isNode printsInner prints
      inductionInner induction =>
      intro parser top isTop below
      rcases opens isTop below ordered with ⟨opened, executes, isOpened⟩
      have taskBelow : parser.memory.allocated <
          (opened.spawned parser.memory.allocated).memory.allocated := by
        show parser.memory.allocated < opened.memory.allocated
        rw [isOpened.allocated_eq]
        omega
      rcases inductionInner _ _ rfl taskBelow with ⟨closed, executesInner, grownInner⟩
      have grown := isOpened.node below isNode grownInner
      have belowNext : top < closed.memory.allocated := by
        rw [grownInner.allocated_eq]
        omega
      rcases induction _ top grown.top_eq belowNext with ⟨parser', executesRest, grownRest⟩
      refine ⟨parser', ?_, grown.trans below grownRest⟩
      have spawns : Cpuinit.spawn opened = .ok (opened.spawned parser.memory.allocated) := by
        rw [Cpuinit.spawn, isOpened.newtask_eq]
        rfl
      rw [← List.cons_append, executeAll_append, executes]
      show (Cpuinit.spawn opened).bind _ = _
      rw [spawns]
      show executeAll (inner ++ .endSpawn :: .endProcess :: following) _ = _
      rw [executeAll_append, executesInner]
      show (Cpuinit.endSpawn closed).bind _ = _
      rw [Cpuinit.endSpawn, grownInner.top_eq]
      exact executesRest

end

end CE321.Cpuinit
