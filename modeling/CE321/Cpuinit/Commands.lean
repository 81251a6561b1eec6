import CE321.Cpuinit.Pieces

/-! # The commands of a file

What the commands of any file do, as the directives tell it that they count as: where they follow
a null pointer, how many blocks they leave open, and the type that they leave to the open process.
-/

namespace CE321.Cpuinit

open CString
open Vsched (ThreadType)

def Command.execute (parser : Parser) : Command → Except Outcome Parser
  | .directive known => known.execute parser
  | .missing field => assign field none parser
  | .otherType => .ok parser

def executeCommands : List Command → Parser → Except Outcome Parser
  | [], parser => .ok parser
  | command :: rest, parser => (command.execute parser).bind (executeCommands rest)

def counted (commands : List Command) : List Directive := commands.filterMap Command.counted

/-- The processes by the order of their `#NEWPROCESS`: how many there are with init, those whose
blocks are open from the inside on, the open one, and their types. -/
structure Naming where
  count : Nat
  path : List Nat
  process : Option Nat
  kinds : Nat → Option ThreadType

def Naming.after (naming : Naming) : Directive → Naming
  | .newProcess => { naming with
      count := naming.count + 1
      process := some naming.count
      kinds := Function.update naming.kinds naming.count none }
  | .endProcess => { naming with process := none }
  | .spawn => { naming with
      -- A second `#SPAWN` for the same process opens no block of another one.
      path := if naming.path.head? = naming.process then naming.path
        else naming.process.toList ++ naming.path }
  | .endSpawn => { naming with
      path := naming.path.tail
      process := naming.path.head? }
  | .type kind => { naming with
      kinds := fun id => if naming.process = some id then some kind else naming.kinds id }
  | _ => naming

def onlyInit : Naming := ⟨1, [0], none, fun _ => some .init⟩

def openKind (directives : List Directive) : Option ThreadType :=
  let naming := directives.foldl Naming.after onlyInit
  naming.process.bind naming.kinds

/-- A structure and those above it. -/
def Path (memory : Memory) : Option Nat → List Nat → Prop
  | top, [] => top = none
  | top, task :: above =>
      top = some task ∧ task < memory.allocated ∧ Path memory (memory.info task).parent above

/-- The processes are the structures in memory. -/
structure Names (parser : Parser) (naming : Naming) : Prop where
  count : naming.count = parser.memory.allocated
  path : Path parser.memory parser.top naming.path
  process : naming.process = parser.newtask
  kinds : ∀ id, naming.kinds id = (parser.memory.info id).threadType
  below : ∀ task ∈ parser.newtask, task < parser.memory.allocated
  beside : ∀ task ∈ parser.newtask,
    (parser.memory.info task).parent = parser.top ∨ parser.top = some task

section

variable {parser parser' : Parser} {naming : Naming} {place : Place} {memory memory' : Memory}
  {command : Command} {commands : List Command} {directive : Directive} {task : Nat}
  {change : ThreadInfo → ThreadInfo}

/-! ## Types in memory -/

theorem Path.head {top : Option Nat} {path : List Nat} (isPath : Path memory top path) :
    path.head? = top := by
  cases path with
  | nil => exact isPath.symm
  | cons task above => exact isPath.1.symm

theorem Path.frame (allocated : memory.allocated ≤ memory'.allocated)
    (parent : ∀ id < memory.allocated, (memory'.info id).parent = (memory.info id).parent)
    {path : List Nat} : ∀ {top : Option Nat}, Path memory top path → Path memory' top path := by
  induction path with
  | nil => exact fun isPath => isPath
  | cons task above induction =>
      rintro top ⟨isTop, below, isAbove⟩
      refine ⟨isTop, below.trans_le allocated, ?_⟩
      rw [parent task below]
      exact induction isAbove

theorem initial_names : Names initialParser onlyInit where
  count := rfl
  path := ⟨rfl, by decide, rfl⟩
  process := rfl
  kinds := fun _ => rfl
  below := fun task isTask => by cases isTask
  beside := fun task isTask => by cases isTask

theorem setInfo_parent (keeps : ∀ info, (change info).parent = info.parent) (id : Nat) :
    ((memory.setInfo task change).info id).parent = (memory.info id).parent := by
  by_cases same : id = task
  · simp only [same, Memory.setInfo, Function.update_self, keeps]
  · simp only [Memory.setInfo, Function.update_of_ne same]

theorem setInfo_kind (keeps : ∀ info, (change info).threadType = info.threadType) (id : Nat) :
    ((memory.setInfo task change).info id).threadType = (memory.info id).threadType := by
  by_cases same : id = task
  · simp only [same, Memory.setInfo, Function.update_self, keeps]
  · simp only [Memory.setInfo, Function.update_of_ne same]

theorem Path.setInfo {top : Option Nat} {path : List Nat} (isPath : Path memory top path)
    (parent : ∀ info, (change info).parent = info.parent) :
    Path (memory.setInfo task change) top path :=
  @Path.frame memory (memory.setInfo task change) (Nat.le_refl _)
    (fun id _ => setInfo_parent parent id) path top isPath

theorem Names.setInfo (names : Names parser naming)
    (parent : ∀ info, (change info).parent = info.parent)
    (kind : ∀ info, (change info).threadType = info.threadType) :
    Names (parser.setInfo task change) naming where
  count := names.count
  path := names.path.setInfo parent
  process := names.process
  kinds := fun id => (names.kinds id).trans (setInfo_kind kind id).symm
  below := names.below
  beside := fun task isTask => by
    rw [Parser.setInfo, setInfo_parent parent]
    exact names.beside task isTask

theorem Names.globals (names : Names parser naming) (info : memory'.info = parser.memory.info)
    (allocated : memory'.allocated = parser.memory.allocated) :
    Names { parser with memory := memory' } naming where
  count := names.count.trans allocated.symm
  path := @Path.frame parser.memory memory' allocated.ge (fun id _ => by rw [info]) naming.path
    parser.top names.path
  process := names.process
  kinds := fun id => (names.kinds id).trans (by rw [info])
  below := fun task isTask => (names.below task isTask).trans_eq allocated.symm
  beside := fun task isTask => by
    rw [info]
    exact names.beside task isTask

theorem writeTask_names (names : Names parser naming)
    (written : writeTask parser change = .ok parser')
    (parent : ∀ info, (change info).parent = info.parent)
    (kind : ∀ info, (change info).threadType = info.threadType) : Names parser' naming := by
  unfold writeTask at written
  split at written
  · cases written
  · cases written
    exact names.setInfo parent kind

theorem Names.setKind (names : Names parser naming) (isTask : parser.newtask = some task)
    {kind : ThreadType} (parent : ∀ info, (change info).parent = info.parent)
    (isKind : ∀ info, (change info).threadType = some kind) :
    Names (parser.setInfo task change) (naming.after (.type kind)) where
  count := names.count
  path := names.path.setInfo parent
  process := names.process
  kinds := by
    intro id
    show (if naming.process = some id then some kind else naming.kinds id) = _
    rw [names.process, isTask]
    by_cases same : task = id
    · simp [same, Parser.setInfo, Memory.setInfo, isKind]
    · simp [same, Parser.setInfo, Memory.setInfo, names.kinds id, Function.update_of_ne (Ne.symm same)]
  below := names.below
  beside := fun other isOther => by
    rw [Parser.setInfo, setInfo_parent parent]
    exact names.beside other isOther

theorem Names.type (names : Names parser naming) {kind : ThreadType}
    (written : writeTask parser (fun info => { info with threadType := some kind }) = .ok parser') :
    Names parser' (naming.after (.type kind)) := by
  unfold writeTask at written
  split at written
  · cases written
  · rename_i task isTask
    cases written
    exact names.setKind isTask (fun _ => rfl) fun _ => rfl

theorem Names.newProcess (names : Names parser naming) (made : newProcess parser = .ok parser') :
    Names parser' (naming.after .newProcess) := by
  unfold Cpuinit.newProcess at made
  cases isTop : parser.top with
  | none => simp [isTop] at made
  | some top =>
      simp only [isTop] at made
      cases made
      have path := names.path
      have topBelow : top < parser.memory.allocated := by
        rw [isTop] at path
        cases isPath : naming.path with
        | nil =>
            rw [isPath] at path
            cases path
        | cons first above =>
            rw [isPath] at path
            cases path.1
            exact path.2.1
      refine Names.setInfo ?_ (fun _ => rfl) fun _ => rfl
      refine ⟨congrArg (· + 1) names.count, ?_, congrArg some names.count, fun id => ?_,
        fun task isTask => ?_, fun task isTask => ?_⟩
      · refine @Path.frame parser.memory _ (Nat.le_succ _) (fun id below => ?_) naming.path _ ?_
        · simp only [Function.update_of_ne below.ne]
        · show Path parser.memory (some top) naming.path
          rw [← isTop]
          exact path
      · show Function.update naming.kinds naming.count none id = _
        rw [names.count]
        by_cases isNew : id = parser.memory.allocated
        · simp [isNew]
        · simp [Function.update_of_ne isNew, names.kinds id]
      · cases isTask
        exact Nat.lt_succ_self _
      · cases isTask
        left
        simp only [Function.update_self]

theorem Names.spawn (names : Names parser naming) (opened : spawn parser = .ok parser') :
    Names parser' (naming.after .spawn) := by
  unfold Cpuinit.spawn at opened
  cases isTask : parser.newtask with
  | none => simp [isTask] at opened
  | some task =>
      simp only [isTask] at opened
      cases opened
      have below := names.below task isTask
      have written := @Names.setInfo parser naming task
        (fun info => { info with spawns := some true }) names (fun _ => rfl) fun _ => rfl
      refine ⟨written.count, ?_, written.process, written.kinds, written.below, fun other isOther => ?_⟩
      · show Path _ (some task) (if naming.path.head? = naming.process then naming.path
          else naming.process.toList ++ naming.path)
        rw [names.path.head, names.process, isTask]
        split_ifs with again
        · rw [← again]
          exact written.path
        · refine ⟨rfl, below, ?_⟩
          have parent := (names.beside task isTask).resolve_right again
          have kept := @setInfo_parent parser.memory task
            (fun info => { info with spawns := some true }) (fun _ => rfl) task
          exact (kept.trans parent).symm ▸ written.path
      · right
        have same : parser.newtask = some other := isOther
        rw [isTask] at same
        exact same

theorem Names.endSpawn (names : Names parser naming) (closed : endSpawn parser = .ok parser') :
    Names parser' (naming.after .endSpawn) := by
  unfold Cpuinit.endSpawn at closed
  cases isTop : parser.top with
  | none => simp [isTop] at closed
  | some old =>
      simp only [isTop] at closed
      cases closed
      have path := names.path
      cases isPath : naming.path with
      | nil =>
          rw [isPath, isTop] at path
          cases path
      | cons first above =>
          rw [isPath, isTop] at path
          rcases path with ⟨same, below, isAbove⟩
          cases same
          refine ⟨names.count, ?_, ?_, names.kinds, fun task isTask => ?_, fun task isTask => ?_⟩
          · show Path _ _ naming.path.tail
            rw [isPath]
            exact isAbove
          · show naming.path.head? = _
            rw [isPath]
            rfl
          · cases isTask
            exact below
          · cases isTask
            exact .inl rfl

theorem assign_names (names : Names parser naming) (field : Field) (value : Option Int)
    (assigned : assign field value parser = .ok parser') : Names parser' naming := by
  cases field with
  | cycleTime =>
      cases assigned
      exact names.globals rfl rfl
  | seed =>
      cases assigned
      exact names.globals rfl rfl
  | endtime =>
      cases assigned
      exact names.globals rfl rfl
  | spawnTime => exact writeTask_names names assigned (fun _ => rfl) fun _ => rfl
  | killTime => exact writeTask_names names assigned (fun _ => rfl) fun _ => rfl
  | nice => exact writeTask_names names assigned (fun _ => rfl) fun _ => rfl
  | workDuration => exact writeTask_names names assigned (fun _ => rfl) fun _ => rfl

theorem execute_names (names : Names parser naming) (executes : directive.execute parser = .ok parser') :
    Names parser' (naming.after directive) := by
  cases directive with
  | number field value => exact assign_names names field (some value) executes
  | name word => exact writeTask_names names executes (fun _ => rfl) fun _ => rfl
  | type kind => exact names.type executes
  | newProcess => exact names.newProcess executes
  | endProcess =>
      cases executes
      refine ⟨names.count, names.path, rfl, names.kinds, fun task isTask => ?_, fun task isTask => ?_⟩
      · cases isTask
      · cases isTask
  | spawn => exact names.spawn executes
  | endSpawn => exact names.endSpawn executes

/-! ## Runs of commands -/

theorem Command.names (names : Names parser naming) (executes : command.execute parser = .ok parser') :
    Names parser' (command.counted.elim naming naming.after) := by
  cases command with
  | directive known => exact execute_names names executes
  | missing field => exact assign_names names field none executes
  | otherType =>
      cases executes
      exact names

theorem writeTask_stands (stands : Stands parser place) (isOpen : place.process ≠ none)
    (keeps : ∀ info, (change info).parent = info.parent) :
    ∃ parser', writeTask parser change = .ok parser' ∧ Stands parser' place ∧
      parser'.children = parser.children := by
  rcases Option.ne_none_iff_exists'.mp fun isNull => isOpen (stands.newtask.mp isNull) with
    ⟨task, isTask⟩
  rw [writeTask, isTask]
  exact ⟨_, rfl, stands.setInfo keeps, rfl⟩

theorem missing_stands (stands : Stands parser place) {field : Field}
    (steady : ¬place.Astray (.number field 0)) :
    ∃ parser', assign field none parser = .ok parser' ∧ Stands parser' place ∧
      parser'.children = parser.children := by
  have isOpen : (Directive.number field 0).perProcess = true → place.process ≠ none :=
    fun perProcess isNone => steady (.inl ⟨.inl perProcess, isNone⟩)
  cases field with
  | cycleTime => exact ⟨_, rfl, stands.globals rfl rfl, rfl⟩
  | seed => exact ⟨_, rfl, stands.globals rfl rfl, rfl⟩
  | endtime => exact ⟨_, rfl, stands.globals rfl rfl, rfl⟩
  | spawnTime => exact writeTask_stands stands (isOpen rfl) fun _ => rfl
  | killTime => exact writeTask_stands stands (isOpen rfl) fun _ => rfl
  | nice => exact writeTask_stands stands (isOpen rfl) fun _ => rfl
  | workDuration => exact writeTask_stands stands (isOpen rfl) fun _ => rfl

theorem missing_astray (stands : Stands parser place) {field : Field}
    (astray : place.Astray (.number field 0)) : assign field none parser = .error .nullWrite := by
  have isNull : (Directive.number field 0).perProcess = true ∧ parser.newtask = none := by
    rcases astray with ⟨perProcess | isSpawn, isNone⟩ | ⟨isNew | isEnd, -⟩
    · exact ⟨perProcess, stands.newtask.mpr isNone⟩
    · cases isSpawn
    · cases isNew
    · cases isEnd
  rcases isNull with ⟨perProcess, isNull⟩
  cases field with
  | cycleTime => cases perProcess
  | seed => cases perProcess
  | endtime => cases perProcess
  | _ => simp only [assign, writeTask, isNull]

theorem Command.stands (stands : Stands parser place) (known : command.counted = some directive)
    (steady : ¬place.Astray directive) : ∃ parser', command.execute parser = .ok parser' ∧
      Stands parser' (place.after directive) ∧
      parser'.children = parser.children + directive.opened := by
  cases command with
  | directive =>
      cases known
      exact execute_stands stands steady
  | missing field =>
      cases known
      rcases missing_stands stands steady with ⟨parser', executes, stands', count⟩
      exact ⟨parser', executes, stands', count.trans (Int.add_zero _).symm⟩
  | otherType => cases known

theorem Command.astray (stands : Stands parser place) (known : command.counted = some directive)
    (astray : place.Astray directive) : command.execute parser = .error directive.null := by
  cases command with
  | directive =>
      cases known
      exact execute_astray stands astray
  | missing field =>
      cases known
      exact missing_astray stands astray
  | otherType => cases known

theorem counted_cons (command : Command) (commands : List Command) :
    counted (command :: commands) = command.counted.toList ++ counted commands := by
  rw [counted, List.filterMap_cons]
  cases command.counted <;> rfl

theorem executeCommands_steady (commands : List Command) : ∀ parser place naming,
    Stands parser place → Names parser naming → Steady place (counted commands) →
    ∃ parser', executeCommands commands parser = .ok parser' ∧
      Stands parser' ((counted commands).foldl Place.after place) ∧
      Names parser' ((counted commands).foldl Naming.after naming) ∧
      parser'.children = parser.children + opened (counted commands) := by
  induction commands with
  | nil =>
      intro parser place naming stands names steady
      exact ⟨parser, rfl, stands, names, (Int.add_zero _).symm⟩
  | cons command commands induction =>
      intro parser place naming stands names steady
      rw [counted_cons] at steady ⊢
      cases known : command.counted with
      | none =>
          have executes : command.execute parser = .ok parser := by
            cases command with
            | directive => cases known
            | missing field => cases known
            | otherType => rfl
          rw [known] at steady
          rw [executeCommands, executes]
          exact induction parser place naming stands names steady
      | some directive =>
          rw [known] at steady
          rcases Command.stands stands known steady.cons.1 with ⟨middle, executes, standsThere, count⟩
          have namesThere := Command.names names executes
          rw [known] at namesThere
          rcases induction middle _ _ standsThere namesThere steady.cons.2 with
            ⟨parser', executesRest, standsEnd, namesEnd, countRest⟩
          refine ⟨parser', ?_, standsEnd, namesEnd, ?_⟩
          · rw [executeCommands, executes]
            exact executesRest
          · rw [countRest, count, opened, opened, Option.toList_some, List.singleton_append,
              List.map_cons, List.sum_cons]
            omega

theorem executeCommands_astray (commands : List Command) : ∀ parser place, Stands parser place →
    ¬Steady place (counted commands) →
    ∃ directive : Directive, executeCommands commands parser = .error directive.null := by
  induction commands with
  | nil =>
      intro parser place stands astray
      exact absurd (fun before directive after split => by simp [counted] at split) astray
  | cons command commands induction =>
      intro parser place stands astray
      rw [counted_cons] at astray
      rw [executeCommands]
      cases known : command.counted with
      | none =>
          have executes : command.execute parser = .ok parser := by
            cases command with
            | directive => cases known
            | missing field => cases known
            | otherType => rfl
          rw [known] at astray
          rw [executes]
          exact induction parser place stands astray
      | some directive =>
          rw [known] at astray
          by_cases first : place.Astray directive
          · rw [Command.astray stands known first]
            exact ⟨directive, rfl⟩
          · rcases Command.stands stands known first with ⟨middle, executes, standsThere, -⟩
            rw [executes]
            exact induction middle _ standsThere fun steady => astray (.of_cons first steady)

end

end CE321.Cpuinit
