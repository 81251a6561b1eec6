import CE321.Cpuinit.Layouts

/-! # Forests of processes

The processes of a profile as an ordered forest, the directives that print it, and what it
means that the structures in memory are it.
-/

namespace CE321.Cpuinit

open CString
open Vsched (ThreadType)

/-- What a profile says of a process. -/
structure Attributes where
  name : Bytes
  kind : ThreadType
  spawnTime : Int
  killTime : Option Int
  workDuration : Option Int
  niceValue : Option Int
  isName : name ≠ [] ∧ Solid name
  isKind : kind ≠ .init
  isSpawnTime : IsInt spawnTime
  isKillTime : ∀ value ∈ killTime, IsInt value
  isWorkDuration : ∀ value ∈ workDuration, IsInt value
  isNiceValue : ∀ value ∈ niceValue, -19 ≤ value ∧ value ≤ 20

/-- A first process with its children, and the processes behind it. -/
inductive Forest where
  | nil
  | cons (attributes : Attributes) (children rest : Forest)

def Forest.size : Forest → Nat
  | .nil => 0
  | .cons _ children rest => 1 + children.size + rest.size

/-! ## Printing -/

def Attributes.lines (attributes : Attributes) : List Directive :=
  [.name attributes.name, .type attributes.kind, .number .spawnTime attributes.spawnTime] ++
    (attributes.killTime.map (Directive.number .killTime)).toList ++
    (attributes.workDuration.map (Directive.number .workDuration)).toList ++
    (attributes.niceValue.map (Directive.number .nice)).toList

/-- The attributes of a process come in any order, before its children. -/
inductive Prints : Forest → List Directive → Prop
  | nil : Prints .nil []
  | leaf {attributes : Attributes} {rest : Forest} {lines following : List Directive}
      (ordered : lines.Perm attributes.lines) (prints : Prints rest following) :
      Prints (.cons attributes .nil rest)
        (.newProcess :: (lines ++ .endProcess :: following))
  | node {attributes : Attributes} {children rest : Forest} {lines inner following : List Directive}
      (ordered : lines.Perm attributes.lines) (isNode : children ≠ .nil)
      (printsInner : Prints children inner) (prints : Prints rest following) :
      Prints (.cons attributes children rest)
        (.newProcess :: (lines ++ .spawn :: (inner ++ .endSpawn :: .endProcess :: following)))

/-! ## Structures in memory -/

/-- The structure of a process: `-1` and `0` stand for absent values, and `spawns` is set where
there are children. -/
def Attributes.info (attributes : Attributes) (parent : Nat) (spawns : Option Bool)
    (list : List Nat) : ThreadInfo where
  spawnTime := some attributes.spawnTime
  killTime := some (attributes.killTime.getD (-1))
  niceValue := some (attributes.niceValue.getD 0)
  spawns := spawns
  workDuration := some (attributes.workDuration.getD (-1))
  threadType := some attributes.kind
  processName := some attributes.name
  parent := some parent
  list := list

/-- The structures with some numbers are the trees of a forest below a parent. Each tree takes
the numbers from its own on, so all structures of a forest are different. -/
def Represents (memory : Memory) (parent : Nat) : Nat → Forest → List Nat → Prop
  | _, .nil, ids => ids = []
  | first, .cons attributes children rest, ids => ∃ others list, ids = first :: others ∧
      memory.info first = attributes.info parent
        (match children with | .nil => none | .cons .. => some true) list ∧
      Represents memory first (first + 1) children list ∧
      Represents memory parent (first + 1 + children.size) rest others

section

variable {memory memory' : Memory} {parent first : Nat} {ids : List Nat} {forest : Forest}

theorem Represents.frame (agree : ∀ id, first ≤ id → id < first + forest.size →
      memory'.info id = memory.info id)
    (represents : Represents memory parent first forest ids) :
    Represents memory' parent first forest ids := by
  induction forest generalizing parent first ids with
  | nil => exact represents
  | cons attributes children rest inner outer =>
      rcases represents with ⟨others, list, isIds, isInfo, representsInner, representsRest⟩
      rw [Forest.size] at agree
      refine ⟨others, list, isIds, ?_, inner ?_ representsInner, outer ?_ representsRest⟩
      · rw [agree first (by omega) (by omega), isInfo]
      · exact fun id lower upper => agree id (by omega) (by omega)
      · exact fun id lower upper => agree id (by omega) (by omega)

end

end CE321.Cpuinit
