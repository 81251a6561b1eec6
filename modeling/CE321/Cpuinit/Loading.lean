import CE321.Cpuinit.Boot
import CE321.Cpuinit.Printing

/-! # From a printed forest to the machine

The machine that starts with a printed forest has the processes of the forest, in the order in which
they are printed.
-/

namespace CE321.Cpuinit

open CString
open Vsched (Process Profile Setup Task)

/-- The processes of a forest in the order in which they are read, the first one with the next
number. -/
def Forest.processes (malloced : Nat → Bool) : (parent : Option Nat) → (first : Nat) → Forest →
    List Process
  | _, _, .nil => []
  | parent, first, .cons attributes children rest =>
      { spawnTime := attributes.spawnTime
        killTime := attributes.killTime.getD (-1)
        workDuration := attributes.workDuration.getD (-1)
        threadType := attributes.kind
        spawns := match children with
          | .nil => malloced (first + 1)
          | .cons .. => true
        parent := parent } ::
      (children.processes malloced (some first) (first + 1) ++
        rest.processes malloced parent (first + 1 + children.size))

section

variable {memory : Memory} {malloced : Nat → Bool} {forest : Forest} {directives : List Directive}

theorem Forest.processes_length (malloced : Nat → Bool) (forest : Forest) :
    ∀ parent first, (forest.processes malloced parent first).length = forest.size := by
  induction forest with
  | nil => exact fun _ _ => rfl
  | cons attributes children rest inner outer =>
      intro parent first
      simp only [Forest.processes, Forest.size, List.length_cons, List.length_append, inner, outer]
      omega

theorem Forest.processes_typed (malloced : Nat → Bool) (forest : Forest) :
    ∀ parent first, ∀ process ∈ forest.processes malloced parent first,
      process.threadType ≠ .init := by
  induction forest with
  | nil => exact fun _ _ process member => absurd member List.not_mem_nil
  | cons attributes children rest inner outer =>
      intro parent first process member
      rcases List.mem_cons.mp member with rfl | member
      · exact attributes.isKind
      · rcases List.mem_append.mp member with member | member
        · exact inner _ _ process member
        · exact outer _ _ process member

theorem Forest.processes_parent (malloced : Nat → Bool) (forest : Forest) :
    ∀ {parent : Option Nat} {first : Nat}, (∀ above ∈ parent, above < first) →
      ∀ {index above : Nat} {process : Process},
        (forest.processes malloced parent first)[index]? = some process →
          process.parent = some above → above < first + index := by
  induction forest with
  | nil =>
      intro parent first _ index above process isProcess
      cases isProcess
  | cons attributes children rest inner outer =>
      intro parent first early index above process isProcess isParent
      cases index with
      | zero =>
          cases isProcess
          exact early above isParent
      | succ index =>
          simp only [Forest.processes, List.getElem?_cons_succ] at isProcess
          rcases Nat.lt_or_ge index children.size with inside | behind
          · rw [List.getElem?_append_left (by rwa [children.processes_length])] at isProcess
            have lower := inner (fun other isFirst => by
              rw [← Option.some.inj isFirst]
              exact Nat.lt_succ_self first) isProcess isParent
            omega
          · rw [List.getElem?_append_right (by rwa [children.processes_length]),
              children.processes_length] at isProcess
            have lower := outer (fun other isAbove => by
              have before := early other isAbove
              omega) isProcess isParent
            omega

def Forest.profile (malloced : Nat → Bool) (endtime : Int) (forest : Forest) : Profile where
  processes := forest.processes malloced none 0
  endtime := endtime
  parentsFirst := by
    intro index parent process isProcess isParent
    have noneAbove : ∀ above ∈ (none : Option Nat), above < 0 := fun above isAbove => by cases isAbove
    have lower := forest.processes_parent malloced noneAbove isProcess isParent
    omega
  typed := forest.processes_typed malloced none 0

theorem Represents.process {above : Nat} {parent : Option Nat}
    (isAbove : parent = if above = 0 then none else some (above - 1)) :
    ∀ {first : Nat} {ids : List Nat}, Represents memory above (first + 1) forest ids →
      ∀ index < forest.size, memory.process malloced (first + 1 + index) =
        (forest.processes malloced parent first)[index]? := by
  induction forest generalizing above parent with
  | nil => exact fun _ index bound => absurd bound (Nat.not_lt_zero _)
  | cons attributes children rest inner outer =>
      intro first ids represents index bound
      rcases represents with ⟨others, list, -, isInfo, representsInner, representsRest⟩
      cases index with
      | zero =>
          cases children with
          | nil => simp [Memory.process, isInfo, Attributes.info, Forest.processes, isAbove]
          | cons => simp [Memory.process, isInfo, Attributes.info, Forest.processes, isAbove]
      | succ index =>
          have shifted : first + 1 + (index + 1) = (first + 1) + 1 + index := by omega
          simp only [Forest.processes, List.getElem?_cons_succ]
          rw [Forest.size] at bound
          rcases Nat.lt_or_ge index children.size with inside | behind
          · rw [List.getElem?_append_left (by rwa [children.processes_length]), shifted]
            exact inner (by simp) representsInner index inside
          · rw [List.getElem?_append_right (by rwa [children.processes_length]),
              children.processes_length]
            have place : first + 1 + (index + 1) =
                (first + 1 + children.size) + 1 + (index - children.size) := by omega
            rw [place]
            have same : first + 1 + 1 + children.size = first + 1 + children.size + 1 := by omega
            rw [same] at representsRest
            exact outer isAbove representsRest (index - children.size) (by omega)

theorem Represents.named {above first : Nat} {ids : List Nat}
    (represents : Represents memory above first forest ids) :
    ∀ index < forest.size, (memory.info (first + index)).processName ≠ none := by
  induction forest generalizing above first ids with
  | nil => exact fun index bound => absurd bound (Nat.not_lt_zero _)
  | cons attributes children rest inner outer =>
      intro index bound
      rcases represents with ⟨others, list, -, isInfo, representsInner, representsRest⟩
      rw [Forest.size] at bound
      cases index with
      | zero => simp [isInfo, Attributes.info]
      | succ index =>
          rcases Nat.lt_or_ge index children.size with inside | behind
          · rw [show first + (index + 1) = first + 1 + index by omega]
            exact inner representsInner index inside
          · rw [show first + (index + 1) = first + 1 + children.size + (index - children.size) by
              omega]
            exact outer representsRest (index - children.size) (by omega)

/-! ## The end time -/

theorem execute_endtime {directive : Directive} (other : directive.option ≠ .endtime)
    {parser parser' : Parser} (executes : directive.execute parser = .ok parser') :
    parser'.memory.endtime = parser.memory.endtime := by
  have writes : ∀ {change : ThreadInfo → ThreadInfo}, writeTask parser change = .ok parser' →
      parser'.memory.endtime = parser.memory.endtime := by
    intro change written
    unfold writeTask at written
    cases isTask : parser.newtask with
    | none => simp [isTask] at written
    | some task =>
        rw [isTask] at written
        cases written
        rfl
  cases directive with
  | number field value =>
      cases field with
      | cycleTime =>
          cases executes
          rfl
      | seed =>
          cases executes
          rfl
      | endtime => exact absurd rfl other
      | spawnTime => exact writes executes
      | killTime => exact writes executes
      | nice => exact writes executes
      | workDuration => exact writes executes
  | name word => exact writes executes
  | type kind => exact writes executes
  | newProcess =>
      simp only [Directive.execute, newProcess] at executes
      cases isTop : parser.top with
      | none => simp [isTop] at executes
      | some top =>
          rw [isTop] at executes
          cases executes
          rfl
  | endProcess =>
      cases executes
      rfl
  | spawn =>
      simp only [Directive.execute, spawn] at executes
      cases isTask : parser.newtask with
      | none => simp [isTask] at executes
      | some task =>
          rw [isTask] at executes
          cases executes
          rfl
  | endSpawn =>
      simp only [Directive.execute, endSpawn] at executes
      cases isTop : parser.top with
      | none => simp [isTop] at executes
      | some top =>
          rw [isTop] at executes
          cases executes
          rfl

theorem executeAll_endtime {run : List Directive}
    (others : ∀ directive ∈ run, directive.option ≠ .endtime) : ∀ {parser parser' : Parser},
    executeAll run parser = .ok parser' → parser'.memory.endtime = parser.memory.endtime := by
  induction run with
  | nil =>
      intro parser parser' executes
      cases executes
      rfl
  | cons directive run induction =>
      intro parser parser' executes
      rcases List.forall_mem_cons.mp others with ⟨other, others⟩
      rw [executeAll] at executes
      cases executesFirst : directive.execute parser with
      | error outcome =>
          rw [executesFirst] at executes
          cases executes
      | ok between =>
          rw [executesFirst] at executes
          exact (induction others executes).trans (execute_endtime other executesFirst)

theorem lines_endtime (attributes : Attributes) :
    ∀ directive ∈ attributes.lines, directive.option ≠ .endtime := by
  intro directive member
  have perProcess := perProcess_lines attributes directive member
  cases directive with
  | number field value => cases field <;> first | exact Copt.noConfusion | cases perProcess
  | _ => exact Copt.noConfusion

theorem Prints.endtime (prints : Prints forest directives) :
    ∀ directive ∈ directives, directive.option ≠ .endtime := by
  induction prints with
  | nil => exact fun directive member => absurd member List.not_mem_nil
  | @leaf attributes rest lines following ordered prints induction =>
      intro directive member
      simp only [List.mem_cons, List.mem_append] at member
      rcases member with rfl | member | rfl | member
      · exact Copt.noConfusion
      · exact lines_endtime attributes directive (ordered.subset member)
      · exact Copt.noConfusion
      · exact induction directive member
  | @node attributes children rest lines inner following ordered isNode printsInner prints
      inductionInner induction =>
      intro directive member
      simp only [List.mem_cons, List.mem_append] at member
      rcases member with rfl | member | rfl | member | rfl | rfl | member
      · exact Copt.noConfusion
      · exact lines_endtime attributes directive (ordered.subset member)
      · exact Copt.noConfusion
      · exact inductionInner directive member
      · exact Copt.noConfusion
      · exact Copt.noConfusion
      · exact induction directive member

/-! ## Machines -/

theorem Grown.boots {parser : Parser} (grown : Grown initialParser parser 0 forest)
    (isEnd : parser.memory.endtime = some 1) :
    Boots parser.memory malloced (forest.profile malloced 1) where
  endtime := isEnd
  allocated := by
    have count : parser.memory.allocated = 1 + forest.size := grown.allocated_eq
    rw [count, Forest.profile, forest.processes_length, Nat.add_comm]
  process := by
    intro index bound
    simp only [Forest.profile, forest.processes_length] at bound
    have isProcess : parser.memory.process malloced (0 + 1 + index) =
        (forest.processes malloced none 0)[index]? :=
      grown.represents.process rfl index bound
    rw [Nat.zero_add, Nat.add_comm] at isProcess
    have inside : index < (forest.profile malloced 1).processes.length := by
      rwa [Forest.profile, forest.processes_length]
    rw [isProcess, Profile.process, List.getD_eq_getElem _ _ inside]
    exact List.getElem?_eq_getElem inside
  named := by
    intro index bound
    simp only [Forest.profile, forest.processes_length] at bound
    rw [Nat.add_comm]
    exact grown.represents.named index bound

/-- The machine starts with the processes of a printed forest, numbered in the order of print. -/
theorem machine_of_print {lead text : Bytes} (prints : Prints forest directives)
    (layout : Layout lead) (written : Written Gap directives text) (malloced : Nat → Bool) :
    ∃ memory, Ends (lead ++ text) (.returned true memory) ∧
      Boots memory malloced (forest.profile malloced 1) := by
  rcases written.ends layout fun _ gapped => gapped with ⟨run, isRun, -, leads⟩
  rcases prints.executed_grown isRun with ⟨parser, built, executes, executesAll, grown, closed, same⟩
  have isEnd : built.memory.endtime = some 1 := executeAll_endtime prints.endtime executesAll
  refine ⟨parser.memory, ?_, same ▸ grown.boots isEnd⟩
  rw [executes, conclude, Parser.finishes, closed] at leads
  exact leads

/-- The machine of the two processes of `nested`. -/
theorem machine_of_print_nested :
    ∃ memory, Ends (59 :: ascii " two" ++ 10 :: [] ++
        printAll (10 :: 32 :: (59 :: ascii " next" ++ 10 :: [10])) nested.print)
        (.returned true memory) ∧
      Boots memory (fun _ => false) (nested.profile (fun _ => false) 1) :=
  machine_of_print (prints_print nested) (.comment (by decide) .nil)
    (printAll_written (.intro rfl (.space rfl (.comment (by decide) (.space rfl .nil))))
      (prints_print nested).writable) fun _ => false

end

end CE321.Cpuinit
