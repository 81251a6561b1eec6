import CE321.Cpuinit.Cleanup
import CE321.Vsched.Births

/-! # From a profile to the machine

The virtual machine starts with the structures that `readProfile` leaves below init. Whatever the
bytes of the profile, these are what the machine's `Profile` asks for.
-/

namespace CE321.Cpuinit

open CString
open Vsched (Process Profile Reachable Setup Task ThreadType Vm)

def taskOf : Nat → Task
  | 0 => .init
  | index + 1 => .process index

/-- The process of a structure. Where nothing set `spawns`, it is what `malloc` found there. -/
def Memory.process (memory : Memory) (malloced : Nat → Bool) (id : Nat) : Option Process := do
  let info := memory.info id
  let spawnTime ← info.spawnTime
  let killTime ← info.killTime
  let workDuration ← info.workDuration
  let threadType ← info.threadType
  let parent ← info.parent
  pure
    { spawnTime := spawnTime
      killTime := killTime
      workDuration := workDuration
      threadType := threadType
      spawns := info.spawns.getD (malloced id)
      parent := if parent = 0 then none else some (parent - 1) }

/-- The machine's profile is what is in memory, which also has the names that `forktask` reads. -/
structure Boots (memory : Memory) (malloced : Nat → Bool) (profile : Profile) : Prop where
  endtime : memory.endtime = some profile.endtime
  allocated : memory.allocated = profile.processes.length + 1
  process : ∀ {index : Nat}, index < profile.processes.length →
    memory.process malloced (index + 1) = some (profile.process index)
  named : ∀ {index : Nat}, index < profile.processes.length →
    (memory.info (index + 1)).processName ≠ none

/-- No process has the type of init. -/
def Typed (memory : Memory) : Prop :=
  ∀ id, 0 < id → id < memory.allocated → (memory.info id).threadType ≠ some .init

section

variable {memory : Memory} {malloced : Nat → Bool} {profile : Profile} {parser : Parser}
  {file : Reader} {contents : Bytes}

/-! ## Types -/

theorem lookup_ttype {temp : Bytes} {type : ThreadType} (found : lookup ttype temp = some type) :
    type ≠ .init := by
  rcases Option.map_eq_some_iff.mp found with ⟨entry, isEntry, rfl⟩
  have member := List.mem_of_find?_eq_some isEntry
  simp only [ttype, List.mem_cons, List.not_mem_nil, or_false] at member
  rcases member with rfl | rfl
  · exact ThreadType.noConfusion
  · exact ThreadType.noConfusion

theorem Typed.setInfo (typed : Typed memory) (task : Nat) {change : ThreadInfo → ThreadInfo}
    (kept : ∀ info, (change info).threadType = some .init → info.threadType = some .init) :
    Typed (memory.setInfo task change) := by
  intro id pos bound isInit
  apply typed id pos bound
  by_cases same : id = task
  · subst same
    apply kept
    simpa [Memory.setInfo] using isInit
  · simpa [Memory.setInfo, Function.update_of_ne same] using isInit

def TypedState : State → Prop := Holds (fun parser => Typed parser.memory) Typed

theorem Typed.writeTask (typed : Typed parser.memory) {change : ThreadInfo → ThreadInfo}
    (kept : ∀ info, (change info).threadType = some .init → info.threadType = some .init) :
    TypedState (goOn file (writeTask parser change)) := by
  unfold Cpuinit.writeTask
  cases parser.newtask with
  | none => trivial
  | some task => exact typed.setInfo task kept

theorem Typed.grow (typed : Typed memory) {info : ThreadInfo} (fresh : info.threadType = none) :
    Typed { memory with
      allocated := memory.allocated + 1
      info := Function.update memory.info memory.allocated info } := by
  intro id pos bound isInit
  by_cases isNew : id = memory.allocated
  · subst isNew
    simp [fresh] at isInit
  · simp only [Function.update_of_ne isNew] at isInit
    exact typed id pos (Nat.lt_of_le_of_ne (Nat.le_of_lt_succ bound) isNew) isInit

theorem Typed.newProcess (typed : Typed parser.memory) :
    TypedState (goOn file (newProcess parser)) := by
  unfold Cpuinit.newProcess
  cases parser.top with
  | none => trivial
  | some top => exact (typed.grow rfl).setInfo top fun _ isInit => isInit

theorem Typed.parseValue (typed : Typed parser.memory) (option : Copt) :
    TypedState (parseValue option file parser) := by
  cases option with
  | cycleTime => exact typed
  | newProcess => exact typed.newProcess
  | endProcess => exact typed
  | spawnTime => exact typed.writeTask fun _ isInit => isInit
  | name => exact typed.writeTask fun _ isInit => isInit
  | type =>
      simp only [Cpuinit.parseValue]
      rcases readstring file with ⟨temp, rest⟩
      cases temp with
      | none => trivial
      | some temp =>
          cases found : lookup ttype temp with
          | none =>
              simp only [found]
              exact typed
          | some type =>
              simp only [found]
              exact typed.writeTask fun _ isInit => absurd (Option.some.inj isInit) (lookup_ttype found)
  | seed => exact typed
  | endtime => exact typed
  | killTime => exact typed.writeTask fun _ isInit => isInit
  | nice => exact typed.writeTask fun _ isInit => isInit
  | spawn =>
      simp only [Cpuinit.parseValue, Cpuinit.spawn]
      cases parser.newtask with
      | none => trivial
      | some task => exact typed.setInfo task fun _ isInit => isInit
  | endSpawn =>
      simp only [Cpuinit.parseValue, Cpuinit.endSpawn]
      cases parser.top with
      | none => trivial
      | some old => exact typed
  | workDuration => exact typed.writeTask fun _ isInit => isInit

theorem Ends.typed {value : Bool} (ends : Ends contents (.returned value memory)) : Typed memory := by
  refine ends.holds (fun _ typed => typed) (fun _ _ _ typed => Typed.parseValue typed _) ?_
  intro id pos bound
  have bound : id < 1 := bound
  omega

/-! ## Processes -/

theorem Memory.process_eq {id : Nat} {process : Process}
    (isProcess : memory.process malloced id = some process) :
    (memory.info id).threadType = some process.threadType ∧
      ∃ above, (memory.info id).parent = some above ∧
        process.parent = if above = 0 then none else some (above - 1) := by
  simp only [Memory.process, Option.bind_eq_bind, Option.bind_eq_some_iff, Option.pure_def,
    Option.some.injEq] at isProcess
  rcases isProcess with ⟨spawnTime, -, killTime, -, workDuration, -, type, isType, above, isAbove, rfl⟩
  exact ⟨isType, above, isAbove, rfl⟩

def Tree.toProfile (tree : Tree memory) (typed : Typed memory) (endtime : Int) (process : Nat → Process)
    (isProcess : ∀ index, index + 1 < memory.allocated →
      memory.process malloced (index + 1) = some (process index)) : Profile where
  processes := (List.range (memory.allocated - 1)).map process
  endtime := endtime
  parentsFirst := by
    intro index parent found isFound isParent
    rcases List.getElem?_eq_some_iff.mp isFound with ⟨bound, rfl⟩
    rw [List.getElem_map, List.getElem_range] at isParent
    have bound : index + 1 < memory.allocated := by
      rw [List.length_map, List.length_range] at bound
      omega
    rcases Memory.process_eq (isProcess index bound) with ⟨-, above, isAbove, parent'⟩
    rcases tree.parent (Nat.succ_pos index) bound with ⟨above', early, isAbove'⟩
    obtain rfl : above = above' := Option.some.inj (isAbove.symm.trans isAbove')
    rw [isParent] at parent'
    split_ifs at parent' with isTop
    have same := Option.some.inj parent'
    omega
  typed := by
    intro found member
    rcases List.mem_map.mp member with ⟨index, isIndex, rfl⟩
    have bound : index + 1 < memory.allocated := by
      have bound := List.mem_range.mp isIndex
      omega
    intro isInit
    apply typed (index + 1) (Nat.succ_pos index) bound
    rw [(Memory.process_eq (isProcess index bound)).1, isInit]

theorem Tree.boots (tree : Tree memory) (typed : Typed memory) {endtime : Int}
    (isEnd : memory.endtime = some endtime) {process : Nat → Process}
    (isProcess : ∀ index, index + 1 < memory.allocated →
      memory.process malloced (index + 1) = some (process index))
    (named : ∀ index, index + 1 < memory.allocated →
      (memory.info (index + 1)).processName ≠ none) :
    Boots memory malloced (tree.toProfile typed endtime process isProcess) where
  endtime := isEnd
  allocated := by
    have pos := tree.root
    simp only [Tree.toProfile, List.length_map, List.length_range]
    omega
  process := by
    intro index bound
    simp only [Tree.toProfile, List.length_map, List.length_range] at bound
    rw [isProcess index (by omega)]
    simp [Tree.toProfile, Profile.process, bound]
  named := by
    intro index bound
    simp only [Tree.toProfile, List.length_map, List.length_range] at bound
    exact named index (by omega)

/-! ## Lists -/

theorem taskOf_injective : Function.Injective taskOf := by
  intro id id' same
  cases id <;> cases id' <;> simp_all [taskOf]

theorem Boots.parent (boots : Boots memory malloced profile) {index : Nat}
    (bound : index < profile.processes.length) :
    (memory.info (index + 1)).parent.map taskOf = profile.parent (.process index) := by
  rcases Memory.process_eq (boots.process bound) with ⟨-, above, isAbove, isParent⟩
  rw [isAbove, Profile.parent, isParent]
  cases above <;> rfl

theorem Boots.children (boots : Boots memory malloced profile) (tree : Tree memory) {id : Nat}
    (bound : id < memory.allocated) :
    (memory.info id).list.map taskOf = (profile.children (taskOf id)).map Task.process := by
  have parents : ∀ index ∈ List.range profile.processes.length,
      decide ((memory.info (index + 1)).parent = some id) =
        decide (profile.parent (.process index) = some (taskOf id)) := by
    intro index member
    rw [← boots.parent (List.mem_range.mp member), decide_eq_decide]
    cases (memory.info (index + 1)).parent with
    | none => simp
    | some above => simp [taskOf_injective.eq_iff]
  have orphan : decide ((memory.info 0).parent = some id) = false := by simp [tree.orphan]
  rw [tree.list bound, boots.allocated, List.range_succ_eq_map,
    List.filter_cons_of_neg (by simp [orphan]), List.filter_map, List.map_map, Profile.children]
  exact congrArg _ (List.filter_congr parents)

end

end CE321.Cpuinit
