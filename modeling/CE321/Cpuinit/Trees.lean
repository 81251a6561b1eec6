import CE321.Cpuinit.ReadProfile

/-! # The tree in memory

Whatever the bytes of a profile, the structures that `readProfile` makes of it are a tree below
init: each of them is on the list of its parent, in the order of allocation.
-/

namespace CE321.Cpuinit

open CString

/-- Every structure but init's has a parent that was allocated before it, and the lists have
the structures by their parents. -/
structure Tree (memory : Memory) : Prop where
  root : 0 < memory.allocated
  orphan : (memory.info 0).parent = none
  parent : ∀ {id : Nat}, 0 < id → id < memory.allocated →
    ∃ above < id, (memory.info id).parent = some above
  list : ∀ {top : Nat}, top < memory.allocated → (memory.info top).list =
    (List.range memory.allocated).filter fun id => (memory.info id).parent = some top

/-- The parser has a tree, and its pointers are null or into it. -/
structure Sound (parser : Parser) : Prop where
  tree : Tree parser.memory
  top : ∀ task ∈ parser.top, task < parser.memory.allocated
  newtask : ∀ task ∈ parser.newtask, task < parser.memory.allocated

/-- What holds of the parser at every place of `readProfile`, and of the memory that it leaves. -/
def Holds (sound : Parser → Prop) (tree : Memory → Prop) : State → Prop
  | .running _ _ parser => sound parser
  | .ended (.returned _ memory) => tree memory
  | .ended _ => True

def SoundState : State → Prop := Holds Sound Tree

/-! ## Invariants

What the cases of the `switch` keep, all of `readProfile` keeps: the other steps leave the parser as
it is.
-/

section

variable {sound : Parser → Prop} {tree : Memory → Prop}

theorem Holds.step (leaves : ∀ parser, sound parser → tree parser.memory)
    (values : ∀ option file parser, sound parser → Holds sound tree (parseValue option file parser))
    {state : State} (holds : Holds sound tree state) : Holds sound tree (Cpuinit.step state) := by
  have options : ∀ {copt : Bytes} {file : Reader} {parser : Parser}, sound parser →
      Holds sound tree (parseOption copt file parser) := by
    intro copt file parser isSound
    unfold parseOption
    cases lookup coptions copt with
    | none => exact leaves parser isSound
    | some option => exact isSound
  cases state with
  | ended outcome => exact holds
  | running label file parser =>
      have isSound : sound parser := holds
      cases label with
      | loop =>
          simp only [Cpuinit.step]
          split_ifs
          · exact leaves parser isSound
          · exact isSound
      | whitespace =>
          simp only [Cpuinit.step]
          rcases file.fread with ⟨byte, file⟩
          cases byte with
          | none => exact isSound
          | some c =>
              simp only
              split_ifs
              · exact isSound
              · exact isSound
              · exact leaves parser isSound
              · exact isSound
      | comment c =>
          simp only [Cpuinit.step]
          split_ifs
          · exact isSound
          · rcases file.fread with ⟨byte, file⟩
            cases byte <;> exact isSound
      | option copt =>
          simp only [Cpuinit.step]
          split_ifs
          · exact options isSound
          · exact leaves parser isSound
          · rcases file.fread with ⟨byte, file⟩
            cases byte with
            | none => exact isSound
            | some c =>
                simp only
                split_ifs
                · exact options isSound
                · exact isSound
      | value option =>
          simp only [Cpuinit.step]
          rcases file.fread with ⟨byte, file⟩
          cases byte with
          | none => exact isSound
          | some c =>
              simp only
              split_ifs
              · exact isSound
              · exact values option _ parser isSound

theorem Ends.holds (leaves : ∀ parser, sound parser → tree parser.memory)
    (values : ∀ option file parser, sound parser → Holds sound tree (parseValue option file parser))
    (initial : sound initialParser) {contents : Bytes} {value : Bool} {memory : Memory}
    (ends : Ends contents (.returned value memory)) : tree memory := by
  rcases ends with ⟨count, ran⟩
  have first : Holds sound tree (start contents) := initial
  have invariant : Holds sound tree (Cpuinit.step^[count] (start contents)) :=
    Function.Iterate.rec (Holds sound tree) first (fun _ => Holds.step leaves values) count
  rw [ran] at invariant
  exact invariant

end

/-! ## Trees -/

section

variable {memory memory' : Memory} {parser : Parser} {file : Reader}

theorem Tree.frame (tree : Tree memory) (allocated : memory'.allocated = memory.allocated)
    (parent : ∀ id, (memory'.info id).parent = (memory.info id).parent)
    (list : ∀ id, (memory'.info id).list = (memory.info id).list) : Tree memory' where
  root := allocated ▸ tree.root
  orphan := (parent 0).trans tree.orphan
  parent := by
    intro id pos bound
    rw [parent]
    exact tree.parent pos (allocated ▸ bound)
  list := by
    intro top bound
    rw [list, allocated, tree.list (allocated ▸ bound)]
    simp only [parent]

theorem Tree.setInfo (tree : Tree memory) (task : Nat) {change : ThreadInfo → ThreadInfo}
    (parent : ∀ info, (change info).parent = info.parent)
    (list : ∀ info, (change info).list = info.list) : Tree (memory.setInfo task change) := by
  refine @Tree.frame memory (memory.setInfo task change) tree rfl ?_ ?_
  · intro id
    by_cases same : id = task
    · subst same
      simp [Memory.setInfo, parent]
    · simp [Memory.setInfo, Function.update_of_ne same]
  · intro id
    by_cases same : id = task
    · subst same
      simp [Memory.setInfo, list]
    · simp [Memory.setInfo, Function.update_of_ne same]

theorem Sound.writeTask (sound : Sound parser) {change : ThreadInfo → ThreadInfo}
    (parent : ∀ info, (change info).parent = info.parent)
    (list : ∀ info, (change info).list = info.list) :
    SoundState (goOn file (writeTask parser change)) := by
  unfold Cpuinit.writeTask
  cases parser.newtask with
  | none => trivial
  | some task => exact ⟨sound.tree.setInfo task parent list, sound.top, sound.newtask⟩

theorem Tree.grow (tree : Tree memory) {top : Nat} (below : top < memory.allocated)
    (allocated : memory'.allocated = memory.allocated + 1)
    (parent : ∀ id, (memory'.info id).parent =
      if id = memory.allocated then some top else (memory.info id).parent)
    (list : ∀ id, (memory'.info id).list =
      if id = memory.allocated then []
      else (memory.info id).list ++ if id = top then [memory.allocated] else []) : Tree memory' where
  root := allocated ▸ Nat.succ_pos _
  orphan := by
    rw [parent, if_neg (Nat.ne_of_lt tree.root)]
    exact tree.orphan
  parent := by
    intro id pos bound
    rw [parent]
    split_ifs with isNew
    · exact ⟨top, isNew ▸ below, rfl⟩
    · exact tree.parent pos (by omega)
  list := by
    intro above bound
    have listed : ((List.range (memory.allocated + 1)).filter fun id =>
        (memory'.info id).parent = some above) = ((List.range memory.allocated).filter fun id =>
          (memory.info id).parent = some above) ++ if above = top then [memory.allocated] else [] := by
      rw [List.range_succ, List.filter_append]
      congr 1
      · apply List.filter_congr
        intro id member
        rw [parent, if_neg (Nat.ne_of_lt (List.mem_range.mp member))]
      · by_cases same : above = top
        · simp [parent, same]
        · simp [parent, same, Ne.symm same]
    rw [list, allocated, listed]
    split_ifs with isNew
    · omega
    · have noneAbove : ((List.range memory.allocated).filter fun id =>
          (memory.info id).parent = some above) = [] := by
        apply List.filter_eq_nil_iff.mpr
        intro id member
        have early := List.mem_range.mp member
        rcases Nat.eq_zero_or_pos id with rfl | pos
        · simp [tree.orphan]
        · rcases tree.parent pos early with ⟨between, before, isParent⟩
          have different : between ≠ above := by omega
          simpa [isParent] using different
      rw [noneAbove]
      rfl
    · rw [tree.list (by omega)]
    · rw [tree.list (by omega)]

theorem Sound.newProcess (sound : Sound parser) : SoundState (goOn file (newProcess parser)) := by
  unfold Cpuinit.newProcess
  cases isTop : parser.top with
  | none => trivial
  | some top =>
      have below : top < parser.memory.allocated := sound.top top isTop
      refine ⟨sound.tree.grow below rfl ?_ ?_, ?_, ?_⟩
      · intro id
        by_cases isNew : id = parser.memory.allocated
        · subst isNew
          simp [Parser.setInfo, Memory.setInfo, Function.update_of_ne (Nat.ne_of_gt below)]
        · by_cases same : id = top
          · subst same
            simp [Parser.setInfo, Memory.setInfo, isNew]
          · simp [Parser.setInfo, Memory.setInfo, isNew, same]
      · intro id
        by_cases isNew : id = parser.memory.allocated
        · subst isNew
          simp [Parser.setInfo, Memory.setInfo, Function.update_of_ne (Nat.ne_of_gt below)]
        · by_cases same : id = top
          · subst same
            simp [Parser.setInfo, Memory.setInfo, isNew]
          · simp [Parser.setInfo, Memory.setInfo, isNew, same]
      · intro task isTask
        rw [← Option.some.inj isTask]
        exact Nat.lt_succ_of_lt below
      · intro task isTask
        rw [← Option.some.inj isTask]
        exact Nat.lt_succ_self parser.memory.allocated

theorem Sound.spawn (sound : Sound parser) : SoundState (goOn file (spawn parser)) := by
  unfold Cpuinit.spawn
  cases isTask : parser.newtask with
  | none => trivial
  | some task =>
      have tree : Tree (parser.memory.setInfo task fun info => { info with spawns := some true }) :=
        sound.tree.setInfo task (fun _ => rfl) fun _ => rfl
      refine ⟨tree, ?_, ?_⟩
      · intro other isOther
        rw [← Option.some.inj isOther]
        exact sound.newtask task isTask
      · exact fun other isOther => sound.newtask other (isTask ▸ isOther)

theorem Sound.endSpawn (sound : Sound parser) : SoundState (goOn file (endSpawn parser)) := by
  unfold Cpuinit.endSpawn
  cases isTop : parser.top with
  | none => trivial
  | some old =>
      have below := sound.top old isTop
      refine ⟨sound.tree, ?_, ?_⟩
      · intro above isAbove
        rcases Nat.eq_zero_or_pos old with rfl | pos
        · have none : (parser.memory.info 0).parent = some above := isAbove
          rw [sound.tree.orphan] at none
          cases none
        · rcases sound.tree.parent pos below with ⟨parent, early, isParent⟩
          have same : some parent = some above := isParent.symm.trans isAbove
          rw [← Option.some.inj same]
          exact early.trans below
      · intro task isTask
        rw [← Option.some.inj isTask]
        exact below

theorem Sound.parseValue (sound : Sound parser) (option : Copt) :
    SoundState (parseValue option file parser) := by
  have globals : ∀ memory : Memory, memory.allocated = parser.memory.allocated →
      memory.info = parser.memory.info → Sound { parser with memory := memory } := by
    intro memory allocated info
    refine ⟨sound.tree.frame allocated (fun id => by rw [info]) (fun id => by rw [info]), ?_, ?_⟩
    · exact fun task isTask => allocated ▸ sound.top task isTask
    · exact fun task isTask => allocated ▸ sound.newtask task isTask
  cases option with
  | cycleTime => exact globals _ rfl rfl
  | newProcess => exact sound.newProcess
  | endProcess => exact ⟨sound.tree, sound.top, nofun⟩
  | spawnTime => exact sound.writeTask (fun _ => rfl) fun _ => rfl
  | name => exact sound.writeTask (fun _ => rfl) fun _ => rfl
  | type =>
      simp only [Cpuinit.parseValue]
      rcases readstring file with ⟨temp, rest⟩
      cases temp with
      | none => trivial
      | some temp =>
          cases found : lookup ttype temp with
          | none =>
              simp only [found]
              exact sound
          | some type =>
              simp only [found]
              exact sound.writeTask (fun _ => rfl) fun _ => rfl
  | seed => exact globals _ rfl rfl
  | endtime => exact globals _ rfl rfl
  | killTime => exact sound.writeTask (fun _ => rfl) fun _ => rfl
  | nice => exact sound.writeTask (fun _ => rfl) fun _ => rfl
  | spawn => exact sound.spawn
  | endSpawn => exact sound.endSpawn
  | workDuration => exact sound.writeTask (fun _ => rfl) fun _ => rfl

theorem sound_initial : Sound initialParser := by
  refine ⟨⟨Nat.one_pos, rfl, ?_, ?_⟩, ?_, nofun⟩
  · intro id pos bound
    have bound : id < 1 := bound
    omega
  · intro top bound
    have bound : top < 1 := bound
    obtain rfl : top = 0 := by omega
    rfl
  · intro task isTop
    rw [← Option.some.inj isTop]
    exact Nat.one_pos

theorem Ends.tree {contents : Bytes} {value : Bool}
    (ends : Ends contents (.returned value memory)) : Tree memory :=
  ends.holds (fun _ sound => sound.tree) (fun _ _ _ sound => sound.parseValue _) sound_initial

end

end CE321.Cpuinit
