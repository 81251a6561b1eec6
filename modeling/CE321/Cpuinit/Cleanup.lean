import CE321.Cpuinit.Trees
import CE321.Foundation.Postorder

/-! # After a bad profile, `badshutdowncpu`

The structures are freed by a walk over the lists, which takes each of them off its list, frees
what is below it and then the structure with its name. Memory that was never written is no
pointer, and a structure that was freed is not used again: a cleanup that gets to either has no
result.
-/

namespace CE321.Cpuinit

open CString

/-- The memory, and the structures that were freed in this order. -/
structure Heap where
  memory : Memory
  freed : List Nat

def Heap.release (heap : Heap) (task : Nat) : Option Heap :=
  if task ∈ heap.freed then none
  else if (heap.memory.info task).processName = none then none
  else some { heap with freed := heap.freed ++ [task] }

/-- The loop goes on behind the entry that `list_del` takes off. -/
def cleanuptask : (fuel : Nat) → (p : Nat) → Heap → Option Heap
  | 0, _, _ => none
  | fuel + 1, p, heap =>
      if p ∈ heap.freed then none
      else
        match (heap.memory.info p).list with
        | [] => some heap
        | temp :: rest => do
            let memory := heap.memory.setInfo p fun info => { info with list := rest }
            let heap ← cleanuptask fuel temp { heap with memory := memory }
            let heap ← heap.release temp
            cleanuptask fuel p heap

/-- Init is the last. -/
def badshutdowncpu (fuel : Nat) (memory : Memory) : Option Heap := do
  let heap ← cleanuptask fuel 0 ⟨memory, []⟩
  heap.release 0

/-- A value has a byte at least, so that no null pointer is stored for a name: a structure without
one is a structure whose name was never written. -/
theorem readstring_ne_none {file rest : Reader} {c : UInt8} (reads : file.fread = (some c, rest))
    (solid : isSpace c = false) : (readstring (rest.seekBack 1)).1 ≠ none := by
  rcases file with ⟨behind, ahead, eof⟩
  cases ahead with
  | nil => cases reads
  | cons byte more =>
      cases reads
      simp [readstring, Reader.readPast, Reader.readWhile, Reader.seekBack, solid]

/-! ## The tree of a parser -/

/-- The structures whose parent another one is. -/
def Memory.children (memory : Memory) (top : Nat) : List Nat :=
  (List.range memory.allocated).filter fun id => (memory.info id).parent = some top

def Memory.named (memory : Memory) (id : Nat) : Bool := (memory.info id).processName.isSome

section

variable {memory : Memory}

theorem Memory.mem_children {id top : Nat} :
    id ∈ memory.children top ↔ id < memory.allocated ∧ (memory.info id).parent = some top := by
  simp [Memory.children]

theorem Tree.list_eq (tree : Tree memory) {top : Nat} (bound : top < memory.allocated) :
    (memory.info top).list = memory.children top := tree.list bound

theorem Tree.grows (tree : Tree memory) {id top : Nat} (isChild : id ∈ memory.children top) :
    top < id := by
  rcases Memory.mem_children.mp isChild with ⟨bound, isParent⟩
  rcases Nat.eq_zero_or_pos id with rfl | pos
  · rw [tree.orphan] at isParent
    cases isParent
  · rcases tree.parent pos bound with ⟨above, early, isParent'⟩
    rw [isParent] at isParent'
    exact Option.some.inj isParent' ▸ early

theorem Tree.below_lt (tree : Tree memory) {top id : Nat} (deep : Below memory.children top id) :
    top < id :=
  @Below.rank_lt Nat memory.children top (fun id => id) tree.grows id deep

theorem Tree.within_le (tree : Tree memory) {top id : Nat}
    (inside : Within memory.children top id) : top ≤ id :=
  @Within.rank_le Nat memory.children top (fun id => id) tree.grows id inside

theorem Tree.isTree (tree : Tree memory) : IsTree memory.children 0 where
  unique := by
    intro id top top' isChild isChild'
    have same := (Memory.mem_children.mp isChild).2.symm.trans (Memory.mem_children.mp isChild').2
    exact Option.some.inj same
  nodup := fun top => List.nodup_range.filter _
  top := fun top isChild => Nat.not_lt_zero _ (tree.grows isChild)

theorem Tree.below (tree : Tree memory) {id : Nat} (pos : 0 < id) (bound : id < memory.allocated) :
    Below memory.children 0 id := by
  induction id using Nat.strongRecOn with
  | ind id induction =>
      rcases tree.parent pos bound with ⟨top, early, isParent⟩
      have isChild : id ∈ memory.children top := Memory.mem_children.mpr ⟨bound, isParent⟩
      rcases Nat.eq_zero_or_pos top with rfl | posTop
      · exact .child isChild
      · exact .deeper (induction top early posTop (early.trans bound)) isChild

theorem below_bound {first id : Nat} (below : Below memory.children first id) :
    id < memory.allocated := by
  rcases below.parent with ⟨top, isChild, -⟩
  exact (Memory.mem_children.mp isChild).1

/-! ## One walk -/

/-- In front of a walk below `p` with some of the children left: what the walk comes to is as
it was. -/
structure Fresh (memory : Memory) (p : Nat) (rest : List Nat) (heap : Heap) : Prop where
  left : (heap.memory.info p).list = rest
  isSuffix : rest <:+ memory.children p
  live : p ∉ heap.freed
  names : ∀ id, (heap.memory.info id).processName = (memory.info id).processName
  below : ∀ first ∈ rest, ∀ {id : Nat}, Within memory.children first id →
    (heap.memory.info id).list = memory.children id ∧ id ∉ heap.freed

/-- Behind a walk that freed some structures. -/
structure Walked (p : Nat) (order : List Nat) (heap heap' : Heap) : Prop where
  freed : heap'.freed = heap.freed ++ order
  names : ∀ id, (heap'.memory.info id).processName = (heap.memory.info id).processName
  list : ∀ id, id ≠ p → id ∉ order → (heap'.memory.info id).list = (heap.memory.info id).list

theorem Fresh.down (tree : Tree memory) {p temp : Nat} {rest : List Nat} {heap : Heap}
    (fresh : Fresh memory p (temp :: rest) heap) :
    Fresh memory temp (memory.children temp) { heap with
      memory := heap.memory.setInfo p fun info => { info with list := rest } } := by
  have isChild : temp ∈ memory.children p := fresh.isSuffix.subset List.mem_cons_self
  have other : ∀ {id : Nat}, Within memory.children temp id → id ≠ p := fun inside =>
    Nat.ne_of_gt ((tree.grows isChild).trans_le (tree.within_le inside))
  have same : ∀ {id : Nat}, id ≠ p → ((heap.memory.setInfo p fun info =>
      { info with list := rest }).info id) = heap.memory.info id :=
    fun different => Function.update_of_ne different _ _
  have inside : ∀ {id : Nat}, Within memory.children temp id →
      ((heap.memory.setInfo p fun info => { info with list := rest }).info id).list =
        memory.children id ∧ id ∉ heap.freed := by
    intro id inside
    rw [same (other inside)]
    exact fresh.below temp List.mem_cons_self inside
  refine ⟨(inside (.inl rfl)).1, List.suffix_rfl, (inside (.inl rfl)).2, ?_, ?_⟩
  · intro id
    by_cases isTop : id = p
    · subst isTop
      simpa [Memory.setInfo] using fresh.names id
    · rw [same isTop]
      exact fresh.names id
  · intro first isFirst id deep
    apply inside
    rcases deep with rfl | deep
    · exact .inr (.child isFirst)
    · exact .inr (deep.under isFirst)

theorem Fresh.next (tree : Tree memory) {p temp : Nat} {rest below : List Nat} {heap heap' : Heap}
    (fresh : Fresh memory p (temp :: rest) heap)
    (inside : ∀ id ∈ below, Below memory.children temp id)
    (walked : Walked temp below { heap with
      memory := heap.memory.setInfo p fun info => { info with list := rest } } heap') :
    Fresh memory p rest { heap' with freed := heap'.freed ++ [temp] } := by
  have isChild : temp ∈ memory.children p := fresh.isSuffix.subset List.mem_cons_self
  have suffix : rest <:+ memory.children p := (List.suffix_cons temp rest).trans fresh.isSuffix
  have unrelated : ∀ {id : Nat}, ¬ Within memory.children temp id →
      id ∉ heap.freed → id ∉ heap'.freed ++ [temp] := by
    intro id outside live
    rw [walked.freed]
    simp only [List.mem_append, List.mem_singleton, not_or]
    exact ⟨⟨live, fun member => outside (.inr (inside id member))⟩, fun same => outside (.inl same)⟩
  have topOutside : ¬ Within memory.children temp p := fun within =>
    Nat.not_lt.mpr (tree.within_le within) (tree.grows isChild)
  refine ⟨?_, suffix, unrelated topOutside fresh.live, ?_, ?_⟩
  · have kept := walked.list p (fun same => topOutside (.inl same)) fun member =>
      topOutside (.inr (inside p member))
    simpa [Memory.setInfo] using kept
  · intro id
    have names := (fresh.down tree).names id
    exact (walked.names id).trans names
  · intro first isFirst id deep
    have different : temp ≠ first := by
      rintro rfl
      have once := (tree.isTree.nodup p).sublist fresh.isSuffix.sublist
      exact (List.nodup_cons.mp once).1 isFirst
    have outside : ¬ Within memory.children temp id := fun within =>
      @IsTree.apart Nat memory.children 0 (fun id => id) tree.grows tree.isTree p temp first id isChild
        (suffix.subset isFirst) different within deep
    have before := fresh.below first (List.mem_cons_of_mem _ isFirst) deep
    have notTop : id ≠ p := by
      have above := tree.grows (suffix.subset isFirst)
      exact Nat.ne_of_gt (above.trans_le (tree.within_le deep))
    refine ⟨?_, unrelated outside before.2⟩
    have kept := walked.list id (fun same => outside (.inl same)) fun member =>
      outside (.inr (inside id member))
    refine kept.trans (Eq.trans ?_ before.1)
    exact congrArg ThreadInfo.list (Function.update_of_ne notTop _ _)

theorem Fresh.cleanup_nil {p : Nat} {heap : Heap} (fresh : Fresh memory p [] heap) (fuel : Nat) :
    cleanuptask (fuel + 1) p heap = some heap := by
  simp [cleanuptask, fresh.live, fresh.left]

theorem Fresh.cleanup_cons {p temp : Nat} {rest : List Nat} {heap : Heap}
    (fresh : Fresh memory p (temp :: rest) heap) (fuel : Nat) :
    cleanuptask (fuel + 1) p heap = (cleanuptask fuel temp { heap with
      memory := heap.memory.setInfo p fun info => { info with list := rest } }).bind fun heap =>
        (heap.release temp).bind fun heap => cleanuptask fuel p heap := by
  rw [cleanuptask, if_neg fresh.live, fresh.left]
  rfl

theorem Heap.release_eq {heap : Heap} {task : Nat} (live : task ∉ heap.freed)
    (name : (heap.memory.info task).processName = (memory.info task).processName) :
    heap.release task =
      if memory.named task then some { heap with freed := heap.freed ++ [task] } else none := by
  unfold Heap.release Memory.named
  rw [if_neg live, name]
  cases (memory.info task).processName <;> rfl

/-- The walk of `cleanuptask` is the one from the leaves, and it gets through exactly where that
one does. -/
theorem cleanuptask_walk (tree : Tree memory) (fuel : Nat) : ∀ {p : Nat} {rest : List Nat}
    {heap : Heap}, Fresh memory p rest heap →
      match postorder memory.children memory.named fuel rest with
      | none => cleanuptask (fuel + 1) p heap = none
      | some order => ∃ heap', cleanuptask (fuel + 1) p heap = some heap' ∧
          Walked p order heap heap' := by
  have empty : ∀ {fuel p : Nat} {heap : Heap}, Fresh memory p [] heap →
      ∃ heap', cleanuptask (fuel + 1) p heap = some heap' ∧ Walked p [] heap heap' :=
    fun fresh => ⟨_, fresh.cleanup_nil _, (List.append_nil _).symm, fun _ => rfl, fun _ _ _ => rfl⟩
  induction fuel with
  | zero =>
      intro p rest heap fresh
      cases rest with
      | nil => exact empty fresh
      | cons temp rest =>
          simp only [postorder]
          rw [fresh.cleanup_cons]
          rfl
  | succ fuel induction =>
      intro p rest heap fresh
      cases rest with
      | nil => exact empty fresh
      | cons temp rest =>
          have down := induction (fresh.down tree)
          rw [fresh.cleanup_cons]
          simp only [postorder]
          cases walkedBelow : postorder memory.children memory.named fuel (memory.children temp) with
          | none =>
              simp only [walkedBelow] at down
              rw [down]
              rfl
          | some below =>
              simp only [walkedBelow] at down
              rcases down with ⟨middle, ran, walked⟩
              have inside : ∀ id ∈ below, Below memory.children temp id := by
                intro id member
                rcases postorder_within walkedBelow member with ⟨first, isChild, rfl | deep⟩
                · exact .child isChild
                · exact deep.under isChild
              have live : temp ∉ middle.freed := by
                rw [walked.freed]
                intro member
                rcases List.mem_append.mp member with early | member
                · exact (fresh.below temp List.mem_cons_self (.inl rfl)).2 early
                · exact Nat.lt_irrefl _ (tree.below_lt (inside temp member))
              have names : ∀ id, (middle.memory.info id).processName = (memory.info id).processName :=
                fun id => (walked.names id).trans ((fresh.down tree).names id)
              rw [ran, Option.bind_some, Heap.release_eq live (names temp)]
              cases isNamed : memory.named temp with
              | false => rfl
              | true =>
                  have next := induction (fresh.next tree inside walked)
                  simp only [if_true, Option.bind_some, Option.bind_eq_bind]
                  cases walkedRest : postorder memory.children memory.named fuel rest with
                  | none =>
                      simp only [walkedRest] at next
                      exact next
                  | some others =>
                      simp only [walkedRest] at next
                      rcases next with ⟨last, ran', walked'⟩
                      refine ⟨last, ran', ?_, ?_, ?_⟩
                      · rw [walked'.freed, walked.freed]
                        simp
                      · intro id
                        rw [walked'.names, names, fresh.names]
                      · intro id notTop outside
                        simp only [List.mem_append, List.mem_cons, not_or] at outside
                        rw [walked'.list id notTop outside.2.2]
                        refine (walked.list id outside.2.1 outside.1).trans ?_
                        exact congrArg ThreadInfo.list (Function.update_of_ne notTop _ _)

theorem Tree.fresh (tree : Tree memory) : Fresh memory 0 (memory.children 0) ⟨memory, []⟩ := by
  refine ⟨tree.list_eq tree.root, List.suffix_rfl, List.not_mem_nil, fun _ => rfl, ?_⟩
  intro first isChild id inside
  refine ⟨tree.list_eq ?_, List.not_mem_nil⟩
  rcases inside with rfl | deep
  · exact (Memory.mem_children.mp isChild).1
  · exact below_bound deep

theorem badshutdowncpu_iff (tree : Tree memory) {fuel : Nat} {freed : List Nat} :
    (∃ heap, badshutdowncpu (fuel + 1) memory = some heap ∧ heap.freed = freed) ↔
      memory.named 0 = true ∧
        ∃ order, postorder memory.children memory.named fuel (memory.children 0) = some order ∧
          freed = order ++ [0] := by
  have walk := cleanuptask_walk tree fuel tree.fresh
  unfold badshutdowncpu
  cases walked : postorder memory.children memory.named fuel (memory.children 0) with
  | none =>
      simp only [walked] at walk
      simp [walk]
  | some order =>
      simp only [walked] at walk
      rcases walk with ⟨heap, ran, walked'⟩
      have noRoot : 0 ∉ heap.freed := by
        rw [walked'.freed]
        intro member
        rcases postorder_within walked member with ⟨first, isChild, inside⟩
        exact Nat.not_lt_zero _ ((tree.grows isChild).trans_le (tree.within_le inside))
      have release := Heap.release_eq noRoot (walked'.names 0)
      simp only [ran, Option.bind_eq_bind, Option.bind_some, release]
      cases memory.named 0 with
      | false => simp
      | true => simp [walked'.freed, eq_comm]

theorem freed_perm (tree : Tree memory) {ready : Nat → Bool} {fuel : Nat} {order : List Nat}
    (walked : postorder memory.children ready fuel (memory.children 0) = some order) :
    (order ++ [0]).Perm (List.range memory.allocated) := by
  apply List.perm_iff_count.mpr
  intro id
  have inside : id ∈ order → 0 < id ∧ id < memory.allocated := by
    intro member
    rcases postorder_within walked member with ⟨first, isChild, rfl | deep⟩
    · exact ⟨tree.grows isChild, (Memory.mem_children.mp isChild).1⟩
    · exact ⟨(tree.grows isChild).trans (tree.below_lt deep), below_bound deep⟩
  rw [List.count_append, List.count_range]
  rcases Nat.eq_zero_or_pos id with rfl | pos
  · rw [List.count_eq_zero_of_not_mem fun member => Nat.lt_irrefl _ (inside member).1, if_pos tree.root]
    rfl
  · have notTop : [0].count id = 0 :=
      List.count_eq_zero_of_not_mem fun member => Nat.ne_of_gt pos (List.mem_singleton.mp member)
    rw [notTop, Nat.add_zero]
    split_ifs with bound
    · exact postorder_once tree.isTree walked (tree.below pos bound)
    · exact List.count_eq_zero_of_not_mem fun member => bound (inside member).2

theorem freed_behind (tree : Tree memory) {ready : Nat → Bool} {fuel : Nat} {order : List Nat}
    (walked : postorder memory.children ready fuel (memory.children 0) = some order)
    {front back : List Nat} {id : Nat} (split : order ++ [0] = front ++ id :: back) :
    (memory.info id).list ⊆ front := by
  have member : id ∈ List.range memory.allocated :=
    (freed_perm tree walked).subset (split ▸ by simp)
  rw [tree.list_eq (List.mem_range.mp member)]
  rcases List.eq_nil_or_concat' back with rfl | ⟨before, last, rfl⟩
  · rcases List.append_inj' split rfl with ⟨rfl, last⟩
    rw [← List.singleton_inj.mp last]
    exact postorder_roots fuel walked
  · have split : order ++ [0] = (front ++ id :: before) ++ [last] := by simpa using split
    exact postorder_children fuel walked (List.append_inj' split rfl).1

/-- However the parser gives up, its structures can be freed if and only if each of them has a
name. Then each is freed once, behind those on its list. -/
theorem cleanup_of_profile {contents : Bytes} {value : Bool}
    (ends : Ends contents (.returned value memory)) :
    ((∃ fuel heap, badshutdowncpu fuel memory = some heap) ↔
      ∀ id < memory.allocated, (memory.info id).processName ≠ none) ∧
    ∀ fuel heap, badshutdowncpu fuel memory = some heap →
      heap.freed.Perm (List.range memory.allocated) ∧
        ∀ front back id, heap.freed = front ++ id :: back → (memory.info id).list ⊆ front := by
  have tree : Tree memory := ends.tree
  refine ⟨⟨?_, ?_⟩, ?_⟩
  · rintro ⟨_ | fuel, heap, ran⟩ id bound
    · cases ran
    · rcases (badshutdowncpu_iff tree).mp ⟨heap, ran, rfl⟩ with ⟨named, order, walked, -⟩
      have member := (freed_perm tree walked).symm.subset (List.mem_range.mpr bound)
      apply Option.isSome_iff_ne_none.mp
      rcases List.mem_append.mp member with inside | isTop
      · exact (postorder_mem fuel walked id inside).1
      · exact List.mem_singleton.mp isTop ▸ named
  · intro named
    have isNamed : ∀ {id top : Nat}, id ∈ memory.children top → memory.named id = true :=
      fun isChild => Option.isSome_iff_ne_none.mpr (named _ (Memory.mem_children.mp isChild).1)
    have walks := @postorder_isSome Nat memory.children memory.named (fun id => id)
      memory.allocated (fun isChild => (Memory.mem_children.mp isChild).1) tree.grows
      (fun top => List.pairwise_lt_range.filter _) isNamed memory.allocated _ 0 List.suffix_rfl
      fun id _ => Nat.le_add_right _ _
    rcases Option.isSome_iff_exists.mp walks with ⟨order, walked⟩
    have isTop : memory.named 0 = true := Option.isSome_iff_ne_none.mpr (named 0 tree.root)
    rcases (badshutdowncpu_iff tree).mpr ⟨isTop, order, walked, rfl⟩ with ⟨heap, ran, -⟩
    exact ⟨_, heap, ran⟩
  · intro fuel heap ran
    cases fuel with
    | zero => cases ran
    | succ fuel =>
        rcases (badshutdowncpu_iff tree).mp ⟨heap, ran, rfl⟩ with ⟨-, order, walked, freed⟩
        rw [freed]
        exact ⟨freed_perm tree walked, fun front back id split => freed_behind tree walked split⟩

end

/-- What a profile that is not accepted leaves of init and the first process. -/
def leaves (count : Nat) (contents : Bytes) : Option (Nat × Bool × Bool) :=
  match step^[count] (start contents) with
  | .ended (.returned false memory) => some (memory.allocated, memory.named 0, memory.named 1)
  | _ => none

theorem leaves_ends {count allocated : Nat} {contents : Bytes} {named named' : Bool}
    (left : leaves count contents = some (allocated, named, named')) :
    ∃ memory, Ends contents (.returned false memory) ∧ memory.allocated = allocated ∧
      memory.named 0 = named ∧ memory.named 1 = named' := by
  unfold leaves at left
  split at left
  · rename_i memory ran
    cases left
    exact ⟨memory, ⟨count, ran⟩, rfl, rfl, rfl⟩
  · cases left

/-- A profile that ends in a word, and one whose process has no name. -/
theorem cleanup_of_profile_word : ∃ memory memory',
    Ends (ascii "#NEWPROCESS\n#NAME a\nbad") (.returned false memory) ∧
    Ends (ascii "#NEWPROCESS\nbad") (.returned false memory') ∧
    (∃ fuel heap, badshutdowncpu fuel memory = some heap) ∧
    ¬ ∃ fuel heap, badshutdowncpu fuel memory' = some heap := by
  have left : leaves 40 (ascii "#NEWPROCESS\n#NAME a\nbad") = some (2, true, true) := by
    decide +kernel
  have left' : leaves 40 (ascii "#NEWPROCESS\nbad") = some (2, true, false) := by decide +kernel
  rcases leaves_ends left with ⟨memory, ends, allocated, isTop, isNamed⟩
  rcases leaves_ends left' with ⟨memory', ends', allocated', -, unnamed⟩
  refine ⟨memory, memory', ends, ends', ?_, ?_⟩
  · apply (cleanup_of_profile ends).1.mpr
    intro id bound
    rw [allocated] at bound
    apply Option.isSome_iff_ne_none.mp
    rcases Nat.lt_succ_iff_lt_or_eq.mp bound with isFirst | rfl
    · obtain rfl : id = 0 := Nat.lt_one_iff.mp isFirst
      exact isTop
    · exact isNamed
  · intro cleaned
    have named := (cleanup_of_profile ends').1.mp cleaned 1 (by rw [allocated']; decide)
    rw [Memory.named, Option.isSome_eq_false_iff] at unnamed
    exact named (Option.isNone_iff_eq_none.mp unnamed)

end CE321.Cpuinit
