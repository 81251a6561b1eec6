import CE321.Foundation.Family
import CE321.Vsched.Choice

/-! # The tasks that are alive

Each of them is in the run queue or asleep, and together they are a family under init whose
members count their children.
-/

namespace CE321.Vsched

/-- A child has a higher rank than its parent. -/
def Task.rank : Task → Nat
  | .idle => 0
  | .init => 0
  | .process index => index + 1

theorem Profile.descends (profile : Profile) (child of : Task)
    (isParent : profile.parent child = some of) : of.rank < child.rank := by
  cases child with
  | idle => cases isParent
  | init => cases isParent
  | process index =>
      simp only [Profile.parent] at isParent
      cases above : (profile.process index).parent with
      | none =>
          rw [above] at isParent
          cases isParent
          exact Nat.succ_pos index
      | some parent =>
          rw [above] at isParent
          cases isParent
          apply Nat.succ_lt_succ
          cases found : profile.processes[index]? with
          | none => simp [Profile.process, List.getD, found] at above
          | some process =>
              refine profile.parentsFirst index parent process found ?_
              simpa [Profile.process, List.getD, found] using above

/-- The tasks of a profile but for the idle task. -/
def Profile.tasks (profile : Profile) : List Task :=
  .init :: (List.range profile.processes.length).map .process

/-- The family of the tasks that are alive. -/
structure Lineage (profile : Profile) (info : Task → ThreadInfo) (live killed : List Task) :
    Prop where
  family : Family profile.parent live
  known : ∀ task ∈ live, task ∈ profile.tasks
  children : ∀ task ∈ live, (info task).children = childrenOf profile.parent live task
  pending : ∀ task, ∀ child ∈ (info task).list, profile.parent (.process child) = some task ∧
    Task.process child ∈ profile.tasks ∧ .process child ∉ live ∧ .process child ∉ killed
  pendingNodup : ∀ task, (info task).list.Nodup
  apart : ∀ task ∈ live, task ∉ killed
  once : killed.Nodup
  last : .init ∈ killed → killed.head? = some .init
  initWork : (info .init).workDuration = -1

/-- The lists that the tasks are on. -/
structure Lists (vm : Vm) (queue : List Task) : Prop where
  runQueue : RunQueue vm queue
  perm : vm.live.Perm (queue ++ vm.intwaitlist)
  awake : .init ∉ vm.intwaitlist

section

variable {profile : Profile} {info info' : Task → ThreadInfo} {live killed : List Task}

/-! ## The family -/

theorem Lineage.rooted (lineage : Lineage profile info live killed) (task : Task)
    (alive : task ∈ live) (orphan : profile.parent task = none) : task = .init := by
  have known := lineage.known task alive
  cases task with
  | init => rfl
  | idle => simp [Profile.tasks] at known
  | process index =>
      simp only [Profile.parent] at orphan
      split at orphan <;> cases orphan

theorem Lineage.init_mem (lineage : Lineage profile info live killed) {task : Task}
    (alive : task ∈ live) : .init ∈ live :=
  lineage.family.root_mem profile.descends lineage.rooted task alive

theorem Lineage.init_killed (lineage : Lineage profile info live killed)
    (initKilled : .init ∈ killed) : live = [] := by
  apply List.eq_nil_iff_forall_not_mem.mpr
  intro task alive
  exact lineage.apart .init (lineage.init_mem alive) initKilled

theorem Lineage.init_alone (lineage : Lineage profile info live killed) (alive : .init ∈ live)
    (childless : (info .init).children = 0) : ∀ task ∈ live, task = .init := by
  apply lineage.family.root_alone profile.descends lineage.rooted
  have count := lineage.children .init alive
  rw [childless] at count
  exact_mod_cast count.symm

theorem Lineage.length_le (lineage : Lineage profile info live killed) :
    live.length ≤ profile.processes.length + 1 := by
  have subset : live ⊆ profile.tasks := lineage.known
  have bound := (List.Nodup.subperm lineage.family.nodup subset).length_le
  simpa [Profile.tasks] using bound

theorem Lineage.frame (lineage : Lineage profile info live killed)
    (children : ∀ task, (info' task).children = (info task).children)
    (list : ∀ task, (info' task).list = (info task).list)
    (initWork : (info' .init).workDuration = (info .init).workDuration) :
    Lineage profile info' live killed where
  family := lineage.family
  known := lineage.known
  children := fun task alive => (children task).trans (lineage.children task alive)
  pending := fun task child member => lineage.pending task child (list task ▸ member)
  pendingNodup := fun task => list task ▸ lineage.pendingNodup task
  apart := lineage.apart
  once := lineage.once
  last := lineage.last
  initWork := initWork.trans lineage.initWork

theorem Lineage.fork (lineage : Lineage profile info live killed) {of : Task} {child : Nat}
    (alive : of ∈ live) (pending : child ∈ (info of).list)
    (children : ∀ task, (info' task).children =
      if task = .process child then 0
      else if task = of then (info of).children + 1 else (info task).children)
    (list : ∀ task, (info' task).list =
      if task = of then (info of).list.erase child else (info task).list)
    (initWork : (info' .init).workDuration = (info .init).workDuration) :
    Lineage profile info' (.process child :: live) killed := by
  rcases lineage.pending of child pending with ⟨isChild, known, unborn, unkilled⟩
  have stillPending : ∀ task, ∀ other ∈ (info' task).list, other ∈ (info task).list := by
    intro task other member
    rw [list] at member
    split_ifs at member with same
    · exact same ▸ List.mem_of_mem_erase member
    · exact member
  constructor
  · exact lineage.family.fork isChild alive unborn
  · intro task member
    rcases List.mem_cons.mp member with rfl | older
    · exact known
    · exact lineage.known task older
  · intro task member
    rw [children, childrenOf_cons, isChild]
    rcases List.mem_cons.mp member with rfl | older
    · -- A task that is not alive has no children.
      have childless : childrenOf profile.parent live (.process child) = 0 := by
        apply Nat.eq_zero_of_not_pos
        intro positive
        rcases List.countP_pos_iff.mp positive with ⟨other, inside, isOther⟩
        exact unborn (lineage.family.parents other inside _ (of_decide_eq_true isOther))
      have notOf : of ≠ .process child := fun same => unborn (same ▸ alive)
      simp [childless, notOf]
    · have notChild : task ≠ .process child := fun same => unborn (same ▸ older)
      rw [if_neg notChild]
      by_cases same : task = of
      · subst same
        simp [lineage.children task older]
      · have notSame : of ≠ task := fun same' => same same'.symm
        simp [same, notSame, lineage.children task older]
  · intro task other member
    rcases lineage.pending task other (stillPending task other member) with
      ⟨isOther, otherKnown, otherUnborn, otherUnkilled⟩
    refine ⟨isOther, otherKnown, ?_, otherUnkilled⟩
    intro born
    rcases List.mem_cons.mp born with same | older
    · cases same
      rw [isChild] at isOther
      cases isOther
      rw [list, if_pos rfl] at member
      exact (lineage.pendingNodup of).not_mem_erase member
    · exact otherUnborn older
  · intro task
    rw [list]
    split_ifs
    · exact (lineage.pendingNodup of).erase child
    · exact lineage.pendingNodup task
  · intro task member
    rcases List.mem_cons.mp member with rfl | older
    · exact unkilled
    · exact lineage.apart task older
  · exact lineage.once
  · exact lineage.last
  · exact initWork.trans lineage.initWork

theorem Lineage.kill (lineage : Lineage profile info live killed) {task : Task}
    (alive : task ∈ live) (childless : (info task).children = 0)
    (children : ∀ other, (info' other).children =
      if profile.parent task = some other then (info other).children - 1
      else (info other).children)
    (list : ∀ other, (info' other).list = (info other).list)
    (initWork : (info' .init).workDuration = (info .init).workDuration) :
    Lineage profile info' (live.erase task) (task :: killed) := by
  have noChild : childrenOf profile.parent live task = 0 := by
    have count := lineage.children task alive
    rw [childless] at count
    exact_mod_cast count.symm
  have older : ∀ other ∈ live.erase task, other ∈ live := fun _ => List.mem_of_mem_erase
  have survivor : ∀ other ∈ live.erase task, other ≠ task := fun other member =>
    ((lineage.family.nodup.mem_erase_iff).mp member).1
  constructor
  · exact lineage.family.kill noChild
  · exact fun other member => lineage.known other (older other member)
  · intro other member
    rw [children, lineage.children other (older other member), childrenOf_erase alive other]
    split_ifs
    · simp
    · simp
  · intro other child member
    rw [list] at member
    rcases lineage.pending other child member with ⟨isChild, known, unborn, unkilled⟩
    refine ⟨isChild, known, fun inside => unborn (older _ inside), ?_⟩
    intro dead
    rcases List.mem_cons.mp dead with same | earlier
    · exact unborn (same ▸ alive)
    · exact unkilled earlier
  · exact fun other => list other ▸ lineage.pendingNodup other
  · intro other member dead
    rcases List.mem_cons.mp dead with same | earlier
    · exact survivor other member same
    · exact lineage.apart other (older other member) earlier
  · exact List.nodup_cons.mpr ⟨lineage.apart task alive, lineage.once⟩
  · intro initKilled
    rcases List.mem_cons.mp initKilled with same | earlier
    · exact same ▸ rfl
    · rw [lineage.init_killed earlier] at alive
      cases alive
  · exact initWork.trans lineage.initWork

end

end CE321.Vsched
