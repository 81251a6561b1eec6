import CE321.Foundation.History
import CE321.Vsched.Runs

/-! # Lists and lifetimes in every run

What a run keeps of the run queue, the wait list and the family of the tasks.
-/

namespace CE321.Vsched

section

variable {setup : Setup} {vm : Vm}

/-- At the start of an iteration the tasks that are alive are in the run queue, a ring
behind init, or asleep, and the current one is in the run queue. -/
theorem runQueue_of_reachable (reachable : Reachable setup vm) (starts : vm.pc = .cycle) :
    ∃ behind, vm.head = .init ∧
      Ring (fun task => (vm.task task).next) (fun task => (vm.task task).prev) vm.head behind ∧
      vm.nrRunning = (vm.head :: behind).length ∧ printRq setup vm = some behind ∧
      (∀ task ∈ vm.live, (vm.head :: behind).count task + vm.intwaitlist.count task = 1) ∧
      (∀ task, task ∈ vm.head :: behind ∨ task ∈ vm.intwaitlist → task ∈ vm.live) ∧
      (∀ task, (vm.task task).next = none ↔ task ∉ vm.head :: behind) ∧
      vm.current ∈ vm.head :: behind ∧ vm.current ≠ .idle ∧ vm.current ∉ vm.intwaitlist ∧
      vm.current ∉ vm.killed := by
  rcases reachable.invariant with ⟨queue, invariant⟩
  have population := invariant.population
  have member : vm.current ∈ queue := by
    simpa [Placed, starts] using invariant.place
  have alive := population.queued member
  have head := population.lists.runQueue.head
  rcases population.lists.runQueue.ring (List.ne_nil_of_mem member) with ⟨behind, rfl, ring⟩
  have few := population.length_le
  rw [List.length_cons] at few
  rw [head]
  refine ⟨behind, rfl, ring, population.lists.runQueue.count,
    population.lists.runQueue.printRq (by omega), ?_, ?_, population.lists.runQueue.linked, member,
    ?_, ?_, population.lineage.apart _ alive⟩
  · intro task alive
    rw [← List.count_append, ← population.lists.perm.count_eq]
    exact List.count_eq_one_of_mem population.lineage.family.nodup alive
  · intro task listed
    exact population.lists.perm.mem_iff.mpr (List.mem_append.mpr listed)
  · exact fun isIdle => population.idle_not_mem (isIdle ▸ member)
  · exact fun asleep => (List.nodup_append.mp population.nodup).2.2 _ member _ asleep rfl

/-- One noninteractive process that lives from 0 to 50 ms, and an end at 100 ms. -/
def loneTask : Setup where
  profile :=
    { processes := [⟨0, 50, -1, .noninteractive, false, none⟩]
      endtime := 100
      parentsFirst := by
        intro index parent process found isParent
        cases index with
        | zero =>
            cases found
            cases isParent
        | succ index => simp at found
      typed := by
        intro process member
        rw [List.mem_singleton.mp member]
        exact fun same => ThreadType.noConfusion same }
  scheduler := .sjfGoodness
  ticksToMs := fun ticks => (ticks / 500 : Nat)
  rand := fun _ => 0
  malloced := fun _ => ⟨0, false, none, none, 0, 0, 0, 0, 0, 0, 0⟩

theorem Reachable.after {later : Vm} (count : Nat) (reachable : Reachable setup vm)
    (taken : CE321.after (Vsched.step setup) count vm = some later) : Reachable setup later := by
  induction count generalizing vm with
  | zero =>
      cases taken
      exact reachable
  | succ count induction =>
      rcases Option.bind_eq_some_iff.mp taken with ⟨middle, first, rest⟩
      exact induction (reachable.step first) rest

theorem reachable_of_history {past : List Vm}
    (history : History (boot setup) (step setup) (vm :: past)) : Reachable setup vm :=
  history.keeps (fun vm _ => Reachable setup vm) .boot
    fun _ reachable taken => reachable.step taken

/-- Two noninteractive processes that start at once and do not end by themselves. -/
def twoJobs (scheduler : Scheduler) : Setup where
  profile :=
    { processes := List.replicate 2 ⟨0, -1, -1, .noninteractive, false, none⟩
      endtime := 100
      parentsFirst := by
        intro index parent process found isParent
        rw [List.eq_of_mem_replicate (List.mem_of_getElem? found)] at isParent
        cases isParent
      typed := by
        intro process member
        rw [List.eq_of_mem_replicate member]
        exact fun same => ThreadType.noConfusion same }
  scheduler := scheduler
  ticksToMs := fun ticks => (ticks / 500 : Nat)
  rand := fun _ => 0
  malloced := fun _ => ⟨0, false, none, none, 0, 0, 0, 0, 0, 0, 0⟩

/-- The iteration behind the one in which both processes are forked. -/
theorem runQueue_of_reachable_twoJobs : ∃ vm, Reachable (twoJobs .sjf) vm ∧ vm.pc = .cycle ∧
    vm.current = .process 1 ∧ vm.live = [.process 1, .process 0, .init] ∧ ∃ behind, vm.head = .init ∧
      Ring (fun task => (vm.task task).next) (fun task => (vm.task task).prev) vm.head behind ∧
      vm.nrRunning = (vm.head :: behind).length ∧ printRq (twoJobs .sjf) vm = some behind ∧
      (∀ task ∈ vm.live, (vm.head :: behind).count task + vm.intwaitlist.count task = 1) ∧
      (∀ task, task ∈ vm.head :: behind ∨ task ∈ vm.intwaitlist → task ∈ vm.live) ∧
      (∀ task, (vm.task task).next = none ↔ task ∉ vm.head :: behind) ∧
      vm.current ∈ vm.head :: behind ∧ vm.current ≠ .idle ∧ vm.current ∉ vm.intwaitlist ∧
      vm.current ∉ vm.killed := by
  have run : (after (step (twoJobs .sjf)) 6 (boot (twoJobs .sjf))).any (fun vm => vm.pc = .cycle ∧
      vm.current = .process 1 ∧ vm.live = [.process 1, .process 0, .init]) = true := by
    decide +kernel
  rcases (Option.any_eq_true _ _).mp run with ⟨vm, taken, viewed⟩
  rcases of_decide_eq_true viewed with ⟨pc, current, live⟩
  have reachable := Reachable.boot.after 6 taken
  exact ⟨vm, reachable, pc, current, live, runQueue_of_reachable reachable pc⟩

/-- Every task counts its children, outlives them and is outlived by init, and nobody is
left when the machine stops. -/
theorem family_of_reachable (reachable : Reachable setup vm) :
    (∀ task ∈ vm.live,
      (vm.info task).children = childrenOf setup.profile.parent vm.live task) ∧
    (∀ task ∈ vm.live, ∀ parent, setup.profile.parent task = some parent →
      parent ∈ vm.live ∧ parent ∉ vm.killed) ∧
    (∀ next, step setup vm = some next → ∀ task ∈ next.killed, task ∉ vm.killed →
      ∀ child ∈ vm.live, setup.profile.parent child ≠ some task) ∧
    (.init ∈ vm.killed → vm.live = [] ∧ vm.killed.head? = some .init) ∧
    (vm.pc = .halted → vm.nrRunning = 0 ∧ vm.live = [] ∧ vm.intwaitlist = []) := by
  rcases reachable.invariant with ⟨queue, invariant⟩
  have population := invariant.population
  have lineage := population.lineage
  refine ⟨lineage.children, ?_, ?_, fun dead => ⟨lineage.init_killed dead, lineage.last dead⟩, ?_⟩
  · intro task alive parent isParent
    have parentAlive := lineage.family.parents task alive parent isParent
    exact ⟨parentAlive, lineage.apart parent parentAlive⟩
  · intro next taken task dead notBefore child alive isChild
    rcases invariant.step taken with ⟨-, -, spares⟩
    rcases spares with ⟨same, -⟩ | ⟨killed, -, childless, currentAlive⟩
    · exact notBefore (same ▸ dead)
    · rw [killed] at dead
      rcases List.mem_cons.mp dead with rfl | before
      · have count := lineage.children _ currentAlive
        rw [childless] at count
        have positive := childrenOf_pos alive isChild
        omega
      · exact notBefore before
  · intro halted
    have extinct : queue = [] := by
      simpa [Placed, halted] using invariant.place
    subst extinct
    have nobody := population.extinct
    refine ⟨population.lists.runQueue.count, nobody, ?_⟩
    have perm := population.lists.perm
    rw [nobody] at perm
    exact List.append_eq_nil_iff.mp (List.nil_perm.mp perm) |>.2

/-- A process, and its child that ends as soon as it can. -/
def parentAndChild : Setup where
  profile :=
    { processes :=
        [⟨0, -1, -1, .noninteractive, true, none⟩, ⟨0, 0, -1, .noninteractive, false, some 0⟩]
      endtime := 100
      parentsFirst := by
        intro index parent process found isParent
        match index with
        | 0 =>
            cases found
            cases isParent
        | 1 =>
            cases found
            cases isParent
            decide
        | index + 2 => simp at found
      typed := by
        intro process member
        rcases List.mem_pair.mp member with rfl | rfl
        all_goals exact fun same => ThreadType.noConfusion same }
  scheduler := .sjfGoodness
  ticksToMs := fun ticks => (ticks / 500 : Nat)
  rand := fun _ => 0
  malloced := fun _ => ⟨0, false, none, none, 0, 0, 0, 0, 0, 0, 0⟩

/-- Both are there, and the child is about to be killed. -/
theorem family_of_reachable_child : ∃ vm killed, Reachable parentAndChild vm ∧
    vm.live = [.process 1, .process 0, .init] ∧ (vm.info (.process 0)).children = 1 ∧
    step parentAndChild vm = some killed ∧ killed.killed = [.process 1] ∧
    (∀ task ∈ vm.live,
      (vm.info task).children = childrenOf parentAndChild.profile.parent vm.live task) ∧
    (∀ task ∈ vm.live, ∀ parent, parentAndChild.profile.parent task = some parent →
      parent ∈ vm.live ∧ parent ∉ vm.killed) ∧
    (∀ next, step parentAndChild vm = some next → ∀ task ∈ next.killed, task ∉ vm.killed →
      ∀ child ∈ vm.live, parentAndChild.profile.parent child ≠ some task) ∧
    (.init ∈ vm.killed → vm.live = [] ∧ vm.killed.head? = some .init) ∧
    (vm.pc = .halted → vm.nrRunning = 0 ∧ vm.live = [] ∧ vm.intwaitlist = []) := by
  have run : (after (step parentAndChild) 11 (boot parentAndChild)).any (fun vm =>
      vm.live = [.process 1, .process 0, .init] ∧ (vm.info (.process 0)).children = 1 ∧
        (step parentAndChild vm).any (fun killed => killed.killed = [.process 1])) = true := by
    decide +kernel
  rcases (Option.any_eq_true _ _).mp run with ⟨vm, taken, viewed⟩
  rcases of_decide_eq_true viewed with ⟨live, children, kills⟩
  rcases (Option.any_eq_true _ _).mp kills with ⟨killed, dies, dead⟩
  have reachable := Reachable.boot.after 11 taken
  exact ⟨vm, killed, reachable, live, children, dies, of_decide_eq_true dead,
    family_of_reachable reachable⟩

end

end CE321.Vsched
