import CE321.Vsched.Cpu
import CE321.Vsched.Population

/-! # Moves between the lists

What forking, sleeping, waking up and killing do to the run queue, the wait list and the
family.
-/

namespace CE321.Vsched

/-- The lists and the family of the tasks that are alive. -/
structure Population (setup : Setup) (vm : Vm) (queue : List Task) : Prop where
  lists : Lists vm queue
  lineage : Lineage setup.profile vm.info vm.live vm.killed

section

variable {setup : Setup} {vm vm' : Vm} {queue behind : List Task}

theorem Population.nodup (population : Population setup vm queue) :
    (queue ++ vm.intwaitlist).Nodup :=
  population.lists.perm.nodup_iff.mp population.lineage.family.nodup

theorem Population.queued (population : Population setup vm queue) {task : Task}
    (member : task ∈ queue) : task ∈ vm.live :=
  population.lists.perm.mem_iff.mpr (List.mem_append_left _ member)

theorem Population.head (population : Population setup vm queue) {task : Task}
    (alive : task ∈ vm.live) : ∃ behind, queue = .init :: behind := by
  have listed := population.lists.perm.mem_iff.mp (population.lineage.init_mem alive)
  rcases List.mem_append.mp listed with queued | asleep
  · rcases population.lists.runQueue.ring (List.ne_nil_of_mem queued) with ⟨behind, split, -⟩
    exact ⟨behind, split⟩
  · exact absurd asleep population.lists.awake

theorem Population.extinct (population : Population setup vm []) : vm.live = [] := by
  apply List.eq_nil_iff_forall_not_mem.mpr
  intro task alive
  rcases population.head alive with ⟨behind, split⟩
  cases split

theorem Population.length_le (population : Population setup vm queue) :
    queue.length ≤ setup.profile.processes.length + 1 := by
  have whole := population.lists.perm.length_eq
  have bound := population.lineage.length_le
  rw [List.length_append] at whole
  omega

theorem Population.idle_not_mem (population : Population setup vm queue) : .idle ∉ queue := by
  intro member
  have known := population.lineage.known .idle (population.queued member)
  simp [Profile.tasks] at known

/-- A part of a cycle in which nobody is killed. -/
structure Survives (vm vm' : Vm) : Prop where
  current : vm'.current = vm.current
  live : vm.live ⊆ vm'.live
  killed : vm'.killed = vm.killed
  flag : (vm.task vm.current).needReschedule = true →
    (vm'.task vm.current).needReschedule = true
  idle : vm.current ≠ .idle → (vm'.task .idle).needReschedule = (vm.task .idle).needReschedule
  timer : vm.intTimer ≠ 0 → vm'.intTimer ≠ 0

theorem Survives.refl (vm : Vm) : Survives vm vm :=
  ⟨rfl, fun _ => id, rfl, id, fun _ => rfl, id⟩

theorem Survives.trans {vm'' : Vm} (first : Survives vm vm') (second : Survives vm' vm'') :
    Survives vm vm'' where
  current := second.current.trans first.current
  live := fun _ alive => second.live (first.live alive)
  killed := second.killed.trans first.killed
  flag := fun raised => first.current ▸ second.flag (first.current.symm ▸ first.flag raised)
  idle := fun notIdle =>
    (second.idle (first.current.symm ▸ notIdle)).trans (first.idle notIdle)
  timer := fun armed => second.timer (first.timer armed)

/-! ## Counting down

The timers and the work of the current task count down to 0.
-/

theorem timer_counts (vm : Vm) : ∃ timer,
    (if vm.timer > 0 then { vm with timer := vm.timer - 1 } else vm) =
        { vm with timer := timer } ∧
      (timer ≤ 0 ↔ vm.timer ≤ 1) := by
  split_ifs with running
  · exact ⟨_, rfl, by omega⟩
  · exact ⟨vm.timer, rfl, by omega⟩

theorem intTimer_counts (vm : Vm) : ∃ intTimer,
    (if vm.intTimer > 0 then { vm with intTimer := vm.intTimer - 1 } else vm) =
        { vm with intTimer := intTimer } ∧
      (intTimer = 0 ↔ vm.intTimer = 0 ∨ vm.intTimer = 1) := by
  split_ifs with running
  · exact ⟨_, rfl, by omega⟩
  · exact ⟨vm.intTimer, rfl, by omega⟩

theorem intWaitTimer_counts (vm : Vm) : ∃ intWaitTimer,
    (if vm.intWaitTimer > 0 then { vm with intWaitTimer := vm.intWaitTimer - 1 } else vm) =
      { vm with intWaitTimer := intWaitTimer } := by
  split_ifs
  · exact ⟨_, rfl⟩
  · exact ⟨vm.intWaitTimer, rfl⟩

theorem workDuration_counts (vm : Vm) : ∃ info,
    (if (vm.info vm.current).workDuration > 0 then
      vm.setInfo vm.current fun info => { info with workDuration := info.workDuration - 1 }
      else vm) = { vm with info := info } ∧
      (info vm.current).children = (vm.info vm.current).children ∧
      ((info vm.current).workDuration = 0 ↔
        (vm.info vm.current).workDuration = 0 ∨ (vm.info vm.current).workDuration = 1) := by
  split_ifs
  · refine ⟨_, rfl, by simp, ?_⟩
    simp only [Function.update_self]
    omega
  · exact ⟨vm.info, rfl, rfl, by omega⟩

/-! ## Forking -/

theorem newTask_children {child : Nat} {of : Task}
    (isChild : setup.profile.parent (.process child) = some of) (apart : of ≠ .process child)
    (task : Task) : ((newTask setup vm child).info task).children =
      if task = .process child then 0
      else if task = of then (vm.info of).children + 1 else (vm.info task).children := by
  simp only [newTask, isChild, schedFork, Vm.setTask, Vm.setInfo, Function.update_apply]
  split_ifs <;> simp_all

theorem newTask_list {child : Nat} {of : Task}
    (isChild : setup.profile.parent (.process child) = some of) (task : Task) :
    ((newTask setup vm child).info task).list = (vm.info task).list := by
  simp only [newTask, isChild, schedFork, Vm.setTask, Vm.setInfo, Function.update_apply]
  split_ifs <;> simp_all

theorem newTask_initWork {child : Nat} {of : Task}
    (isChild : setup.profile.parent (.process child) = some of) :
    ((newTask setup vm child).info .init).workDuration = (vm.info .init).workDuration := by
  simp only [newTask, isChild, schedFork, Vm.setTask, Vm.setInfo, Function.update_apply]
  split_ifs <;> simp_all

theorem newTask_task {child : Nat} {task : Task} (other : task ≠ .process child) :
    (newTask setup vm child).task task = vm.task task := by
  simp only [newTask]
  split
  · simp [schedFork, Vm.setTask, Vm.setInfo, other]
  · simp [schedFork, Vm.setTask, Vm.setInfo, other]

theorem newTask_next (child : Nat) :
    ((newTask setup vm child).task (.process child)).next = none := by
  simp only [newTask]
  split
  · simp [schedFork, createTask, Vm.setTask, Vm.setInfo]
  · simp [schedFork, createTask, Vm.setTask, Vm.setInfo]

/-- The data of a new task are its structure and the infos of it and its parent. -/
theorem newTask_rest (child : Nat) : ∃ task info,
    newTask setup vm child = { vm with task := task, info := info } := by
  simp only [newTask]
  split
  · exact ⟨_, _, rfl⟩
  · exact ⟨_, _, rfl⟩

theorem Lists.forktask (lists : Lists vm (.init :: behind)) {child : Nat}
    (unborn : .process child ∉ vm.live) (running : vm.current ∈ vm.live) :
    ∃ vm', Vsched.forktask setup vm child = some vm' ∧
      Lists vm' (.init :: .process child :: behind) ∧ Survives vm vm' ∧
      vm'.live = .process child :: vm.live ∧ vm'.info = (newTask setup vm child).info := by
  rcases @newTask_rest setup vm child with ⟨task, info, made⟩
  have unlisted : Task.process child ∉ Task.init :: behind := fun member =>
    unborn (lists.perm.mem_iff.mpr (List.mem_append_left _ member))
  have notCurrent : vm.current ≠ .process child := fun same => unborn (same ▸ running)
  have kept := fun other => @newTask_task setup vm child other
  have queued : RunQueue (newTask setup vm child) (.init :: behind) := by
    apply lists.runQueue.frame
    · rw [made]
    · rw [made]
    · intro other
      by_cases isNew : other = .process child
      · subst isNew
        rw [newTask_next, (lists.runQueue.linked _).mpr unlisted]
      · rw [kept other isNew]
    · intro other member
      rw [kept other fun same => unlisted (same ▸ member)]
  rcases @RunQueue.enqueue setup _ _ _ queued unlisted with
    ⟨woken, enqueued, wokenQueue, ⟨task', nrRunning, rest⟩, flags⟩
  have current : woken.current = vm.current := by rw [rest, made]
  have live : woken.live = vm.live := by rw [rest, made]
  have intwaitlist : woken.intwaitlist = vm.intwaitlist := by rw [rest, made]
  refine ⟨{ woken.setTask woken.current fun t => { t with needReschedule := true } with
    live := .process child :: woken.live }, ?_, ?_, ?_, ?_, ?_⟩
  · simp only [Vsched.forktask, wakeUpNewTask, enqueued, Option.bind_eq_bind, Option.bind_some]
    rfl
  · constructor
    · exact (wokenQueue.same (@sameLinks_setTask woken woken.current
        (fun t => { t with needReschedule := true }) rfl rfl)).frame rfl rfl (fun _ => rfl)
        fun _ _ => rfl
    · show (Task.process child :: woken.live).Perm (.init :: .process child :: behind ++ woken.intwaitlist)
      rw [live, intwaitlist]
      exact (lists.perm.cons _).trans (List.Perm.swap _ _ _)
    · show Task.init ∉ woken.intwaitlist
      exact intwaitlist ▸ lists.awake
  · constructor
    · exact current
    · exact fun other alive => List.mem_cons_of_mem _ (live.symm ▸ alive)
    · show woken.killed = vm.killed
      rw [rest, made]
    · intro _
      simp [Vm.setTask, current]
    · intro notIdle
      have away : Task.idle ≠ vm.current := fun same => notIdle same.symm
      simp [Vm.setTask, current, away, flags, kept]
    · intro armed
      show woken.intTimer ≠ 0
      rw [rest, made]
      exact armed
  · show Task.process child :: woken.live = _
    rw [live]
  · show woken.info = _
    rw [rest]

theorem Population.fork (population : Population setup vm queue) {child : Nat} {of : Task}
    (alive : of ∈ vm.live) (pending : child ∈ (vm.info of).list) (running : vm.current ∈ vm.live) :
    ∃ forked vm' queue', Vsched.forktask setup vm child = some forked ∧
      vm' = forked.setInfo of (fun info => { info with list := info.list.erase child }) ∧
      Population setup vm' queue' ∧ queue ⊆ queue' ∧ Survives vm vm' ∧
      (vm'.info of).list = (vm.info of).list.erase child := by
  rcases population.lineage.pending of child pending with ⟨isChild, -, unborn, -⟩
  rcases population.head alive with ⟨behind, rfl⟩
  rcases @Lists.forktask setup _ _ population.lists _ unborn running with
    ⟨forked, done, lists, survives, live, info⟩
  have apart : of ≠ .process child := fun same => unborn (same ▸ alive)
  have listOf : ∀ task, ((forked.setInfo of fun info =>
      { info with list := info.list.erase child }).info task).list =
      if task = of then (vm.info of).list.erase child else (vm.info task).list := by
    intro task
    simp only [Vm.setInfo, Function.update_apply, info]
    split_ifs with same
    · rw [newTask_list isChild]
    · rw [newTask_list isChild]
  refine ⟨forked, _, .init :: .process child :: behind, done, rfl, ⟨?_, ?_⟩, ?_, ?_, ?_⟩
  · exact ⟨lists.runQueue.frame rfl rfl (fun _ => rfl) fun _ _ => rfl, lists.perm, lists.awake⟩
  · show Lineage setup.profile _ forked.live forked.killed
    rw [live, survives.killed]
    apply population.lineage.fork alive pending _ listOf
    · simp only [Vm.setInfo, Function.update_apply, info]
      split_ifs with same
      · subst same
        exact newTask_initWork isChild
      · exact newTask_initWork isChild
    · intro task
      rw [← newTask_children isChild apart task]
      simp only [Vm.setInfo, Function.update_apply, info]
      split_ifs with same
      · rw [same]
      · rfl
  · intro task member
    rcases List.mem_cons.mp member with rfl | later
    · exact List.mem_cons_self
    · exact List.mem_cons_of_mem _ (List.mem_cons_of_mem _ later)
  · exact ⟨survives.current, survives.live, survives.killed, survives.flag, survives.idle,
      survives.timer⟩
  · rw [listOf, if_pos rfl]

theorem Population.spawnLoop {of : Task} (todo : List Nat) :
    ∀ {vm : Vm} {queue : List Task}, Population setup vm queue → of ∈ vm.live →
      vm.current ∈ vm.live → todo ⊆ (vm.info of).list → todo.Nodup →
      ∃ vm' queue', Vsched.spawnLoop setup of todo vm = some vm' ∧
        Population setup vm' queue' ∧ queue ⊆ queue' ∧ Survives vm vm' := by
  induction todo with
  | nil =>
      intro vm queue population _ _ _ _
      exact ⟨vm, queue, rfl, population, fun _ => id, Survives.refl vm⟩
  | cons child rest induction =>
      intro vm queue population alive running pending nodup
      rcases List.nodup_cons.mp nodup with ⟨fresh, restNodup⟩
      rcases List.cons_subset.mp pending with ⟨childPending, restPending⟩
      simp only [Vsched.spawnLoop]
      split_ifs
      · rcases population.fork alive childPending running with
          ⟨forked, vm', queue', done, rfl, population', grows, survives, list⟩
        rw [done]
        have restPending' : rest ⊆ ((forked.setInfo of fun info =>
            { info with list := info.list.erase child }).info of).list := by
          intro other member
          rw [list]
          refine ((population.lineage.pendingNodup of).mem_erase_iff).mpr ⟨?_, restPending member⟩
          rintro rfl
          exact fresh member
        rcases induction population' (survives.live alive)
          (survives.current ▸ survives.live running) restPending' restNodup with
          ⟨vm'', queue'', done', population'', grows', survives'⟩
        exact ⟨vm'', queue'', done', population'', List.Subset.trans grows grows', survives.trans survives'⟩
      · exact induction population alive running restPending restNodup

theorem Population.spawnChildren (population : Population setup vm queue) {of : Task}
    (alive : of ∈ vm.live) (running : vm.current ∈ vm.live) :
    ∃ vm' queue', Vsched.spawnChildren setup vm of = some vm' ∧
      Population setup vm' queue' ∧ queue ⊆ queue' ∧ Survives vm vm' := by
  simp only [Vsched.spawnChildren]
  split_ifs
  · exact population.spawnLoop _ alive running (fun _ => id) (population.lineage.pendingNodup of)
  · exact ⟨vm, queue, rfl, population, fun _ => id, Survives.refl vm⟩

theorem Population.spawnAll (population : Population setup vm queue)
    (running : vm.current ∈ vm.live) :
    ∃ vm' queue', Vsched.spawnAll setup vm = some vm' ∧
      Population setup vm' queue' ∧ queue ⊆ queue' ∧ Survives vm vm' := by
  have armed : Population setup (armIntTimer setup vm) queue ∧
      Survives vm (armIntTimer setup vm) := by
    simp only [armIntTimer]
    split_ifs
    · refine ⟨⟨⟨population.lists.runQueue.frame rfl rfl (fun _ => rfl) fun _ _ => rfl,
        population.lists.perm, population.lists.awake⟩, population.lineage⟩,
        rfl, fun _ => id, rfl, id, fun _ => rfl, fun _ => ?_⟩
      simp only [msToTicks_rand]
      omega
    · exact ⟨population, Survives.refl vm⟩
  rcases armed with ⟨population', survives⟩
  have running' := survives.current ▸ survives.live running
  rcases population'.spawnChildren running' running' with
    ⟨vm₁, queue₁, done₁, population₁, grows₁, survives₁⟩
  have running₁ := survives₁.current ▸ survives₁.live running'
  rcases population₁.spawnChildren (population₁.lineage.init_mem running₁) running₁ with
    ⟨vm₂, queue₂, done₂, population₂, grows₂, survives₂⟩
  refine ⟨vm₂, queue₂, ?_, population₂, List.Subset.trans grows₁ grows₂,
    (survives.trans survives₁).trans survives₂⟩
  simp only [Vsched.spawnAll, done₁, done₂, Option.bind_eq_bind, Option.bind_some]

/-! ## Sleeping and waking up -/

theorem Relinked.survives (relinked : Relinked vm vm') : Survives vm vm' := by
  rcases relinked with ⟨⟨task, nrRunning, rfl⟩, flags⟩
  exact ⟨rfl, fun _ => id, rfl, fun raised => (flags vm.current).trans raised,
    fun _ => flags .idle, id⟩

theorem Population.activateTask (population : Population setup vm queue) {task : Task}
    {rest : List Task} (asleep : vm.intwaitlist = task :: rest) :
    ∃ woken vm' queue', Vsched.activateTask setup vm task = some woken ∧
      vm' = { woken with intwaitlist := woken.intwaitlist.erase task } ∧
      Population setup vm' queue' ∧ queue ⊆ queue' ∧ Survives vm vm' ∧ vm'.intwaitlist = rest ∧
      vm'.live = vm.live := by
  have nodup := population.nodup
  have perm := population.lists.perm
  have awake := population.lists.awake
  rw [asleep] at nodup perm awake
  have alive : task ∈ vm.live := perm.mem_iff.mpr (by simp)
  rcases population.head alive with ⟨behind, rfl⟩
  have fresh : task ∉ Task.init :: behind := fun queued =>
    (List.nodup_append.mp nodup).2.2 task queued task List.mem_cons_self rfl
  rcases @RunQueue.enqueue setup _ _ _ population.lists.runQueue fresh with
    ⟨woken, enqueued, runQueue, relinked⟩
  have survives := relinked.survives
  rcases relinked with ⟨⟨links, nrRunning, rfl⟩, flags⟩
  have remaining : vm.intwaitlist.erase task = rest := by
    rw [asleep, List.erase_cons_head]
  refine ⟨_, _, .init :: task :: behind, enqueued, rfl, ⟨⟨?_, ?_, ?_⟩, population.lineage⟩, ?_, ?_,
    remaining, rfl⟩
  · exact runQueue.frame rfl rfl (fun _ => rfl) fun _ _ => rfl
  · show vm.live.Perm (.init :: task :: behind ++ vm.intwaitlist.erase task)
    rw [remaining]
    refine perm.trans ?_
    refine (@List.perm_middle _ task (Task.init :: behind) rest).trans ?_
    exact List.Perm.swap _ _ _
  · show Task.init ∉ vm.intwaitlist.erase task
    rw [remaining]
    exact fun later => awake (List.mem_cons_of_mem _ later)
  · intro other member
    rcases List.mem_cons.mp member with rfl | later
    · exact List.mem_cons_self
    · exact List.mem_cons_of_mem _ (List.mem_cons_of_mem _ later)
  · exact ⟨survives.current, survives.live, survives.killed, survives.flag, survives.idle,
      survives.timer⟩

theorem Population.wakeAll (asleep : List Task) :
    ∀ {vm : Vm} {queue : List Task}, Population setup vm queue → vm.intwaitlist = asleep →
      ∃ vm' queue', Vsched.wakeAll setup asleep vm = some vm' ∧ Population setup vm' queue' ∧
        queue ⊆ queue' ∧ Survives vm vm' ∧ vm'.live = vm.live := by
  induction asleep with
  | nil =>
      intro vm queue population _
      exact ⟨vm, queue, rfl, population, fun _ => id, Survives.refl vm, rfl⟩
  | cons task rest induction =>
      intro vm queue population asleep
      rcases population.activateTask asleep with
        ⟨woken, vm', queue', done, rfl, population', grows, survives, remaining, live⟩
      rcases induction population' remaining with
        ⟨vm'', queue'', done', population'', grows', survives', live'⟩
      refine ⟨vm'', queue'', ?_, population'', List.Subset.trans grows grows',
        survives.trans survives', live'.trans live⟩
      simp only [Vsched.wakeAll, done, Option.bind_eq_bind, Option.bind_some, done']

theorem Population.goToSleep (population : Population setup vm queue) (member : vm.current ∈ queue)
    (notInit : vm.current ≠ .init) :
    ∃ vm' queue', Vsched.goToSleep vm = some vm' ∧ Population setup vm' queue' ∧
      Survives vm vm' ∧ (vm'.task vm'.current).needReschedule = true := by
  have runQueue : RunQueue { vm with
      intWaitTimer := vm.intWaitTimer - 1
      intwaitlist := vm.intwaitlist ++ [vm.current] } queue :=
    population.lists.runQueue.frame rfl rfl (fun _ => rfl) fun _ _ => rfl
  rcases runQueue.deactivateTask member fun isInit => absurd isInit notInit with
    ⟨asleep, done, runQueue', ⟨links, nrRunning, rfl⟩, flags⟩
  refine ⟨_, queue.erase vm.current, Option.bind_eq_some_iff.mpr ⟨_, done, rfl⟩,
    ⟨⟨?_, ?_, ?_⟩, population.lineage⟩, ?_, ?_⟩
  · exact runQueue'.same (sameLinks_setTask _ vm.current rfl rfl)
  · refine population.lists.perm.trans ?_
    have moved : (queue.erase vm.current ++ (vm.intwaitlist ++ [vm.current])).Perm
        (vm.current :: (queue.erase vm.current ++ vm.intwaitlist)) := by
      rw [← List.append_assoc]
      exact List.perm_append_singleton _ _
    exact ((List.perm_cons_erase member).append_right _).trans moved.symm
  · intro asleep
    rcases List.mem_append.mp asleep with earlier | isCurrent
    · exact population.lists.awake earlier
    · exact notInit (List.mem_singleton.mp isCurrent).symm
  · refine ⟨rfl, fun _ => id, rfl, fun _ => by simp [Vm.setTask], fun notIdle => ?_, id⟩
    have away : Task.idle ≠ vm.current := fun same => notIdle same.symm
    simpa [Vm.setTask, away] using flags .idle
  · simp [Vm.setTask]

theorem Population.tickSleep (population : Population setup vm queue) (member : vm.current ∈ queue)
    (notInit : vm.current ≠ .init) :
    ∃ vm' queue', Vsched.tickSleep vm = some vm' ∧ Population setup vm' queue' ∧
      Survives vm vm' ∧
      (vm'.current ∈ queue' ∨ (vm'.task vm'.current).needReschedule = true) := by
  rcases intWaitTimer_counts vm with ⟨intWaitTimer, ticked⟩
  have population' : Population setup { vm with intWaitTimer := intWaitTimer } queue :=
    ⟨⟨population.lists.runQueue.frame rfl rfl (fun _ => rfl) fun _ _ => rfl,
      population.lists.perm, population.lists.awake⟩, population.lineage⟩
  have survives : Survives vm { vm with intWaitTimer := intWaitTimer } :=
    ⟨rfl, fun _ => id, rfl, id, fun _ => rfl, id⟩
  simp only [Vsched.tickSleep, ticked]
  split_ifs
  · rcases population'.goToSleep member notInit with
      ⟨vm', queue', done, population'', survives', raised⟩
    exact ⟨vm', queue', done, population'', survives.trans survives', .inr raised⟩
  · exact ⟨_, queue, rfl, population', survives, .inl member⟩

end

end CE321.Vsched
