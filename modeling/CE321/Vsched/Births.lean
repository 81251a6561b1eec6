import CE321.Vsched.Clocks

/-! # When processes begin

In every cycle that its task survives, all children of it and of init are forked whose time has
come. The others stay on the lists, which have the processes that did not begin yet.
-/

namespace CE321.Vsched

def due (setup : Setup) (vm : Vm) (child : Nat) : Bool :=
  decide (msToTicks (setup.profile.process child).spawnTime ≤ vm.clocktick)

/-- The children of a task that are to be forked, in their order. -/
def births (setup : Setup) (vm : Vm) (parent : Task) : List Nat :=
  if setup.profile.spawns parent then (vm.info parent).list.filter (due setup vm) else []

/-- What is left on the list of a task. -/
def pending (setup : Setup) (vm : Vm) (parent : Task) : List Nat :=
  if setup.profile.spawns parent then (vm.info parent).list.filter fun child => !due setup vm child
  else (vm.info parent).list

/-- The processes that a cycle begins: children of the current task and of init. -/
def born (setup : Setup) (vm : Vm) : List Nat :=
  births setup vm vm.current ++ if vm.current = .init then [] else births setup vm .init

/-- Nobody begins or ends. -/
structure Rests (vm vm' : Vm) : Prop where
  clocktick : vm'.clocktick = vm.clocktick
  current : vm'.current = vm.current
  live : vm'.live = vm.live
  killed : vm'.killed = vm.killed
  list : ∀ task, (vm'.info task).list = (vm.info task).list

/-- Some processes begin, and leave the lists of their parents. -/
structure Bears (setup : Setup) (vm vm' : Vm) (children : List Nat) (parents : Task → Prop)
    [DecidablePred parents] : Prop where
  clocktick : vm'.clocktick = vm.clocktick
  current : vm'.current = vm.current
  killed : vm'.killed = vm.killed
  live : vm'.live = (children.map Task.process).reverse ++ vm.live
  list : ∀ task, (vm'.info task).list =
    if parents task then pending setup vm task else (vm.info task).list

/-- What a step does to the processes. -/
inductive Begins (setup : Setup) (vm next : Vm) : Prop
  | rests (idle : vm.pc ≠ .cycle) (clocktick : vm.clocktick ≤ next.clocktick)
      (live : next.live = vm.live) (killed : next.killed = vm.killed)
      (list : ∀ task, (next.info task).list = (vm.info task).list)
  | dies (pc : vm.pc = .cycle) (goes : goesDown setup vm = true)
      (clocktick : next.clocktick = vm.clocktick) (live : next.live = vm.live.erase vm.current)
      (killed : next.killed = vm.current :: vm.killed)
      (list : ∀ task, (next.info task).list = (vm.info task).list)
  | bears (pc : vm.pc = .cycle) (lives : goesDown setup vm = false)
      (bears : Bears setup vm next (born setup vm) fun task => task = vm.current ∨ task = .init)

section

variable {setup : Setup} {vm vm' vm'' : Vm}

/-! ## Forking -/

theorem Rests.of_clocks (timeless : Timeless vm vm') (clocks : vm'.clocks = vm.clocks)
    (list : ∀ task, (vm'.info task).list = (vm.info task).list) : Rests vm vm' :=
  ⟨(clocks_eq clocks).1, timeless.passes.current, timeless.passes.live, timeless.passes.killed, list⟩

theorem Rests.trans (first : Rests vm vm') (second : Rests vm' vm'') : Rests vm vm'' where
  clocktick := second.clocktick.trans first.clocktick
  current := second.current.trans first.current
  live := second.live.trans first.live
  killed := second.killed.trans first.killed
  list := fun task => (second.list task).trans (first.list task)

theorem due_congr (clocktick : vm'.clocktick = vm.clocktick) : due setup vm' = due setup vm := by
  funext child
  rw [due, clocktick]
  rfl

theorem spawnLoop_bears {parent : Task} (todo : List Nat) : ∀ {vm vm' : Vm} {early : List Nat},
    spawnLoop setup parent todo vm = some vm' → (vm.info parent).list = early ++ todo →
      (early ++ todo).Nodup →
        vm'.live = ((todo.filter (due setup vm)).map Task.process).reverse ++ vm.live ∧
          ∀ task, (vm'.info task).list =
            if task = parent then early ++ todo.filter (fun child => !due setup vm child)
            else (vm.info task).list := by
  induction todo with
  | nil =>
      intro vm vm' early done list nodup
      cases done
      refine ⟨rfl, fun task => ?_⟩
      split_ifs with same
      · rw [same, list]
        rfl
      · rfl
  | cons child rest induction =>
      intro vm vm' early done list nodup
      unfold spawnLoop at done
      split_ifs at done with isDue
      · have time : due setup vm child = true := decide_eq_true isDue
        rcases Option.bind_eq_some_iff.mp done with ⟨forked, forks, done⟩
        have clocktick := (clocks_eq (forktask_clocks forks)).1
        have kept := ((forktask_ignoresLists child).keeps forks).2
        have live := (forktask_spawned forks).live
        rcases List.nodup_append.mp nodup with ⟨nodupEarly, nodupTodo, apart⟩
        have fresh : child ∉ early := fun member => apart child member child List.mem_cons_self rfl
        have lists : ∀ task, ((forked.setInfo parent fun info =>
            { info with list := info.list.erase child }).info task).list =
              if task = parent then early ++ rest else (vm.info task).list := by
          intro task
          split_ifs with same
          · subst same
            simp [Vm.setInfo, kept, list, List.erase_append_right _ fresh]
          · simp [Vm.setInfo, Function.update_of_ne same, kept]
        have nodupRest : (early ++ rest).Nodup :=
          nodup.sublist ((List.Sublist.refl early).append (List.sublist_cons_self child rest))
        rcases induction done (by rw [lists, if_pos rfl]) nodupRest with ⟨live', list'⟩
        have same := @due_congr setup vm (forked.setInfo parent fun info =>
          { info with list := info.list.erase child }) clocktick
        rw [same] at live' list'
        refine ⟨?_, fun task => ?_⟩
        · rw [live']
          simp [Vm.setInfo, live, time]
        · rw [list', lists]
          split_ifs
          · simp [time]
          · rfl
      · have time : due setup vm child = false := decide_eq_false isDue
        have list' : (vm.info parent).list = (early ++ [child]) ++ rest := by simpa using list
        rcases induction done list' (by simpa using nodup) with ⟨live, lists⟩
        refine ⟨by simpa [time] using live, fun task => ?_⟩
        rw [lists]
        simp [time]

theorem spawnChildren_bears {parent : Task} (nodup : (vm.info parent).list.Nodup)
    (done : spawnChildren setup vm parent = some vm') :
    Bears setup vm vm' (births setup vm parent) fun task => task = parent := by
  rcases spawnChildren_spawned done with ⟨born, spawned⟩
  have clocktick := (clocks_eq (spawnChildren_clocks done)).1
  unfold spawnChildren at done
  split_ifs at done with spawns
  · rcases @spawnLoop_bears setup parent _ vm vm' [] done rfl nodup with ⟨live, list⟩
    refine ⟨clocktick, spawned.current, spawned.killed, ?_, fun task => ?_⟩
    · rw [births, if_pos spawns, live]
    · rw [list]
      split_ifs with same
      · subst same
        rw [pending, if_pos spawns]
        rfl
      · rfl
  · cases done
    refine ⟨rfl, rfl, rfl, ?_, fun task => ?_⟩
    · rw [births, if_neg spawns]
      rfl
    · split_ifs with same
      · subst same
        rw [pending, if_neg spawns]
      · rfl

theorem Rests.bears {children : List Nat} {parents : Task → Prop} [DecidablePred parents]
    (rests : Rests vm vm') (bears : Bears setup vm' vm'' children parents) :
    Bears setup vm vm'' children parents where
  clocktick := bears.clocktick.trans rests.clocktick
  current := bears.current.trans rests.current
  killed := bears.killed.trans rests.killed
  live := rests.live ▸ bears.live
  list := by
    intro task
    rw [bears.list, pending, pending, rests.list, due_congr rests.clocktick]

theorem Rests.born (rests : Rests vm vm') : born setup vm' = born setup vm := by
  have same : ∀ parent, births setup vm' parent = births setup vm parent := by
    intro parent
    rw [births, births, rests.list, due_congr rests.clocktick]
  rw [Vsched.born, Vsched.born, rests.current, same, same]

theorem armIntTimer_rests (setup : Setup) (vm : Vm) : Rests vm (armIntTimer setup vm) := by
  unfold armIntTimer
  split_ifs
  · exact ⟨rfl, rfl, rfl, rfl, fun _ => rfl⟩
  · exact ⟨rfl, rfl, rfl, rfl, fun _ => rfl⟩

theorem Bears.births {children : List Nat} {parents : Task → Prop} [DecidablePred parents]
    (bears : Bears setup vm vm' children parents) (task : Task) :
    births setup vm' task = if parents task then [] else births setup vm task := by
  rw [Vsched.births, Vsched.births, bears.list, due_congr bears.clocktick]
  by_cases spawns : setup.profile.spawns task = true
  · by_cases parent : parents task
    · simp [spawns, parent, pending]
    · simp [spawns, parent]
  · simp [spawns]

theorem Bears.pending {children : List Nat} {parents : Task → Prop} [DecidablePred parents]
    (bears : Bears setup vm vm' children parents) (task : Task) :
    pending setup vm' task = pending setup vm task := by
  rw [Vsched.pending, Vsched.pending, bears.list, due_congr bears.clocktick]
  by_cases spawns : setup.profile.spawns task = true
  · by_cases parent : parents task
    · simp [spawns, parent, Vsched.pending]
    · simp [spawns, parent]
  · simp [spawns, Vsched.pending]

theorem pending_sublist (setup : Setup) (vm : Vm) (task : Task) :
    (pending setup vm task).Sublist (vm.info task).list := by
  unfold pending
  split_ifs
  · exact List.filter_sublist
  · exact List.Sublist.refl _

/-- The children of the current task come first, and those of init behind them. -/
theorem spawnAll_bears (nodup : ∀ task, (vm.info task).list.Nodup)
    (done : spawnAll setup vm = some vm') :
    Bears setup vm vm' (born setup vm) fun task => task = vm.current ∨ task = .init := by
  have rests := armIntTimer_rests setup vm
  rcases Option.bind_eq_some_iff.mp done with ⟨middle, ofCurrent, ofInit⟩
  have same : births setup (armIntTimer setup vm) vm.current = births setup vm vm.current := by
    rw [births, births, rests.list, due_congr rests.clocktick]
  have first := rests.bears (spawnChildren_bears (rests.list _ ▸ nodup _) ofCurrent)
  rw [rests.current, same] at first
  have nodup' : (middle.info .init).list.Nodup := by
    rw [first.list]
    split_ifs
    · exact (nodup .init).sublist (pending_sublist setup vm .init)
    · exact nodup .init
  have second := spawnChildren_bears nodup' ofInit
  refine ⟨second.clocktick.trans first.clocktick, second.current.trans first.current,
    second.killed.trans first.killed, ?_, fun task => ?_⟩
  · have initBirths := first.births .init
    simp only [@eq_comm _ Task.init] at initBirths
    rw [second.live, first.live, initBirths, born]
    simp
  · rw [second.list, first.pending, first.list]
    by_cases isInit : task = .init
    · simp [isInit]
    · simp [isInit]

/-! ## Cycles -/

theorem taskEnd_rests (lasts : taskEnd setup vm = some (false, vm')) : Rests vm vm' :=
  .of_clocks (taskEnd_ends lasts).1.timeless (taskEnd_clocks lasts) (taskEnd_keeps lasts).2

theorem work_list {result : Bool × Vm} (done : work setup vm = some result) (task : Task) :
    (result.2.info task).list = (vm.info task).list := by
  have same := @worked_withLists vm vm.intwaitlist fun task => (vm.info task).list
  have kept : ((worked vm).info task).list = (vm.info task).list :=
    (lists_of_withLists same).2 task
  rw [← kept]
  change (if ((worked vm).info (worked vm).current).workDuration = 0 then taskEnd setup (worked vm)
    else some (false, worked vm)) = some result at done
  split_ifs at done
  · exact (taskEnd_keeps done).2 task
  · cases done
    rfl

theorem tickSleep_list (done : tickSleep vm = some vm') (task : Task) :
    (vm'.info task).list = (vm.info task).list := by
  rcases intWaitTimer_counts vm with ⟨intWaitTimer, ticked⟩
  simp only [tickSleep, ticked] at done
  split_ifs at done
  · rcases Option.bind_eq_some_iff.mp done with ⟨left, deactivated, done⟩
    have kept := deactivateTask_ignoresLists.keeps deactivated
    cases done
    exact kept.2 task
  · cases done
    rfl

theorem Died.begins (pc : vm.pc = .cycle) (goes : goesDown setup vm = true) (died : Died vm vm')
    (clocks : vm'.clocks = vm.clocks) (list : ∀ task, (vm'.info task).list = (vm.info task).list) :
    Begins setup vm { vm' with pc := .tick } :=
  .dies pc goes (clocks_eq clocks).1 died.live died.killed list

/-- A cycle that its task survives begins those whose time has come. -/
theorem Rests.begins {part : Vm} (pc : vm.pc = .cycle) (lives : goesDown setup vm = false)
    (nodup : ∀ task, (vm.info task).list.Nodup) (rests : Rests vm part)
    (spawned : spawnAll setup part = some vm') : Begins setup vm { vm' with pc := .tick } := by
  have bears := rests.bears (spawnAll_bears (fun task => rests.list task ▸ nodup task) spawned)
  rw [rests.born] at bears
  refine .bears pc lives ⟨bears.clocktick, bears.current, bears.killed, bears.live, fun task => ?_⟩
  rw [← rests.current]
  exact bears.list task

theorem cycle_begins (pc : vm.pc = .cycle) (nodup : ∀ task, (vm.info task).list.Nodup)
    (done : cycle setup vm = some vm') : Begins setup vm { vm' with pc := .tick } := by
  have goes : Died vm vm' → goesDown setup vm = true := by
    intro died
    rcases cycle_times done with ⟨goes, -⟩ | ⟨-, born, spawned⟩
    · exact goes
    · exact absurd (died.killed.symm.trans spawned.killed) (List.cons_ne_self _ _)
  cases cycle_parts done with
  | ends ended =>
      rcases (taskEnd_ends ended).1 with ⟨ends, outcome⟩
      rw [← ends, if_pos rfl] at outcome
      exact outcome.begins pc (goes outcome) (taskEnd_clocks ended) (taskEnd_keeps ended).2
  | inits lasts isInit spawned =>
      have rests := taskEnd_rests lasts
      have lives : goesDown setup vm = false := by
        have outcome := (taskEnd_ends lasts).1.1.symm
        rw [rests.current] at isInit
        rw [Bool.and_comm] at outcome
        simp [goesDown, isInit, outcome]
      exact rests.begins pc lives nodup spawned
  | @finishes first lasts isProcess finished =>
      have rests := taskEnd_rests lasts
      rcases work_goesDown lasts isProcess finished with ⟨ends, outcome⟩
      rw [if_pos ends.symm] at outcome
      refine outcome.begins pc ends.symm ((work_clocks finished).trans (taskEnd_clocks lasts)) ?_
      exact fun task => (work_list finished task).trans (rests.list task)
  | @worksOn first worked asleep lasts isProcess worksOn sleeps spawned =>
      have outcome := work_goesDown lasts isProcess worksOn
      have rests : Rests vm worked := .of_clocks outcome.timeless
        ((work_clocks worksOn).trans (taskEnd_clocks lasts)) fun task =>
          (work_list worksOn task).trans ((taskEnd_keeps lasts).2 task)
      rcases sleeps with rfl | sleeps
      · exact rests.begins pc outcome.1.symm nodup spawned
      · have slept := rests.trans (.of_clocks (tickSleep_timeless sleeps) (tickSleep_clocks sleeps)
          (tickSleep_list sleeps))
        exact slept.begins pc outcome.1.symm nodup spawned

/-! ## Steps -/

theorem wakeAll_list (asleep : List Task) : ∀ {vm vm' : Vm}, wakeAll setup asleep vm = some vm' →
    ∀ task, (vm'.info task).list = (vm.info task).list := by
  induction asleep with
  | nil =>
      intro vm vm' done task
      cases done
      rfl
  | cons sleeper rest induction =>
      intro vm vm' done task
      rcases Option.bind_eq_some_iff.mp done with ⟨woken, enqueued, done⟩
      have kept := ((enqueue_ignoresLists sleeper).keeps enqueued).2 task
      have same := induction done task
      exact same.trans kept

theorem ioEvent_list (done : ioEvent setup vm = some vm') (task : Task) :
    (vm'.info task).list = (vm.info task).list := by
  rcases intTimer_counts vm with ⟨intTimer, ticked, -⟩
  simp only [ioEvent, ticked] at done
  split_ifs at done
  · rcases Option.bind_eq_some_iff.mp done with ⟨woken, wakes, done⟩
    have kept := wakeAll_list _ wakes task
    cases done
    exact kept
  · cases done
    rfl

theorem endCycle_list (setup : Setup) (vm : Vm) (task : Task) :
    ((endCycle setup vm).info task).list = (vm.info task).list := by
  simp only [endCycle]
  split_ifs
  all_goals
    by_cases isInit : task = .init
    · simp [Vm.setInfo, isInit]
    · simp [Vm.setInfo, Function.update_of_ne isInit]

theorem step_begins (armed : vm.intTimer ≠ 0) (nodup : ∀ task, (vm.info task).list.Nodup)
    (taken : step setup vm = some vm') : Begins setup vm vm' := by
  have clock := (step_beats armed taken).clocktick_le
  have others : vm.pc ≠ .cycle → (∀ task, (vm'.info task).list = (vm.info task).list) →
      Begins setup vm vm' := by
    intro idle list
    cases step_timed taken with
    | passes places passes => exact .rests idle clock passes.live passes.killed list
    | switches schedules handover => exact .rests idle clock handover.live handover.killed list
    | spawns pc => exact absurd pc idle
    | dies pc => exact absurd pc idle
  cases step_taken taken with
  | start pc scheduled =>
      have kept := schedule_ignoresLists.keeps scheduled
      exact others (by simp [pc]) kept.2
  | cycle pc cycled => exact cycle_begins pc nodup cycled
  | tick pc =>
      rcases scheduleTick_spec vm with ⟨task, jiffies, timer, place, same, -⟩
      exact others (by simp [pc]) fun other => by rw [same]
  | tickSchedule pc scheduled =>
      have kept := schedule_ignoresLists.keeps scheduled
      exact others (by simp [pc]) kept.2
  | io pc event =>
      have kept := ioEvent_list event
      exact others (by simp [pc]) kept
  | reschedule pc scheduled =>
      have kept := schedule_ignoresLists.keeps scheduled
      exact others (by simp [pc]) kept.2
  | endCycle pc => exact others (by simp [pc]) (endCycle_list setup vm)

/-! ## Runs -/

def unborn (vm : Vm) (child : Nat) : Bool :=
  decide (Task.process child ∉ vm.live ∧ Task.process child ∉ vm.killed)

/-- The lists have the processes that did not begin, and the others began in time. -/
structure Punctual (setup : Setup) (vm : Vm) : Prop where
  list : ∀ task, (vm.info task).list = (setup.profile.children task).filter (unborn vm)
  due : ∀ {child : Nat}, unborn vm child = false → due setup vm child = true

theorem unborn_congr (live : vm'.live = vm.live) (killed : vm'.killed = vm.killed) :
    unborn vm' = unborn vm := by
  funext child
  rw [unborn, live, killed]
  rfl

theorem Punctual.nodup (punctual : Punctual setup vm) (task : Task) :
    (vm.info task).list.Nodup := by
  rw [punctual.list]
  exact (List.nodup_range.filter _).filter _

theorem due_mono (clocktick : vm.clocktick ≤ vm'.clocktick) {child : Nat}
    (isDue : due setup vm child = true) : due setup vm' child = true := by
  simp only [due, decide_eq_true_eq] at isDue ⊢
  exact isDue.trans (by exact_mod_cast clocktick)

theorem mem_births {parent : Task} {child : Nat} : child ∈ births setup vm parent ↔
    setup.profile.spawns parent = true ∧ child ∈ (vm.info parent).list ∧
      due setup vm child = true := by
  unfold births
  split_ifs with spawns
  · simp [spawns]
  · simp [spawns]

theorem due_of_born {child : Nat} (begins : child ∈ born setup vm) : due setup vm child = true := by
  unfold born at begins
  rcases List.mem_append.mp begins with member | member
  · exact (mem_births.mp member).2.2
  · split_ifs at member
    · cases member
    · exact (mem_births.mp member).2.2

theorem Punctual.mem_born (punctual : Punctual setup vm) {parent : Task} {child : Nat}
    (isChild : child ∈ setup.profile.children parent) : child ∈ born setup vm ↔
      (parent = vm.current ∨ parent = .init) ∧ child ∈ births setup vm parent := by
  have only : ∀ {other : Task}, child ∈ births setup vm other → parent = other := by
    intro other member
    have listed := (mem_births.mp member).2.1
    rw [punctual.list] at listed
    have isChild' := (List.mem_filter.mp (List.mem_filter.mp listed).1).2
    have isParent := (List.mem_filter.mp isChild).2
    exact Option.some.inj ((of_decide_eq_true isParent).symm.trans (of_decide_eq_true isChild'))
  unfold born
  rw [List.mem_append]
  constructor
  · rintro (member | member)
    · obtain rfl := only member
      exact ⟨.inl rfl, member⟩
    · split_ifs at member
      · cases member
      · obtain rfl := only member
        exact ⟨.inr rfl, member⟩
  · rintro ⟨rfl | rfl, member⟩
    · exact .inl member
    · by_cases isInit : vm.current = .init
      · exact .inl (isInit ▸ member)
      · rw [if_neg isInit]
        exact .inr member

theorem Begins.punctual (begins : Begins setup vm vm') (punctual : Punctual setup vm)
    (running : vm.pc = .cycle → vm.current ∈ vm.live) : Punctual setup vm' := by
  cases begins with
  | rests idle clocktick live killed list =>
      have same := unborn_congr live killed
      refine ⟨fun task => ?_, fun begun => ?_⟩
      · rw [list, punctual.list, same]
      · exact due_mono clocktick (punctual.due (same ▸ begun))
  | dies pc goes clocktick live killed list =>
      have alive := running pc
      have same : unborn vm' = unborn vm := by
        funext child
        apply decide_eq_decide.mpr
        rw [live, killed, List.mem_cons, not_or]
        by_cases isCurrent : Task.process child = vm.current
        · simp [isCurrent, alive]
        · simp [isCurrent, List.mem_erase_of_ne isCurrent]
      refine ⟨fun task => ?_, fun begun => ?_⟩
      · rw [list, punctual.list, same]
      · exact due_mono clocktick.ge (punctual.due (same ▸ begun))
  | bears pc lives bears =>
      have still : ∀ child, unborn vm' child = true ↔
          unborn vm child = true ∧ child ∉ born setup vm := by
        intro child
        simp only [unborn, decide_eq_true_eq, bears.live, bears.killed, List.mem_append,
          List.mem_reverse, List.mem_map, Task.process.injEq, exists_eq_right, not_or]
        tauto
      refine ⟨fun task => ?_, fun {child} begun => ?_⟩
      · have left : ∀ child ∈ setup.profile.children task, unborn vm' child =
            (unborn vm child && !(decide (task = vm.current ∨ task = .init) &&
              setup.profile.spawns task && due setup vm child)) := by
          intro child isChild
          have listed : child ∈ (vm.info task).list ↔ unborn vm child = true := by
            rw [punctual.list, List.mem_filter, and_iff_right isChild]
          rw [Bool.eq_iff_iff, still, punctual.mem_born isChild, mem_births, listed]
          simp only [Bool.and_eq_true, Bool.not_eq_true', Bool.and_eq_false_iff, decide_eq_false_iff_not]
          grind
        rw [bears.list, List.filter_congr left]
        by_cases parent : task = vm.current ∨ task = .init
        · by_cases spawns : setup.profile.spawns task = true
          · simp [parent, spawns, pending, punctual.list, List.filter_filter, Bool.and_comm]
          · simp [parent, spawns, pending, punctual.list]
        · simp [parent, punctual.list]
      · rw [due_congr bears.clocktick]
        by_cases begins : child ∈ born setup vm
        · exact due_of_born begins
        · apply punctual.due
          by_contra unborn'
          have stays := (still child).mpr ⟨by simpa using unborn', begins⟩
          rw [begun] at stays
          cases stays

theorem punctual_boot (setup : Setup) : Punctual setup (boot setup) := by
  have all : ∀ child, unborn (boot setup) child = true := by
    intro child
    simp [unborn, boot]
  refine ⟨fun task => ?_, fun {child} begun => ?_⟩
  · rw [List.filter_eq_self.mpr fun child _ => all child]
    rfl
  · rw [all] at begun
    cases begun

theorem Reachable.current_live (reachable : Reachable setup vm) (pc : vm.pc = .cycle) :
    vm.current ∈ vm.live := by
  rcases reachable.invariant with ⟨queue, invariant⟩
  have member : vm.current ∈ queue := by
    simpa [Placed, pc] using invariant.place
  exact invariant.population.queued member

theorem Reachable.begins (reachable : Reachable setup vm) (punctual : Punctual setup vm)
    (taken : Vsched.step setup vm = some vm') : Begins setup vm vm' := by
  rcases reachable.invariant with ⟨queue, invariant⟩
  exact step_begins invariant.timer punctual.nodup taken

theorem Reachable.punctual (reachable : Reachable setup vm) : Punctual setup vm := by
  induction reachable with
  | boot => exact punctual_boot setup
  | step reachable taken induction =>
      exact (reachable.begins induction taken).punctual induction reachable.current_live

/-- No process begins before its time in ticks, which is an `int`, or in a step other than a
cycle that its task survives. Such a cycle begins the children of the current task and of init
whose time has come, and leaves none of them behind. The lists have what did not begin, in the
order of the profile. -/
theorem births_of_run (reachable : Reachable setup vm) :
    (∀ task, (vm.info task).list = (setup.profile.children task).filter fun child =>
      decide (.process child ∉ vm.live ∧ .process child ∉ vm.killed)) ∧
    (∀ child, .process child ∈ vm.live ∨ .process child ∈ vm.killed →
      msToTicks (setup.profile.process child).spawnTime ≤ vm.clocktick ∧
        (-4294967 ≤ (setup.profile.process child).spawnTime →
          (setup.profile.process child).spawnTime ≤ 4294967 →
            500 * (setup.profile.process child).spawnTime ≤ vm.clocktick)) ∧
    ∀ next, step setup vm = some next →
      if vm.pc = .cycle ∧ goesDown setup vm = false then
        next.live = ((born setup vm).map Task.process).reverse ++ vm.live ∧
          ∀ parent, parent = vm.current ∨ parent = .init → setup.profile.spawns parent = true →
            ∀ child ∈ setup.profile.children parent,
              msToTicks (setup.profile.process child).spawnTime ≤ vm.clocktick →
                .process child ∈ next.live ∨ .process child ∈ next.killed
      else next.live ⊆ vm.live := by
  have punctual := reachable.punctual
  refine ⟨punctual.list, fun child begun => ?_, fun next taken => ?_⟩
  · have notUnborn : unborn vm child = false := by
      apply decide_eq_false
      tauto
    have began : msToTicks (setup.profile.process child).spawnTime ≤ vm.clocktick :=
      of_decide_eq_true (punctual.due notUnborn)
    refine ⟨began, fun lower upper => ?_⟩
    rw [msToTicks_of_fits lower upper] at began
    exact began
  · have next' := (reachable.step taken).punctual
    cases reachable.begins punctual taken with
    | rests idle clocktick live killed list =>
        rw [if_neg fun cycles => idle cycles.1, live]
        exact List.Subset.refl _
    | dies pc goes clocktick live killed list =>
        have ends : ¬(vm.pc = .cycle ∧ goesDown setup vm = false) := by simp [goes]
        rw [if_neg ends, live]
        exact List.erase_subset
    | bears pc lives bears =>
        rw [if_pos ⟨pc, lives⟩]
        refine ⟨bears.live, fun parent isParent spawns child isChild time => ?_⟩
        by_contra neither
        have listed : child ∈ (next.info parent).list := by
          rw [next'.list, List.mem_filter]
          refine ⟨isChild, decide_eq_true ?_⟩
          tauto
        rw [bears.list, if_pos isParent, pending, if_pos spawns] at listed
        have early := (List.mem_filter.mp listed).2
        have isDue : due setup vm child = true := decide_eq_true time
        simp [isDue] at early

/-- The lone process begins in the first cycle. -/
theorem births_of_run_lone : ∃ vm next, step loneTask (boot loneTask) = some vm ∧
    step loneTask vm = some next ∧ (.process 0 ∈ next.live ∨ .process 0 ∈ next.killed) := by
  have reachable : Reachable loneTask _ := .step .boot rfl
  refine ⟨_, _, rfl, rfl, ?_⟩
  have begins := (births_of_run reachable).2.2 _ rfl
  rw [if_pos ⟨rfl, rfl⟩] at begins
  exact begins.2 .init (.inr rfl) rfl 0 (by decide) (by decide)

end

end CE321.Vsched
