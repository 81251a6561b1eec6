import CE321.Vsched.Transfers

/-! # The ends of tasks

What becomes of the run queue and the family when the current task is killed, and what a
whole `cycle` does to them.
-/

namespace CE321.Vsched

section

variable {setup : Setup} {vm vm' : Vm} {queue : List Task}

/-! ## `killtask` -/

theorem report_timing (vm : Vm) (j : Task) :
    ∃ timed results, Timing vm timed ∧ report vm j = { timed with results := results } := by
  simp only [report]
  generalize schedClock vm = now
  split_ifs
  · refine ⟨_, _, ?_, rfl⟩
    exact timing_setTask vm j rfl rfl rfl
  · exact ⟨vm.setTask j fun t =>
      { t with xd := sub64 now t.xd, xa := sub64 (sub64 now t.xd) t.xe }, vm.results,
      timing_setTask vm j rfl rfl rfl, rfl⟩

theorem report_rest (vm : Vm) (j : Task) :
    ∃ task results, report vm j = { vm with task := task, results := results } := by
  rcases report_timing vm j with ⟨timed, results, ⟨⟨task, rfl⟩, -, -⟩, done⟩
  exact ⟨task, results, done⟩

theorem killtask_rest (setup : Setup) (vm : Vm) :
    ∃ task info results, killtask setup vm = { vm with
      task := task
      info := info
      results := results
      current := .idle
      live := vm.live.erase vm.current
      killed := vm.current :: vm.killed } := by
  rcases report_rest vm vm.current with ⟨task, results, reported⟩
  simp only [killtask, reported]
  split
  · split_ifs
    · exact ⟨_, _, _, rfl⟩
    · exact ⟨_, _, _, rfl⟩
  · split_ifs
    · exact ⟨_, _, _, rfl⟩
    · exact ⟨_, _, _, rfl⟩

/-- The parent of the killed task has a child less. -/
theorem killtask_info (setup : Setup) (vm : Vm) : (killtask setup vm).info =
    match setup.profile.parent vm.current with
    | some parent => (vm.setInfo parent fun info => { info with children := info.children - 1 }).info
    | none => vm.info := by
  rcases report_rest vm vm.current with ⟨task, results, reported⟩
  cases isParent : setup.profile.parent vm.current with
  | none => simp only [killtask, reported, isParent, apply_ite Vm.info, Vm.setTask, ite_self]
  | some of =>
      simp only [killtask, reported, isParent, apply_ite Vm.info, Vm.setTask, ite_self]
      rfl

theorem killtask_children (setup : Setup) (vm : Vm) (other : Task) :
    ((killtask setup vm).info other).children =
      if setup.profile.parent vm.current = some other then (vm.info other).children - 1
      else (vm.info other).children := by
  rw [killtask_info]
  split
  · next of isParent =>
      by_cases same : other = of
      · subst same
        simp [Vm.setInfo, isParent]
      · have notSame : ¬of = other := fun same' => same same'.symm
        simp [Vm.setInfo, isParent, same, notSame]
  · next isParent => simp [isParent]

theorem killtask_kept (setup : Setup) (vm : Vm) (other : Task) :
    ((killtask setup vm).info other).list = (vm.info other).list ∧
      ((killtask setup vm).info other).workDuration = (vm.info other).workDuration ∧
      ((killtask setup vm).info other).kill = (vm.info other).kill := by
  rw [killtask_info]
  split
  · next of _ =>
      simp only [Vm.setInfo, Function.update_apply]
      split_ifs with same
      · simp [same]
      · exact ⟨rfl, rfl, rfl⟩
  · exact ⟨rfl, rfl, rfl⟩

theorem killtask_task (setup : Setup) (vm : Vm) : ∃ timed, Timing vm timed ∧
    (killtask setup vm).task = if vm.nrRunning ≠ 0 then
      (timed.setTask .idle fun t => { t with needReschedule := true }).task else timed.task := by
  rcases report_timing vm vm.current with ⟨timed, results, timing, reported⟩
  refine ⟨timed, timing, ?_⟩
  rcases timing.rest with ⟨task, rfl⟩
  cases isParent : setup.profile.parent vm.current with
  | none =>
      simp only [killtask, reported, isParent, apply_ite Vm.task]
      rfl
  | some of =>
      simp only [killtask, reported, isParent, apply_ite Vm.task]
      rfl

theorem killtask_links (setup : Setup) (vm : Vm) (other : Task) :
    ((killtask setup vm).task other).next = (vm.task other).next ∧
      ((killtask setup vm).task other).prev = (vm.task other).prev := by
  rcases killtask_task setup vm with ⟨timed, timing, done⟩
  rw [done]
  split_ifs
  · have links := @sameLinks_setTask timed .idle (fun t => { t with needReschedule := true })
      rfl rfl
    exact ⟨(links.next other).trans (timing.links.next other),
      (links.prev other).trans (timing.links.prev other)⟩
  · exact ⟨timing.links.next other, timing.links.prev other⟩

theorem killtask_flag (setup : Setup) (vm : Vm) :
    ((killtask setup vm).task .idle).needReschedule =
      if vm.nrRunning ≠ 0 then true else (vm.task .idle).needReschedule := by
  rcases killtask_task setup vm with ⟨timed, timing, done⟩
  rw [done]
  split_ifs
  · simp [Vm.setTask]
  · exact timing.needReschedule .idle

/-! ## `taskEnd` -/

/-- The current task is killed. -/
structure Ended (setup : Setup) (vm vm' : Vm) : Prop where
  population : ∃ queue, Population setup vm' queue ∧
    if queue = [] then vm.current = .init ∧
      (vm'.task .idle).needReschedule = (vm.task .idle).needReschedule
    else (vm'.task .idle).needReschedule = true
  current : vm'.current = .idle
  live : vm'.live = vm.live.erase vm.current
  killed : vm'.killed = vm.current :: vm.killed
  timer : vm'.intTimer = vm.intTimer
  clocktick : vm'.clocktick = vm.clocktick
  asleep : vm'.intwaitlist = vm.intwaitlist
  list : ∀ other, (vm'.info other).list = (vm.info other).list
  kill : ∀ other, other ≠ vm.current → (vm'.info other).kill = (vm.info other).kill

theorem Population.init_alone (population : Population setup vm queue) (member : .init ∈ queue)
    (childless : (vm.info .init).children = 0) : queue = [.init] := by
  have alone := population.lineage.init_alone (population.queued member) childless
  rcases population.head (population.queued member) with ⟨behind, rfl⟩
  cases behind with
  | nil => rfl
  | cons second rest =>
      have isInit := alone second (population.queued (by simp))
      have nodup := population.lists.runQueue.nodup
      simp [isInit] at nodup

theorem Population.kill (population : Population setup vm queue) (member : vm.current ∈ queue)
    (childless : (vm.info vm.current).children = 0) :
    ∃ left, deactivateTask vm vm.current = some left ∧ Ended setup vm (killtask setup left) := by
  have alive := population.queued member
  have last : vm.current = .init → queue = [.init] := fun isInit =>
    population.init_alone (isInit ▸ member) (isInit ▸ childless)
  rcases population.lists.runQueue.deactivateTask member last with
    ⟨left, done, runQueue, ⟨links, nrRunning, rfl⟩, flags⟩
  refine ⟨_, done, ?_⟩
  rcases killtask_rest setup { vm with task := links, nrRunning := nrRunning } with
    ⟨task, info, results, killed⟩
  have kills := killtask_links setup { vm with task := links, nrRunning := nrRunning }
  have children := killtask_children setup { vm with task := links, nrRunning := nrRunning }
  have kept := killtask_kept setup { vm with task := links, nrRunning := nrRunning }
  have flag := killtask_flag setup { vm with task := links, nrRunning := nrRunning }
  rw [killed] at kills children kept flag ⊢
  refine ⟨⟨queue.erase vm.current, ⟨⟨?_, ?_, ?_⟩, ?_⟩, ?_⟩, rfl, rfl, rfl, rfl, rfl, rfl,
    fun other => (kept other).1, fun other _ => (kept other).2.2⟩
  · exact runQueue.frame rfl rfl (fun other => (kills other).1) fun other _ => (kills other).2
  · have listed := population.lists.perm.erase vm.current
    rwa [List.erase_append_left _ member] at listed
  · exact population.lists.awake
  · exact population.lineage.kill alive childless children (fun other => (kept other).1)
      (kept .init).2.1
  · split_ifs with extinct
    · have isInit : vm.current = .init := by
        rcases population.head alive with ⟨behind, rfl⟩
        by_contra notInit
        rw [List.erase_cons_tail (by simpa using Ne.symm notInit)] at extinct
        cases extinct
      refine ⟨isInit, ?_⟩
      have count : nrRunning = 0 := by
        have length := runQueue.count
        rwa [extinct] at length
      refine flag.trans ?_
      rw [if_neg (not_not.mpr count)]
      exact flags .idle
    · have count : nrRunning ≠ 0 := fun zero =>
        extinct (List.eq_nil_of_length_eq_zero (runQueue.count.symm.trans zero))
      refine flag.trans ?_
      rw [if_pos count]

/-- A kill message that init gets is the only reason for it to end. -/
theorem isEnding_init (population : Population setup vm queue) (isInit : vm.current = .init) :
    isEnding setup vm = (vm.info .init).kill := by
  simp [isEnding, isInit, Profile.parent, Profile.killTime, population.lineage.initWork]

theorem Population.mark (population : Population setup vm queue) (task : Task)
    {change : ThreadInfo → ThreadInfo}
    (children : (change (vm.info task)).children = (vm.info task).children)
    (list : (change (vm.info task)).list = (vm.info task).list)
    (initWork : task = .init →
      (change (vm.info task)).workDuration = (vm.info task).workDuration) :
    Population setup (vm.setInfo task change) queue := by
  refine ⟨⟨population.lists.runQueue.frame rfl rfl (fun _ => rfl) fun _ _ => rfl,
    population.lists.perm, population.lists.awake⟩, population.lineage.frame ?_ ?_ ?_⟩
  · intro other
    by_cases same : other = task
    · subst same
      simpa [Vm.setInfo] using children
    · simp [Vm.setInfo, same]
  · intro other
    by_cases same : other = task
    · subst same
      simpa [Vm.setInfo] using list
    · simp [Vm.setInfo, same]
  · by_cases same : .init = task
    · subst same
      simpa [Vm.setInfo] using initWork rfl
    · simp [Vm.setInfo, same]

/-- Only data of the current task change, and not its list. -/
def Marks (vm : Vm) (info : Task → ThreadInfo) : Prop :=
  ∀ other, (info other).list = (vm.info other).list ∧
    (other ≠ vm.current → info other = vm.info other)

theorem marks_setInfo (vm : Vm) {change : ThreadInfo → ThreadInfo}
    (list : (change (vm.info vm.current)).list = (vm.info vm.current).list) :
    Marks vm (vm.setInfo vm.current change).info := by
  intro other
  by_cases same : other = vm.current
  · exact ⟨by simpa [Vm.setInfo, same] using list, fun away => absurd same away⟩
  · simp [Vm.setInfo, same]

theorem Marks.trans {info info' : Task → ThreadInfo} (first : Marks vm info)
    (second : Marks { vm with info := info } info') : Marks vm info' := fun other =>
  ⟨(second other).1.trans (first other).1,
    fun away => ((second other).2 away).trans ((first other).2 away)⟩

theorem Ended.marked {info : Task → ThreadInfo} (ended : Ended setup { vm with info := info } vm')
    (marks : Marks vm info) : Ended setup vm vm' where
  population := ended.population
  current := ended.current
  live := ended.live
  killed := ended.killed
  timer := ended.timer
  clocktick := ended.clocktick
  asleep := ended.asleep
  list := fun other => (ended.list other).trans (marks other).1
  kill := fun other away => (ended.kill other away).trans
    (congrArg ThreadInfo.kill ((marks other).2 away))

/-- `taskEnd` kills the current task, or changes nothing but what is known of it. -/
inductive TaskEnds (setup : Setup) (vm : Vm) (queue : List Task) : Option (Bool × Vm) → Prop
  | stays (info : Task → ThreadInfo) (marks : Marks vm info) (population : Population setup { vm with info := info } queue) :
      TaskEnds setup vm queue (some (false, { vm with info := info }))
  | ends (vm' : Vm) (message : vm.current = .init → (vm.info .init).kill = true)
      (childless : (vm.info vm.current).children = 0) (ended : Ended setup vm vm') :
      TaskEnds setup vm queue (some (true, vm'))

theorem Population.taskEnd (population : Population setup vm queue) (member : vm.current ∈ queue) :
    TaskEnds setup vm queue (Vsched.taskEnd setup vm) := by
  simp only [Vsched.taskEnd]
  have marked := @Population.mark setup vm queue population vm.current
    (fun info => { info with kill := true }) rfl rfl fun _ => rfl
  have marks := @marks_setInfo vm (fun info => { info with kill := true }) rfl
  split_ifs with ending childless
  · have childless' : (vm.info vm.current).children = 0 := by
      simpa [Vm.setInfo] using childless
    rcases marked.kill member childless with ⟨left, done, ended⟩
    rw [done]
    refine TaskEnds.ends (killtask setup left) (fun isInit => ?_) childless' ?_
    · rwa [isEnding_init population isInit] at ending
    · exact ended.marked marks
  · exact TaskEnds.stays _ marks marked
  · exact TaskEnds.stays vm.info (fun _ => ⟨rfl, fun _ => rfl⟩) population

/-! ## `cycle` -/

/-- What becomes of the current task in a cycle. -/
inductive Cycled (setup : Setup) (vm : Vm) : Vm → Prop
  | lives {vm' : Vm} {queue : List Task} (population : Population setup vm' queue)
      (survives : Survives vm vm') (hasTask : queue ≠ [])
      (settled : vm'.current ∈ queue ∨ (vm'.task vm'.current).needReschedule = true) :
      Cycled setup vm vm'
  | dies {vm' : Vm} (childless : (vm.info vm.current).children = 0)
      (message : vm.current = .init → (vm.info .init).kill = true) (ended : Ended setup vm vm') :
      Cycled setup vm vm'

theorem Population.work (population : Population setup vm queue) (member : vm.current ∈ queue)
    (notInit : vm.current ≠ .init) : TaskEnds setup vm queue (Vsched.work setup vm) := by
  have worked : ∃ info, (if (vm.info vm.current).workDuration > 0 then
      vm.setInfo vm.current fun info => { info with workDuration := info.workDuration - 1 }
      else vm) = { vm with info := info } ∧ Population setup { vm with info := info } queue ∧
      (info vm.current).children = (vm.info vm.current).children ∧ Marks vm info := by
    split_ifs
    · refine ⟨_, rfl, @Population.mark setup vm queue population vm.current
        (fun info => { info with workDuration := info.workDuration - 1 }) rfl rfl
        fun isInit => absurd isInit notInit, ?_,
        @marks_setInfo vm (fun info => { info with workDuration := info.workDuration - 1 }) rfl⟩
      simp
    · exact ⟨vm.info, rfl, population, rfl, fun _ => ⟨rfl, fun _ => rfl⟩⟩
  rcases worked with ⟨info, worked, population', children, marks⟩
  simp only [Vsched.work, worked]
  split_ifs
  · have ends := @Population.taskEnd setup { vm with info := info } queue population' member
    cases result : Vsched.taskEnd setup { vm with info := info } with
    | none =>
        rw [result] at ends
        cases ends
    | some pair =>
        rw [result] at ends
        cases ends with
        | stays info' marks' population => exact TaskEnds.stays info' (marks.trans marks') population
        | ends vm' message childless ended =>
            exact TaskEnds.ends vm' (fun isInit => absurd isInit notInit)
              (children.symm.trans childless) (ended.marked marks)
  · exact TaskEnds.stays info marks population'

theorem Population.spawns {part : Vm} (population : Population setup part queue)
    (survives : Survives vm part) (running : part.current ∈ part.live)
    (settled : part.current ∈ queue ∨ (part.task part.current).needReschedule = true) :
    ∃ vm', Vsched.spawnAll setup part = some vm' ∧ Cycled setup vm vm' := by
  rcases population.spawnAll running with ⟨vm', queue', done, population', grows, survives'⟩
  refine ⟨vm', done, .lives population' (survives.trans survives') ?_ ?_⟩
  · rcases population'.head (survives'.live running) with ⟨behind, rfl⟩
    exact List.cons_ne_nil _ _
  · rcases settled with queued | raised
    · exact .inl (grows (survives'.current ▸ queued))
    · exact .inr (survives'.current ▸ survives'.flag raised)

theorem Population.cycleProcess (population : Population setup vm queue)
    (member : vm.current ∈ queue) {info : Task → ThreadInfo}
    (marked : Population setup { vm with info := info } queue) (marks : Marks vm info)
    (notInit : vm.current ≠ .init)
    (sleep : Vm → Option Vm)
    (sleeps : ∀ {part : Vm}, Population setup part queue → part.current = vm.current →
      ∃ vm' queue', sleep part = some vm' ∧ Population setup vm' queue' ∧ Survives part vm' ∧
        (vm'.current ∈ queue' ∨ (vm'.task vm'.current).needReschedule = true)) :
    ∃ vm', (do
      let (ended, vm) ← Vsched.work setup { vm with info := info }
      if ended then pure vm
      else
        let vm ← sleep vm
        Vsched.spawnAll setup vm) = some vm' ∧ Cycled setup vm vm' := by
  have alive := population.queued member
  have ends := marked.work member notInit
  cases result : Vsched.work setup { vm with info := info } with
  | none =>
      rw [result] at ends
      cases ends
  | some pair =>
      rw [result] at ends
      cases ends with
      | ends vm' message childless ended =>
          refine ⟨vm', rfl, .dies ?_ (fun isInit => absurd isInit notInit) ?_⟩
          · exact (population.lineage.children _ alive).trans
              ((marked.lineage.children _ alive).symm.trans childless)
          · exact ended.marked marks
      | stays info' _ worked =>
          rcases sleeps worked rfl with ⟨asleep, queue', done, population', survives, settled⟩
          have survives' : Survives vm asleep :=
            ⟨survives.current, survives.live, survives.killed, survives.flag, survives.idle,
              survives.timer⟩
          rcases population'.spawns survives' (survives'.current ▸ survives'.live alive) settled
            with ⟨vm', spawned, cycled⟩
          refine ⟨vm', ?_, cycled⟩
          rw [← spawned]
          show (sleep _).bind (Vsched.spawnAll setup) = _
          rw [done, Option.bind_some]

theorem Population.cycle (population : Population setup vm queue) (member : vm.current ∈ queue) :
    ∃ vm', Vsched.cycle setup vm = some vm' ∧ Cycled setup vm vm' := by
  have ends := population.taskEnd member
  simp only [Vsched.cycle]
  cases result : Vsched.taskEnd setup vm with
  | none =>
      rw [result] at ends
      cases ends
  | some pair =>
      rw [result] at ends
      cases ends with
      | ends vm' message childless ended => exact ⟨vm', rfl, .dies childless message ended⟩
      | stays info marks marked =>
          have survives : Survives vm { vm with info := info } :=
            ⟨rfl, fun _ => id, rfl, id, fun _ => rfl, id⟩
          simp only [Option.bind_eq_bind, Option.bind_some]
          cases kind : setup.profile.threadType vm.current with
          | init => exact marked.spawns survives (population.queued member) (.inl member)
          | interactive =>
              have notInit : vm.current ≠ .init := by
                intro isInit
                rw [isInit] at kind
                cases kind
              exact population.cycleProcess member marked marks notInit Vsched.tickSleep
                fun worked same => worked.tickSleep (same ▸ member) (same ▸ notInit)
          | noninteractive =>
              have notInit : vm.current ≠ .init := by
                intro isInit
                rw [isInit] at kind
                cases kind
              exact population.cycleProcess member marked marks notInit some
                fun worked same => ⟨_, queue, rfl, worked, Survives.refl _, .inl (same ▸ member)⟩

end

end CE321.Vsched
