import CE321.Vsched.Endings

/-! # Runs of the machine

The invariant of the machine at each of its places, and that every step keeps it.
-/

namespace CE321.Vsched

/-- Where the current task is. Behind a cycle it may be asleep or dead, and then it has
asked to be rescheduled or there is nothing left to run. -/
def Placed (vm : Vm) (queue : List Task) : Prop :=
  match vm.pc with
  | .start => queue = [.init]
  | .cycle => vm.current ∈ queue
  | .tick => vm.current ∈ queue ∨ (vm.task vm.current).needReschedule = true ∨ queue = []
  | .tickSchedule => vm.current ∈ queue
  | .io => vm.current ∈ queue ∨ (vm.task vm.current).needReschedule = true ∨ queue = []
  | .reschedule => True
  | .endCycle => vm.current ∈ queue ∨ queue = []
  | .halted => queue = []

structure Invariant (setup : Setup) (vm : Vm) (queue : List Task) : Prop where
  population : Population setup vm queue
  place : Placed vm queue
  timer : vm.intTimer ≠ 0
  idle : vm.current ≠ .idle → (vm.task .idle).needReschedule = false

/-- A step kills the current task, which has no children, or nobody. -/
def Spares (vm next : Vm) : Prop :=
  (next.killed = vm.killed ∧ vm.live ⊆ next.live) ∨
    (next.killed = vm.current :: vm.killed ∧ next.live = vm.live.erase vm.current ∧
      (vm.info vm.current).children = 0 ∧ vm.current ∈ vm.live)

section

variable {setup : Setup} {vm next : Vm} {queue : List Task}

/-! ## The parts of an iteration -/

theorem Timing.refl (vm : Vm) : Timing vm vm := ⟨⟨vm.task, rfl⟩, SameLinks.refl vm, fun _ => rfl⟩

theorem schedulerTick_timing (vm : Vm) (p : Task) : Timing vm (schedulerTick vm p).1 := by
  simp only [schedulerTick]
  split_ifs
  · exact Timing.refl vm
  · dsimp only
    exact (timing_setTask vm p rfl rfl rfl).trans (timing_setTask _ p rfl rfl rfl)
  · dsimp only
    exact timing_setTask vm p rfl rfl rfl
  · exact Timing.refl vm

theorem scheduleTick_spec (vm : Vm) : ∃ task jiffies timer pc,
    scheduleTick vm = { vm with task := task, jiffies := jiffies, timer := timer, pc := pc } ∧
    Timing vm { vm with task := task } ∧
    (pc = .io ∨ pc = .tickSchedule ∧ (vm.task vm.current).next ≠ none) := by
  rcases timer_counts vm with ⟨timer, ticked, -⟩
  have timing := schedulerTick_timing
    { vm with timer := msToTicks 10, jiffies := vm.jiffies + 1 } vm.current
  rcases timing.rest with ⟨task, same⟩
  rw [same] at timing
  have timing' : Timing vm { vm with task := task } :=
    ⟨⟨task, rfl⟩, ⟨rfl, rfl, timing.links.next, timing.links.prev⟩, timing.needReschedule⟩
  simp only [scheduleTick, ticked]
  split_ifs with expired queued calls
  · rw [same]
    exact ⟨task, _, _, _, rfl, timing', .inr ⟨rfl, queued⟩⟩
  · rw [same]
    exact ⟨task, _, _, _, rfl, timing', .inl rfl⟩
  · exact ⟨vm.task, _, _, _, rfl, Timing.refl vm, .inl rfl⟩
  · exact ⟨vm.task, vm.jiffies, timer, _, rfl, Timing.refl vm, .inl rfl⟩

theorem Population.ioEvent (population : Population setup vm queue) (armed : vm.intTimer ≠ 0) :
    ∃ vm' queue', Vsched.ioEvent setup vm = some vm' ∧ Population setup vm' queue' ∧
      queue ⊆ queue' ∧ Survives vm vm' ∧ vm'.live = vm.live ∧
      (vm.intTimer = 1 → (vm'.task vm'.current).needReschedule = true) ∧
      (vm.intTimer ≠ 1 → vm'.task = vm.task) := by
  rcases intTimer_counts vm with ⟨intTimer, ticked, counted⟩
  have expires : intTimer = 0 ↔ vm.intTimer = 1 := counted.trans (or_iff_right armed)
  have population' : ∀ timer, Population setup { vm with intTimer := timer } queue := fun _ =>
    ⟨⟨population.lists.runQueue.frame rfl rfl (fun _ => rfl) fun _ _ => rfl,
      population.lists.perm, population.lists.awake⟩, population.lineage⟩
  simp only [Vsched.ioEvent, ticked]
  split_ifs with fires
  · rcases (population' (intTimer - 1)).wakeAll _ rfl with
      ⟨woken, queue', done, population'', grows, survives, live⟩
    refine ⟨_, queue', Option.bind_eq_some_iff.mpr ⟨woken, done, rfl⟩, ⟨⟨?_, ?_, ?_⟩, ?_⟩, grows,
      ⟨?_, ?_, ?_, ?_, ?_, ?_⟩, live, fun _ => by simp [Vm.setTask],
      fun awaits => absurd (expires.mp fires) awaits⟩
    · exact population''.lists.runQueue.same (sameLinks_setTask woken woken.current rfl rfl)
    · exact population''.lists.perm
    · exact population''.lists.awake
    · exact population''.lineage
    · exact survives.current
    · exact survives.live
    · exact survives.killed
    · intro _
      simp [Vm.setTask, survives.current]
    · intro notIdle
      have away : Task.idle ≠ vm.current := fun same => notIdle same.symm
      simpa [Vm.setTask, survives.current, away] using survives.idle notIdle
    · intro _
      exact survives.timer (show intTimer - 1 ≠ 0 by omega)
  · exact ⟨_, queue, rfl, population' intTimer, fun _ => id,
      ⟨rfl, fun _ => id, rfl, id, fun _ => rfl, fun _ => fires⟩, rfl,
      fun isOne => absurd (expires.mpr isOne) fires, fun _ => rfl⟩

/-! ## Steps -/

theorem lineage_boot (setup : Setup) :
    Lineage setup.profile (boot setup).info (boot setup).live (boot setup).killed := by
  constructor
  · exact ⟨List.nodup_singleton _, fun child isInit of isChild => by
      rw [List.mem_singleton.mp isInit] at isChild
      cases isChild⟩
  · intro task isInit
    rw [List.mem_singleton.mp isInit]
    exact List.mem_cons_self
  · intro task _
    simp [boot, childrenOf, Profile.parent]
  · intro task child pending
    have listed : child ∈ setup.profile.children task := pending
    simp only [Profile.children, List.mem_filter, List.mem_range, decide_eq_true_eq] at listed
    refine ⟨listed.2, ?_, ?_, List.not_mem_nil⟩
    · exact List.mem_cons_of_mem _ (List.mem_map_of_mem (List.mem_range.mpr listed.1))
    · simp [boot]
  · intro task
    exact List.Nodup.filter _ List.nodup_range
  · exact fun _ _ => List.not_mem_nil
  · exact List.nodup_nil
  · exact fun initKilled => absurd initKilled List.not_mem_nil
  · rfl

theorem invariant_boot (setup : Setup) : Invariant setup (boot setup) [.init] := by
  refine ⟨⟨⟨⟨rfl, ?_, rfl, ?_⟩, List.Perm.refl _, List.not_mem_nil⟩, ?_⟩, rfl, ?_, ?_⟩
  · exact fun _ => ⟨[], rfl, ⟨rfl, rfl, trivial⟩, List.nodup_singleton _⟩
  · intro task
    cases task with
    | idle => simp [boot, createTask]
    | init => simp [boot, createTask]
    | process index => simp [boot, createTask]
  · exact lineage_boot setup
  · show (-1 : Int) ≠ 0
    decide
  · exact fun notIdle => absurd rfl notIdle

theorem Invariant.schedule (invariant : Invariant setup vm queue)
    (scheduled : Vsched.schedule setup vm = some next) (timer : Int) (pc : Pc)
    (pcs : pc = .cycle ∨ pc = .io ∨ pc = .endCycle) :
    Invariant setup { next with timer := timer, pc := pc } queue ∧
      Spares vm { next with timer := timer, pc := pc } := by
  have population := invariant.population
  rcases population.lists.runQueue.schedule population.length_le scheduled with
    ⟨member, ⟨task, current, intWaitTimer, drawn, rfl⟩, links, flags⟩
  refine ⟨⟨⟨⟨?_, population.lists.perm, population.lists.awake⟩, population.lineage⟩, ?_,
    invariant.timer, fun _ => ?_⟩, .inl ⟨rfl, fun _ => id⟩⟩
  · exact (population.lists.runQueue.same links).frame rfl rfl (fun _ => rfl) fun _ _ => rfl
  · rcases pcs with rfl | rfl | rfl
    · exact member
    · exact .inl member
    · exact .inl member
  · refine (flags .idle).trans ?_
    split_ifs with isCurrent
    · rfl
    · exact invariant.idle fun same => isCurrent same.symm

theorem Invariant.cycle (invariant : Invariant setup vm queue) (member : vm.current ∈ queue)
    (cycled : Cycled setup vm next) :
    ∃ queue', Invariant setup { next with pc := .tick } queue' ∧
      Spares vm { next with pc := .tick } := by
  have notIdle : vm.current ≠ .idle := fun same =>
    invariant.population.idle_not_mem (same ▸ member)
  cases cycled with
  | lives population survives hasTask settled =>
      refine ⟨_, ⟨⟨⟨population.lists.runQueue.frame rfl rfl (fun _ => rfl) fun _ _ => rfl,
        population.lists.perm, population.lists.awake⟩, population.lineage⟩, ?_,
        survives.timer invariant.timer, fun _ => ?_⟩, .inl ⟨survives.killed, survives.live⟩⟩
      · rcases settled with queued | raised
        · exact .inl queued
        · exact .inr (.inl raised)
      · exact (survives.idle notIdle).trans (invariant.idle notIdle)
  | dies childless message ended =>
      rcases ended.population with ⟨queue', population, flag⟩
      refine ⟨queue', ⟨⟨⟨population.lists.runQueue.frame rfl rfl (fun _ => rfl) fun _ _ => rfl,
        population.lists.perm, population.lists.awake⟩, population.lineage⟩, ?_, ?_, ?_⟩,
        .inr ⟨ended.killed, ended.live, childless, invariant.population.queued member⟩⟩
      · split_ifs at flag with extinct
        · exact .inr (.inr extinct)
        · exact .inr (.inl (ended.current.symm ▸ flag))
      · exact ended.timer.symm ▸ invariant.timer
      · exact fun notIdle' => absurd ended.current notIdle'

theorem Invariant.tick (invariant : Invariant setup vm queue) (pc : vm.pc = .tick) :
    Invariant setup (scheduleTick vm) queue ∧ Spares vm (scheduleTick vm) := by
  have population := invariant.population
  have place : vm.current ∈ queue ∨ (vm.task vm.current).needReschedule = true ∨ queue = [] := by
    simpa [Placed, pc] using invariant.place
  rcases scheduleTick_spec vm with ⟨task, jiffies, timer, pc', ticked, timing, calls⟩
  rw [ticked]
  refine ⟨⟨⟨⟨?_, population.lists.perm, population.lists.awake⟩, population.lineage⟩, ?_,
    invariant.timer, ?_⟩, .inl ⟨rfl, fun _ => id⟩⟩
  · exact (population.lists.runQueue.same timing.links).frame rfl rfl (fun _ => rfl) fun _ _ => rfl
  · rcases calls with rfl | ⟨rfl, queued⟩
    · rcases place with member | raised | extinct
      · exact .inl member
      · exact .inr (.inl ((timing.needReschedule vm.current).trans raised))
      · exact .inr (.inr extinct)
    · exact not_not.mp fun away => queued ((population.lists.runQueue.linked _).mpr away)
  · exact fun notIdle => (timing.needReschedule .idle).trans (invariant.idle notIdle)

theorem Invariant.io (invariant : Invariant setup vm queue) (pc : vm.pc = .io)
    (done : Vsched.ioEvent setup vm = some next) :
    ∃ queue', Invariant setup { next with
        clocktick := next.clocktick + 1
        pc := if (next.task next.current).needReschedule then .reschedule else .endCycle } queue' ∧
      Spares vm { next with
        clocktick := next.clocktick + 1
        pc := if (next.task next.current).needReschedule then .reschedule else .endCycle } := by
  have place : vm.current ∈ queue ∨ (vm.task vm.current).needReschedule = true ∨ queue = [] := by
    simpa [Placed, pc] using invariant.place
  rcases invariant.population.ioEvent invariant.timer with
    ⟨vm', queue', done', population, grows, survives, live, -, -⟩
  rw [done] at done'
  cases done'
  refine ⟨queue', ⟨⟨⟨population.lists.runQueue.frame rfl rfl (fun _ => rfl) fun _ _ => rfl,
    population.lists.perm, population.lists.awake⟩, population.lineage⟩, ?_,
    survives.timer invariant.timer, ?_⟩, .inl ⟨survives.killed, survives.live⟩⟩
  · by_cases raised : (next.task next.current).needReschedule = true
    · simp only [Placed, raised, if_true]
    · simp only [Placed, raised, if_false, Bool.false_eq_true]
      rcases place with member | before | extinct
      · exact .inl (grows (survives.current.symm ▸ member))
      · exact absurd (survives.current.symm ▸ survives.flag before) raised
      · right
        subst extinct
        apply List.eq_nil_iff_forall_not_mem.mpr
        intro task member
        have alive := population.queued member
        rw [live, invariant.population.extinct] at alive
        cases alive
  · intro notIdle
    have notIdle' : vm.current ≠ .idle := survives.current ▸ notIdle
    exact (survives.idle notIdle').trans (invariant.idle notIdle')

theorem Invariant.endCycle (invariant : Invariant setup vm queue) (pc : vm.pc = .endCycle) :
    Invariant setup (Vsched.endCycle setup vm) queue ∧ Spares vm (Vsched.endCycle setup vm) := by
  have place : vm.current ∈ queue ∨ queue = [] := by
    simpa [Placed, pc] using invariant.place
  have marked : ∃ info, (if !(vm.info .init).kill &&
      decide (setup.ticksToMs vm.clocktick ≥ setup.profile.endtime) then
      vm.setInfo .init fun info => { info with kill := true } else vm) = { vm with info := info } ∧
      Population setup { vm with info := info } queue := by
    split_ifs
    · exact ⟨_, rfl, @Population.mark setup vm queue invariant.population .init
        (fun info => { info with kill := true }) rfl rfl fun _ => rfl⟩
    · exact ⟨vm.info, rfl, invariant.population⟩
  rcases marked with ⟨info, marked, population⟩
  simp only [Vsched.endCycle, marked]
  refine ⟨⟨⟨⟨population.lists.runQueue.frame rfl rfl (fun _ => rfl) fun _ _ => rfl,
    population.lists.perm, population.lists.awake⟩, population.lineage⟩, ?_, invariant.timer,
    invariant.idle⟩, .inl ⟨rfl, fun _ => id⟩⟩
  have count : vm.nrRunning = queue.length := invariant.population.lists.runQueue.count
  by_cases running : vm.nrRunning ≠ 0
  · simp only [Placed, running, if_true, ne_eq, not_false_iff]
    apply place.resolve_right
    rintro rfl
    exact running count
  · rw [not_not] at running
    simp only [Placed, running, if_false, ne_eq, not_true]
    exact List.eq_nil_of_length_eq_zero (count.symm.trans running)

theorem Invariant.step (invariant : Invariant setup vm queue)
    (taken : Vsched.step setup vm = some next) :
    ∃ queue', Invariant setup next queue' ∧ Spares vm next := by
  have place := invariant.place
  cases step_taken taken with
  | start pc scheduled => exact ⟨queue, invariant.schedule scheduled _ _ (.inl rfl)⟩
  | cycle pc cycled =>
      have member : vm.current ∈ queue := by
        simpa [Placed, pc] using place
      rcases invariant.population.cycle member with ⟨vm', cycled', outcome⟩
      rw [cycled] at cycled'
      cases cycled'
      exact invariant.cycle member outcome
  | tick pc => exact ⟨queue, invariant.tick pc⟩
  | @tickSchedule switched pc scheduled =>
      exact ⟨queue, invariant.schedule scheduled switched.timer _ (.inr (.inl rfl))⟩
  | io pc event => exact invariant.io pc event
  | @reschedule switched pc scheduled =>
      exact ⟨queue, invariant.schedule scheduled switched.timer _ (.inr (.inr rfl))⟩
  | endCycle pc => exact ⟨queue, invariant.endCycle pc⟩

/-- Every machine of a run has a run queue that fits. -/
theorem Reachable.invariant (reachable : Reachable setup vm) :
    ∃ queue, Invariant setup vm queue := by
  induction reachable with
  | boot => exact ⟨_, invariant_boot setup⟩
  | step reachable taken induction =>
      rcases induction with ⟨queue, invariant⟩
      rcases invariant.step taken with ⟨queue', invariant', -⟩
      exact ⟨queue', invariant'⟩

end

end CE321.Vsched
