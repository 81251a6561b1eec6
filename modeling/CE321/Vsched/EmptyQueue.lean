import CE321.Vsched.Quiet

/-! # `schedule` and the empty run queue

`killtask` asks for rescheduling only if there is a task left. The "IO" event asks for it
whoever is left, so that the machine can get to `schedule` with an empty run queue: when the
event falls in the iteration in which init ends.
-/

namespace CE321.Vsched

/-- Init ends in the iteration in which the "IO" timer expires. -/
def LastEndsOnIo (vm : Vm) : Prop :=
  vm.pc = .cycle ∧ vm.current = .init ∧ (vm.info .init).kill = true ∧
    (vm.info .init).children = 0 ∧ vm.intTimer = 1

/-- The machines of the runs in which that does not happen. -/
inductive ReachableWithout (setup : Setup) (avoided : Vm → Prop) : Vm → Prop
  | boot : ReachableWithout setup avoided (boot setup)
  | step {vm next : Vm} (reachable : ReachableWithout setup avoided vm) (avoids : ¬avoided vm)
      (taken : step setup vm = some next) : ReachableWithout setup avoided next

/-- When nobody is left, nothing leads to `schedule` any more. -/
def Provided (vm : Vm) : Prop :=
  match vm.pc with
  | .tick => vm.nrRunning = 0 →
      vm.current = .idle ∧ (vm.task .idle).needReschedule = false ∧ vm.intTimer ≠ 1
  | .io => vm.nrRunning = 0 →
      vm.current = .idle ∧ (vm.task .idle).needReschedule = false ∧ vm.intTimer ≠ 1
  | .reschedule => vm.nrRunning ≠ 0
  | _ => True

section

variable {setup : Setup} {avoided : Vm → Prop} {vm next : Vm} {queue : List Task}

theorem ReachableWithout.reachable (reachable : ReachableWithout setup avoided vm) :
    Reachable setup vm := by
  induction reachable with
  | boot => exact .boot
  | step _ _ taken induction => exact .step induction taken

theorem Population.nrRunning_ne (population : Population setup vm queue) {task : Task}
    (member : task ∈ queue) : vm.nrRunning ≠ 0 := by
  rw [population.lists.runQueue.count]
  exact Nat.ne_of_gt (List.length_pos_of_mem member)

theorem Provided.step (provided : Provided vm) (invariant : Invariant setup vm queue)
    (avoids : ¬LastEndsOnIo vm) (taken : Vsched.step setup vm = some next) : Provided next := by
  have population := invariant.population
  have place := invariant.place
  cases step_taken taken with
  | start pc scheduled => trivial
  | @cycle vm' pc cycled =>
      have member : vm.current ∈ queue := by
        simpa [Placed, pc] using place
      rcases population.cycle member with ⟨vm'', cycled', outcome⟩
      rw [cycled] at cycled'
      cases cycled'
      intro nobody
      cases outcome with
      | lives population' survives hasTask settled =>
          have count : vm'.nrRunning = _ := population'.lists.runQueue.count
          exact absurd (List.eq_nil_of_length_eq_zero (count.symm.trans nobody)) hasTask
      | dies childless message ended =>
          rcases ended.population with ⟨queue', population', flag⟩
          have count : vm'.nrRunning = _ := population'.lists.runQueue.count
          rw [if_pos (List.eq_nil_of_length_eq_zero (count.symm.trans nobody))] at flag
          rcases flag with ⟨isInit, flag⟩
          refine ⟨ended.current, flag.trans (invariant.idle ?_), ?_⟩
          · rw [isInit]
            exact fun same => Task.noConfusion same
          · intro expires
            exact avoids ⟨pc, isInit, message isInit, isInit ▸ childless,
              ended.timer.symm.trans expires⟩
  | tick pc =>
      rcases scheduleTick_spec vm with ⟨task, jiffies, timer, pc', ticked, timing, calls⟩
      rw [ticked]
      simp only [Provided, pc] at provided
      rcases calls with rfl | ⟨rfl, -⟩
      · intro nobody
        rcases provided nobody with ⟨isIdle, flag, timer⟩
        exact ⟨isIdle, (timing.needReschedule .idle).trans flag, timer⟩
      · trivial
  | tickSchedule pc scheduled =>
      rcases population.lists.runQueue.schedule population.length_le scheduled with
        ⟨member, -, links, -⟩
      intro nobody
      exact absurd (links.nrRunning.symm.trans nobody) (population.nrRunning_ne member)
  | @io vm' pc fired =>
      rcases population.ioEvent invariant.timer with
        ⟨vm'', queue', fired', population', grows, survives, live, -, awaits⟩
      rw [fired] at fired'
      cases fired'
      simp only [Provided, pc] at provided
      by_cases raised : (vm'.task vm'.current).needReschedule = true
      · simp only [Provided, raised, if_true]
        intro nobody
        by_cases before : vm.nrRunning = 0
        · rcases provided before with ⟨isIdle, flag, timer⟩
          rw [awaits timer, survives.current, isIdle, flag] at raised
          cases raised
        · have hasTask : queue ≠ [] := by
            rintro rfl
            exact before population.lists.runQueue.count
          rcases List.exists_mem_of_ne_nil queue hasTask with ⟨task, member⟩
          exact population'.nrRunning_ne (grows member) nobody
      · simp only [Provided, raised, if_false, Bool.false_eq_true]
  | reschedule pc scheduled => trivial
  | endCycle pc =>
      simp only [endCycle, Provided]
      split_ifs <;> trivial

theorem ReachableWithout.provided (reachable : ReachableWithout setup LastEndsOnIo vm) :
    Provided vm := by
  induction reachable with
  | boot => trivial
  | step reachable avoids taken induction =>
      rcases reachable.reachable.invariant with ⟨queue, invariant⟩
      exact induction.step invariant avoids taken

/-- As long as init does not end in the iteration of an "IO" event, `schedule` finds a run
queue to choose from. -/
theorem schedule_of_reachable (reachable : ReachableWithout setup LastEndsOnIo vm)
    (schedules : vm.pc = .start ∨ vm.pc = .tickSchedule ∨ vm.pc = .reschedule) :
    1 ≤ vm.nrRunning ∧ ∃ behind,
      Ring (fun task => (vm.task task).next) (fun task => (vm.task task).prev) vm.head behind ∧
      printRq setup vm = some behind ∧
      ∀ next, step setup vm = some next → next.current ∈ vm.head :: behind := by
  rcases reachable.reachable.invariant with ⟨queue, invariant⟩
  have provided := reachable.provided
  have place := invariant.place
  have population := invariant.population
  have runQueue := population.lists.runQueue
  have hasTask : queue ≠ [] := by
    rcases schedules with pc | pc | pc
    · have alone : queue = [.init] := by
        simpa [Placed, pc] using place
      exact alone ▸ List.cons_ne_nil _ _
    · have member : vm.current ∈ queue := by
        simpa [Placed, pc] using place
      exact List.ne_nil_of_mem member
    · have running : vm.nrRunning ≠ 0 := by
        simpa [Provided, pc] using provided
      rintro rfl
      exact running runQueue.count
  have few := population.length_le
  rcases runQueue.ring hasTask with ⟨behind, rfl, ring⟩
  have count := runQueue.count
  rw [List.length_cons] at few count
  rw [runQueue.head]
  refine ⟨by omega, behind, ring, runQueue.printRq (by omega), ?_⟩
  intro next taken
  cases step_taken taken with
  | start pc scheduled => exact (runQueue.schedule population.length_le scheduled).1
  | tickSchedule pc scheduled => exact (runQueue.schedule population.length_le scheduled).1
  | reschedule pc scheduled => exact (runQueue.schedule population.length_le scheduled).1
  | cycle pc => simp [pc] at schedules
  | tick pc => simp [pc] at schedules
  | io pc => simp [pc] at schedules
  | endCycle pc => simp [pc] at schedules

instance (vm : Vm) : Decidable (LastEndsOnIo vm) := inferInstanceAs (Decidable (_ ∧ _))

/-- A step of a run in which the avoided does not happen. -/
def stepWithout (setup : Setup) (avoided : Vm → Prop) [DecidablePred avoided] (vm : Vm) : Option Vm :=
  if avoided vm then none else step setup vm

theorem ReachableWithout.after [DecidablePred avoided] (count : Nat)
    (reachable : ReachableWithout setup avoided vm)
    (taken : CE321.after (stepWithout setup avoided) count vm = some next) :
    ReachableWithout setup avoided next := by
  induction count generalizing vm with
  | zero =>
      cases taken
      exact reachable
  | succ count induction =>
      rcases Option.bind_eq_some_iff.mp taken with ⟨middle, first, rest⟩
      unfold stepWithout at first
      split_ifs at first with happens
      exact induction (reachable.step happens first) rest

/-- The call behind the cycle of init in which both processes are forked. -/
theorem schedule_of_reachable_twoJobs : ∃ vm, ReachableWithout (twoJobs .sjf) LastEndsOnIo vm ∧
    vm.pc = .reschedule ∧ vm.nrRunning = 3 ∧ 1 ≤ vm.nrRunning ∧ ∃ behind,
      Ring (fun task => (vm.task task).next) (fun task => (vm.task task).prev) vm.head behind ∧
      printRq (twoJobs .sjf) vm = some behind ∧
      ∀ next, step (twoJobs .sjf) vm = some next → next.current ∈ vm.head :: behind := by
  have run : (after (stepWithout (twoJobs .sjf) LastEndsOnIo) 4 (boot (twoJobs .sjf))).any
      (fun vm => vm.pc = .reschedule ∧ vm.nrRunning = 3) = true := by
    decide +kernel
  rcases (Option.any_eq_true _ _).mp run with ⟨vm, taken, viewed⟩
  rcases of_decide_eq_true viewed with ⟨pc, count⟩
  have reachable := ReachableWithout.boot.after 4 taken
  exact ⟨vm, reachable, pc, count, schedule_of_reachable reachable (.inr (.inr pc))⟩

/-! ## The iteration that fails -/

theorem Population.cycle_ends (population : Population setup vm queue) (member : vm.current ∈ queue)
    (ending : isEnding setup vm = true) (childless : (vm.info vm.current).children = 0) :
    ∃ vm', Vsched.cycle setup vm = some vm' ∧ Ended setup vm vm' := by
  have marked := @Population.mark setup vm queue population vm.current
    (fun info => { info with kill := true }) rfl rfl fun _ => rfl
  have childless' : ((vm.setInfo vm.current fun info => { info with kill := true }).info
      vm.current).children = 0 := by
    simpa [Vm.setInfo] using childless
  rcases marked.kill member childless' with ⟨left, done, ended⟩
  refine ⟨killtask setup left, ?_, ended.marked (@marks_setInfo vm
    (fun info => { info with kill := true }) rfl)⟩
  simp only [Vsched.cycle, Vsched.taskEnd, ending, if_true]
  rw [if_pos (show ((vm.setInfo vm.current fun info => { info with kill := true }).info
    (vm.setInfo vm.current fun info => { info with kill := true }).current).children = 0
    from childless'), done]
  rfl

/-- When init ends in the iteration of an "IO" event, `schedule` is called with an empty run
queue and follows the null link of init. -/
theorem emptyQueue_of_lastEndsOnIo (reachable : Reachable setup vm) (expires : LastEndsOnIo vm) :
    ∃ bad, Reachable setup bad ∧ bad.pc = .reschedule ∧ bad.nrRunning = 0 ∧
      printRq setup bad = none ∧ step setup bad = none := by
  rcases expires with ⟨pc, isInit, message, childless, expires⟩
  rcases reachable.invariant with ⟨queue, invariant⟩
  have member : vm.current ∈ queue := by
    simpa [Placed, pc] using invariant.place
  have ending : isEnding setup vm = true :=
    (isEnding_init invariant.population isInit).trans message
  rcases invariant.population.cycle_ends member ending (isInit ▸ childless) with ⟨ended, done, ends⟩
  -- Behind the cycle nobody is left.
  have reachable₁ : Reachable setup { ended with pc := .tick } := by
    apply reachable.step
    simp only [step, pc, done, Option.bind_eq_bind, Option.bind_some]
    rfl
  rcases reachable₁.invariant with ⟨queue₁, invariant₁⟩
  have nobody : ended.live = [] := by
    apply invariant₁.population.lineage.init_killed
    show .init ∈ ended.killed
    rw [ends.killed, isInit]
    exact List.mem_cons_self
  have extinct : queue₁ = [] := by
    apply List.eq_nil_iff_forall_not_mem.mpr
    intro task inside
    have alive : task ∈ ended.live := invariant₁.population.queued inside
    rw [nobody] at alive
    cases alive
  subst extinct
  -- The idle task is in no list, so that the tick does not call `schedule`.
  rcases scheduleTick_spec { ended with pc := .tick } with
    ⟨task, jiffies, timer, pc', ticked, timing, calls⟩
  have isIo : pc' = .io := by
    rcases calls with isIo | ⟨-, queued⟩
    · exact isIo
    · exact absurd ((invariant₁.population.lists.runQueue.linked _).mpr List.not_mem_nil) queued
  subst isIo
  have reachable₂ : Reachable setup
      { ended with task := task, jiffies := jiffies, timer := timer, pc := .io } := by
    apply reachable₁.step
    simp only [step, ticked]
  rcases reachable₂.invariant with ⟨queue₂, invariant₂⟩
  rcases invariant₂.population.ioEvent invariant₂.timer with
    ⟨fired, queue₃, done', population, -, survives, live, raises, -⟩
  have raised := raises (ends.timer.trans expires)
  have reachable₃ : Reachable setup
      { fired with clocktick := fired.clocktick + 1, pc := .reschedule } := by
    apply reachable₂.step
    simp only [step, done', Option.bind_eq_bind, Option.bind_some, raised, if_true]
    rfl
  have empty : queue₃ = [] := by
    apply List.eq_nil_iff_forall_not_mem.mpr
    intro task inside
    have alive := population.queued inside
    rw [live] at alive
    exact absurd (nobody ▸ alive : task ∈ ([] : List Task)) List.not_mem_nil
  subst empty
  have walked : printRq setup { fired with clocktick := fired.clocktick + 1, pc := .reschedule } =
      none := population.lists.runQueue.printRq_empty
  refine ⟨_, reachable₃, rfl, population.lists.runQueue.count, walked, ?_⟩
  simp only [step, schedule, walked, Option.bind_eq_bind, Option.bind_none]

/-! ## A machine with one task to switch to

Such a machine repeats one iteration until its timers expire.
-/

/-- Nobody is asleep, and `schedule` has no choice. -/
structure Calm (setup : Setup) (vm : Vm) (behind : List Task) : Prop where
  reachable : Reachable setup vm
  population : Population setup vm (.init :: behind)
  few : behind.length ≤ 1
  asleep : vm.intwaitlist = []

def onlyChoice (behind : List Task) : Task := behind.headD .init

/-- The task is current, or it is about to be. -/
def Turn (vm : Vm) (task : Task) : Prop :=
  vm.current = task ∨ (vm.task vm.current).needReschedule = true

variable {behind : List Task}

theorem Calm.schedule (calm : Calm setup vm behind) :
    ∃ next, Vsched.schedule setup vm = some next ∧ next.current = onlyChoice behind ∧
      Scheduled vm next := by
  have runQueue := calm.population.lists.runQueue
  have bound := calm.population.length_le
  have count := runQueue.count
  have head := runQueue.head
  have walked : printRq setup vm = some behind := by
    apply runQueue.printRq
    rw [List.length_cons] at bound
    omega
  have current : ∀ (timed : Vm) (chosen : Task),
      (contextSwitch setup timed chosen).current = chosen := by
    intro timed chosen
    rcases contextSwitch_eq setup timed chosen with ⟨intWaitTimer, drawn, switched⟩
    rw [switched]
  have chosen : ∃ next, Vsched.schedule setup vm = some next ∧
      next.current = onlyChoice behind := by
    unfold Vsched.schedule
    rw [walked]
    cases behind with
    | nil =>
        refine ⟨_, if_pos count, ?_⟩
        rw [current]
        exact head
    | cons task rest =>
        have alone : rest = [] := by
          have few := calm.few
          rw [List.length_cons] at few
          exact List.eq_nil_of_length_eq_zero (by omega)
        subst alone
        have isFirst : ((vm.setTask vm.current fun t => { t with needReschedule := false }).task
            vm.head).next = some task := by
          have links := @sameLinks_setTask vm vm.current (fun t => { t with needReschedule := false })
            rfl rfl
          rcases runQueue.ring (List.cons_ne_nil _ _) with ⟨behind', same, ring⟩
          cases same
          rw [links.next, head]
          exact ring.linked.1
        have notOne : ¬vm.nrRunning = 1 := by
          rw [count]
          simp
        refine ⟨_, (if_neg notOne).trans (Option.bind_eq_some_iff.mpr
          ⟨task, isFirst, if_pos count⟩), ?_⟩
        rw [current]
        rfl
  rcases chosen with ⟨next, scheduled, isChoice⟩
  exact ⟨next, scheduled, isChoice, (runQueue.schedule bound scheduled).2⟩

theorem Calm.reschedule (calm : Calm setup vm behind) (pc : Pc)
    (goes : ∀ next, Vsched.schedule setup vm = some next →
      step setup vm = some { next with pc := pc }) :
    ∃ next, Calm setup next behind ∧ next.pc = pc ∧ next.current = onlyChoice behind ∧
      next.clocktick = vm.clocktick ∧ next.intTimer = vm.intTimer ∧ next.info = vm.info := by
  rcases calm.schedule with ⟨next, scheduled, isChoice, ⟨task, current, intWait, drawn, rfl⟩, links, -⟩
  refine ⟨_, ⟨calm.reachable.step (goes _ scheduled), ⟨⟨?_, calm.population.lists.perm,
    calm.population.lists.awake⟩, calm.population.lineage⟩, calm.few, calm.asleep⟩, rfl, isChoice,
    rfl, rfl, rfl⟩
  exact (calm.population.lists.runQueue.same links).frame rfl rfl (fun _ => rfl) fun _ _ => rfl

theorem Calm.tick (calm : Calm setup vm behind) (pc : vm.pc = .tick)
    (turn : Turn vm (onlyChoice behind)) :
    ∃ next, Calm setup next behind ∧ next.pc = .io ∧ Turn next (onlyChoice behind) ∧
      next.clocktick = vm.clocktick ∧ next.intTimer = vm.intTimer ∧ next.info = vm.info := by
  rcases scheduleTick_spec vm with ⟨task, jiffies, timer, pc', ticked, timing, calls⟩
  have taken : step setup vm =
      some { vm with task := task, jiffies := jiffies, timer := timer, pc := pc' } := by
    simp only [step, pc, ticked]
  have calm' : Calm setup
      { vm with task := task, jiffies := jiffies, timer := timer, pc := pc' } behind := by
    refine ⟨calm.reachable.step taken, ⟨⟨?_, calm.population.lists.perm,
      calm.population.lists.awake⟩, calm.population.lineage⟩, calm.few, calm.asleep⟩
    exact (calm.population.lists.runQueue.same timing.links).frame rfl rfl (fun _ => rfl)
      fun _ _ => rfl
  rcases calls with rfl | ⟨rfl, -⟩
  · refine ⟨_, calm', rfl, ?_, rfl, rfl, rfl⟩
    rcases turn with isChoice | raised
    · exact .inl isChoice
    · exact .inr ((timing.needReschedule vm.current).trans raised)
  · rcases calm'.reschedule .io (fun next scheduled => by
      simp only [step, scheduled, Option.bind_eq_bind, Option.bind_some]
      rfl) with ⟨next, calm'', pc'', isChoice, clocktick, intTimer, info⟩
    exact ⟨next, calm'', pc'', .inl isChoice, clocktick, intTimer, info⟩

/-- The "IO" timer one tick later. -/
def ioTicked (intTimer : Int) : Int :=
  if intTimer = 1 then -1 else if intTimer > 0 then intTimer - 1 else intTimer

theorem ioEvent_calm (asleep : vm.intwaitlist = []) (armed : vm.intTimer ≠ 0) :
    ∃ task, ioEvent setup vm = some { vm with task := task, intTimer := ioTicked vm.intTimer } ∧
      SameLinks vm { vm with task := task, intTimer := ioTicked vm.intTimer } ∧
      ((task vm.current).needReschedule = true ∨ task = vm.task) := by
  by_cases isOne : vm.intTimer = 1
  · refine ⟨(vm.setTask vm.current fun t => { t with needReschedule := true }).task, ?_, ?_,
      .inl ?_⟩
    · simp only [ioEvent, isOne, asleep, ioTicked]
      rfl
    · have links := @sameLinks_setTask vm vm.current (fun t => { t with needReschedule := true })
        rfl rfl
      exact ⟨rfl, rfl, links.next, links.prev⟩
    · simp [Vm.setTask]
  · refine ⟨vm.task, ?_, ⟨rfl, rfl, fun _ => rfl, fun _ => rfl⟩, .inr rfl⟩
    simp only [ioEvent, ioTicked, if_neg isOne]
    by_cases running : vm.intTimer > 0
    · have away : ¬vm.intTimer - 1 = 0 := by omega
      simp only [if_pos running, if_neg away]
    · simp only [if_neg running, if_neg armed]

theorem Calm.io (calm : Calm setup vm behind) (pc : vm.pc = .io) (armed : vm.intTimer ≠ 0)
    (turn : Turn vm (onlyChoice behind)) :
    ∃ next, Calm setup next behind ∧ next.pc = .endCycle ∧ next.current = onlyChoice behind ∧
      next.clocktick = vm.clocktick + 1 ∧ next.intTimer = ioTicked vm.intTimer ∧
      next.info = vm.info := by
  rcases @ioEvent_calm setup vm calm.asleep armed with ⟨task, fired, links, flags⟩
  have taken : step setup vm = some { vm with
      task := task
      intTimer := ioTicked vm.intTimer
      clocktick := vm.clocktick + 1
      pc := if (task vm.current).needReschedule then .reschedule else .endCycle } := by
    simp only [step, pc, fired, Option.bind_eq_bind, Option.bind_some]
    rfl
  have calm' : Calm setup { vm with
      task := task
      intTimer := ioTicked vm.intTimer
      clocktick := vm.clocktick + 1
      pc := if (task vm.current).needReschedule then .reschedule else .endCycle } behind := by
    refine ⟨calm.reachable.step taken, ⟨⟨?_, calm.population.lists.perm,
      calm.population.lists.awake⟩, calm.population.lineage⟩, calm.few, calm.asleep⟩
    exact (calm.population.lists.runQueue.same links).frame rfl rfl (fun _ => rfl) fun _ _ => rfl
  by_cases raised : (task vm.current).needReschedule = true
  · rcases calm'.reschedule .endCycle (fun next scheduled => by
      simp only [step, raised, if_true, Option.bind_eq_bind]
      simp only [raised, if_true] at scheduled
      rw [scheduled]
      rfl) with ⟨next, calm'', pc'', isChoice, clocktick, intTimer, info⟩
    exact ⟨next, calm'', pc'', isChoice, clocktick, intTimer, info⟩
  · refine ⟨_, calm', ?_, ?_, rfl, rfl, rfl⟩
    · simp only [raised, if_false, Bool.false_eq_true]
    · rcases turn with isChoice | before
      · exact isChoice
      · rcases flags with after | same
        · exact absurd after raised
        · exact absurd (same ▸ before) raised

/-- What is known of the tasks after the end of an iteration. -/
def infoAfter (setup : Setup) (vm : Vm) : Task → ThreadInfo :=
  if !(vm.info .init).kill && decide (setup.ticksToMs vm.clocktick ≥ setup.profile.endtime) then
    (vm.setInfo .init fun info => { info with kill := true }).info
  else vm.info

theorem Calm.endCycle (calm : Calm setup vm behind) (pc : vm.pc = .endCycle) :
    ∃ next, Calm setup next behind ∧ next.pc = .cycle ∧ next.current = vm.current ∧
      next.clocktick = vm.clocktick ∧ next.intTimer = vm.intTimer ∧
      next.info = infoAfter setup vm := by
  have running : vm.nrRunning ≠ 0 := calm.population.nrRunning_ne List.mem_cons_self
  have taken : step setup vm = some { vm with info := infoAfter setup vm, pc := .cycle } := by
    simp only [step, pc, Vsched.endCycle, infoAfter]
    split_ifs <;> simp_all [Vm.setInfo]
  have population : Population setup { vm with info := infoAfter setup vm } (.init :: behind) := by
    simp only [infoAfter]
    split_ifs
    · exact @Population.mark setup vm _ calm.population .init
        (fun info => { info with kill := true }) rfl rfl fun _ => rfl
    · exact calm.population
  refine ⟨_, ⟨calm.reachable.step taken, ⟨⟨?_, calm.population.lists.perm,
    calm.population.lists.awake⟩, population.lineage⟩, calm.few, calm.asleep⟩, rfl, rfl, rfl, rfl,
    rfl⟩
  exact calm.population.lists.runQueue.frame rfl rfl (fun _ => rfl) fun _ _ => rfl

theorem Calm.interrupts (calm : Calm setup vm behind) (pc : vm.pc = .tick)
    (armed : vm.intTimer ≠ 0) (turn : Turn vm (onlyChoice behind)) :
    ∃ next, Calm setup next behind ∧ next.pc = .cycle ∧ next.current = onlyChoice behind ∧
      next.clocktick = vm.clocktick + 1 ∧ next.intTimer = ioTicked vm.intTimer ∧
      next.info = infoAfter setup { vm with clocktick := vm.clocktick + 1 } := by
  rcases calm.tick pc turn with ⟨vm₁, calm₁, pc₁, turn₁, clocktick₁, intTimer₁, info₁⟩
  rcases calm₁.io pc₁ (intTimer₁ ▸ armed) turn₁ with
    ⟨vm₂, calm₂, pc₂, current₂, clocktick₂, intTimer₂, info₂⟩
  rcases calm₂.endCycle pc₂ with ⟨vm₃, calm₃, pc₃, current₃, clocktick₃, intTimer₃, info₃⟩
  refine ⟨vm₃, calm₃, pc₃, current₃.trans current₂, ?_, ?_, ?_⟩
  · rw [clocktick₃, clocktick₂, clocktick₁]
  · rw [intTimer₃, intTimer₂, intTimer₁]
  · rw [info₃]
    simp only [infoAfter, Vm.setInfo, info₂, info₁, clocktick₂, clocktick₁]

/-- A cycle with nothing to do but to arm the "IO" timer. -/
theorem cycle_calm (lasts : isEnding setup vm = false)
    (kind : setup.profile.threadType vm.current ≠ .interactive)
    (endless : (vm.info vm.current).workDuration = -1) (list : (vm.info vm.current).list = [])
    (initList : (vm.info .init).list = []) :
    cycle setup vm = some (armIntTimer setup vm) := by
  have spawned := @spawnAll_notDue setup vm list (by simp [initList])
  have worked : work setup vm = some (false, vm) := by
    simp [work, endless]
  simp only [cycle, taskEnd, lasts]
  cases isKind : setup.profile.threadType vm.current with
  | interactive => exact absurd isKind kind
  | init => simpa [isKind] using spawned
  | noninteractive => simpa [isKind, worked] using spawned

/-- The "IO" timer after a cycle. -/
def armed (setup : Setup) (vm : Vm) : Int :=
  if vm.intTimer < 0 then msToTicks (setup.rand vm.drawn % 1000 + 50 : Nat) else vm.intTimer

theorem Calm.iteration (calm : Calm setup vm behind) (pc : vm.pc = .cycle)
    (current : vm.current = onlyChoice behind) (lasts : isEnding setup vm = false)
    (kind : setup.profile.threadType vm.current ≠ .interactive)
    (endless : (vm.info vm.current).workDuration = -1) (list : (vm.info vm.current).list = [])
    (initList : (vm.info .init).list = []) :
    ∃ next, Calm setup next behind ∧ next.pc = .cycle ∧ next.current = onlyChoice behind ∧
      next.clocktick = vm.clocktick + 1 ∧ next.intTimer = ioTicked (armed setup vm) ∧
      next.info = infoAfter setup { vm with clocktick := vm.clocktick + 1 } := by
  rcases calm.reachable.invariant with ⟨queue, invariant⟩
  have taken : step setup vm = some { armIntTimer setup vm with pc := .tick } := by
    simp only [step, pc, cycle_calm lasts kind endless list initList, Option.bind_eq_bind,
      Option.bind_some]
    rfl
  have rest : ∃ drawn, armIntTimer setup vm =
      { vm with intTimer := armed setup vm, drawn := drawn } := by
    simp only [armIntTimer, armed]
    split_ifs
    · exact ⟨_, rfl⟩
    · exact ⟨vm.drawn, rfl⟩
  rcases rest with ⟨drawn, rest⟩
  rw [rest] at taken
  have calm' : Calm setup
      { vm with intTimer := armed setup vm, drawn := drawn, pc := .tick } behind := by
    refine ⟨calm.reachable.step taken, ⟨⟨?_, calm.population.lists.perm,
      calm.population.lists.awake⟩, calm.population.lineage⟩, calm.few, calm.asleep⟩
    exact calm.population.lists.runQueue.frame rfl rfl (fun _ => rfl) fun _ _ => rfl
  have isArmed : armed setup vm ≠ 0 := by
    simp only [armed, msToTicks_rand]
    split_ifs
    · omega
    · exact invariant.timer
  exact calm'.interrupts rfl isArmed (.inl current)

end

/-! ## A run that gets there -/

/-- What is known of a task that nothing has happened to. -/
def Untouched (info : ThreadInfo) : Prop :=
  info.kill = false ∧ info.workDuration = -1 ∧ info.list = []

instance (info : ThreadInfo) : Decidable (Untouched info) :=
  inferInstanceAs (Decidable (_ ∧ _))

/-- The machine between two iterations in which nothing happens. -/
structure LoneAt (vm : Vm) (behind : List Task) (clocktick : Nat) (intTimer : Int) : Prop where
  calm : Calm loneTask vm behind
  pc : vm.pc = .cycle
  current : vm.current = onlyChoice behind
  clocktick : vm.clocktick = clocktick
  intTimer : vm.intTimer = intTimer
  untouched : ∀ task ∈ Task.init :: behind, Untouched (vm.info task)

section

variable {vm : Vm} {behind : List Task} {clocktick : Nat} {intTimer : Int}

theorem armed_loneTask (vm : Vm) :
    armed loneTask vm = if vm.intTimer < 0 then 25000 else vm.intTimer := by
  simp only [armed, msToTicks_rand]
  rfl

theorem LoneAt.iteration (lone : LoneAt vm behind clocktick intTimer)
    (isLone : behind = [] ∨ behind = [.process 0] ∧ clocktick < 25000) :
    ∃ next, Calm loneTask next behind ∧ next.pc = .cycle ∧ next.current = onlyChoice behind ∧
      next.clocktick = clocktick + 1 ∧
      next.intTimer = ioTicked (if intTimer < 0 then 25000 else intTimer) ∧
      next.info = infoAfter loneTask { vm with clocktick := clocktick + 1 } := by
  have initUntouched := lone.untouched .init List.mem_cons_self
  have current := lone.current
  have choice : onlyChoice behind ∈ Task.init :: behind := by
    rcases isLone with rfl | ⟨rfl, -⟩
    · exact List.mem_cons_self
    · simp [onlyChoice]
  have untouched := lone.untouched _ choice
  rw [← current] at untouched
  have lasts : isEnding loneTask vm = false := by
    simp only [isEnding, untouched.1, untouched.2.1, lone.clocktick]
    rcases isLone with rfl | ⟨rfl, early⟩
    · simp [current, onlyChoice, Profile.parent, Profile.killTime]
    · have away : ¬(50 : Int) ≤ (clocktick : Int) / 500 := by omega
      simpa [current, onlyChoice, Profile.parent, Profile.killTime, Profile.process, loneTask,
        initUntouched.1] using away
  have kind : loneTask.profile.threadType vm.current ≠ .interactive := by
    rcases isLone with rfl | ⟨rfl, -⟩
    · simp [current, onlyChoice, Profile.threadType]
    · simp [current, onlyChoice, Profile.threadType, Profile.process, loneTask]
  rcases lone.calm.iteration lone.pc current lasts kind untouched.2.1 untouched.2.2
    initUntouched.2.2 with ⟨next, calm, pc, current', clocktick', intTimer', info⟩
  rw [lone.clocktick] at clocktick' info
  refine ⟨next, calm, pc, current', clocktick', ?_, info⟩
  rw [intTimer', armed_loneTask, lone.intTimer]

theorem LoneAt.next (lone : LoneAt vm behind clocktick intTimer)
    (isLone : behind = [] ∨ behind = [.process 0] ∧ clocktick < 25000)
    (early : clocktick + 1 < 50000) :
    ∃ next, LoneAt next behind (clocktick + 1)
      (ioTicked (if intTimer < 0 then 25000 else intTimer)) := by
  rcases lone.iteration isLone with ⟨next, calm, pc, current, clocktick', intTimer', info⟩
  have same : next.info = vm.info := by
    have notYet : ¬((100 : Int) ≤ ((clocktick : Int) + 1) / 500) := by omega
    rw [info]
    simp [infoAfter, loneTask, notYet]
  exact ⟨next, calm, pc, current, clocktick', intTimer', same ▸ lone.untouched⟩

theorem LoneAt.countdown (steps : Nat) (lone : LoneAt vm behind clocktick intTimer)
    (isLone : behind = [] ∨ behind = [.process 0] ∧ clocktick + steps ≤ 25000)
    (early : clocktick + steps < 50000) (running : (steps : Int) < intTimer) :
    ∃ next, LoneAt next behind (clocktick + steps) (intTimer - steps) := by
  induction steps with
  | zero => exact ⟨vm, by simpa using lone⟩
  | succ steps induction =>
      have isLone' : behind = [] ∨ behind = [.process 0] ∧ clocktick + steps ≤ 25000 :=
        isLone.imp_right fun both => ⟨both.1, by omega⟩
      rcases induction isLone' (by omega) (by omega) with ⟨middle, lone'⟩
      rcases lone'.next (isLone.imp_right fun both => ⟨both.1, by omega⟩) (by omega) with
        ⟨next, lone''⟩
      refine ⟨next, ?_⟩
      have ticks : ioTicked (if intTimer - steps < 0 then 25000 else intTimer - steps) =
          intTimer - (steps + 1 : Nat) := by
        rw [if_neg (by omega), ioTicked, if_neg (by omega), if_pos (by omega)]
        omega
      rwa [ticks] at lone''

/-- The process is killed when its time has come, after which init goes on alone. -/
theorem LoneAt.kill (lone : LoneAt vm [.process 0] 25000 (-1)) :
    ∃ next, LoneAt next [] 25001 (-1) := by
  have population := lone.calm.population
  have lineage := population.lineage
  have initUntouched := lone.untouched .init List.mem_cons_self
  have current : vm.current = .process 0 := lone.current
  have live : vm.live.Perm [.init, .process 0] := by
    have perm := population.lists.perm
    rwa [lone.calm.asleep] at perm
  have member : vm.current ∈ [Task.init, .process 0] := current ▸ by simp
  have childless : (vm.info vm.current).children = 0 := by
    have count : childrenOf loneTask.profile.parent [.init, .process 0] (.process 0) = 0 := rfl
    rw [lineage.children _ (live.mem_iff.mpr member), current, childrenOf, live.countP_eq]
    exact_mod_cast count
  have ending : isEnding loneTask vm = true := by
    simp [isEnding, current, lone.clocktick, Profile.killTime, Profile.process, loneTask]
  rcases population.cycle_ends member ending childless with ⟨ended, done, ends⟩
  rcases ends.population with ⟨queue, population', flag⟩
  have taken : step loneTask vm = some { ended with pc := .tick } := by
    simp only [step, lone.pc, done, Option.bind_eq_bind, Option.bind_some]
    rfl
  have perm : [Task.init].Perm queue := by
    have erased := live.erase (.process 0)
    have listed := population'.lists.perm
    rw [ends.live, ends.asleep, lone.calm.asleep, List.append_nil, current] at listed
    exact erased.symm.trans listed
  rw [← List.singleton_perm.mp perm] at population' flag
  have calm : Calm loneTask { ended with pc := .tick } [] :=
    ⟨lone.calm.reachable.step taken, ⟨⟨population'.lists.runQueue.frame rfl rfl (fun _ => rfl)
      fun _ _ => rfl, population'.lists.perm, population'.lists.awake⟩, population'.lineage⟩,
      Nat.zero_le 1, ends.asleep.trans lone.calm.asleep⟩
  have timer : ended.intTimer = -1 := ends.timer.trans lone.intTimer
  have clocktick : ended.clocktick = 25000 := ends.clocktick.trans lone.clocktick
  have turn : Turn { ended with pc := .tick } (onlyChoice []) := by
    right
    show (ended.task ended.current).needReschedule = true
    rw [ends.current]
    simpa using flag
  have isArmed : ended.intTimer ≠ 0 := by
    rw [timer]
    decide
  rcases calm.interrupts rfl isArmed turn with
    ⟨next, calm', pc, current', clocktick', intTimer, info⟩
  refine ⟨next, calm', pc, current', clocktick'.trans (congrArg (· + 1) clocktick), ?_, ?_⟩
  · rw [intTimer]
    show ioTicked ended.intTimer = -1
    rw [timer]
    rfl
  · intro task isInit
    rw [List.mem_singleton.mp isInit]
    have kept : next.info = ended.info := by
      rw [info]
      simp [infoAfter, loneTask, clocktick]
    have kill := ends.kill .init (by simp [current])
    rw [kept]
    exact ⟨kill.trans initUntouched.1, population'.lineage.initWork,
      (ends.list .init).trans initUntouched.2.2⟩

/-- The first iteration, in which init forks the process. -/
theorem loneTask_first : ∃ vm, LoneAt vm [.process 0] 1 24999 := by
  have run : ((step loneTask (boot loneTask)).bind (step loneTask)).any (fun vm => decide
      (vm.pc = .tick ∧ printRq loneTask vm = some [.process 0] ∧ vm.intwaitlist = [] ∧
        vm.clocktick = 0 ∧ vm.intTimer = 25000 ∧ (vm.task vm.current).needReschedule = true ∧
        Untouched (vm.info .init) ∧ Untouched (vm.info (.process 0)))) = true := by
    decide +kernel
  rcases (Option.any_eq_true _ _).mp run with ⟨vm, taken, viewed⟩
  rcases Option.bind_eq_some_iff.mp taken with ⟨started, taken₀, taken₁⟩
  rcases of_decide_eq_true viewed with
    ⟨pc, walked, asleep, clocktick, intTimer, raised, init, process⟩
  have reachable : Reachable loneTask vm := (Reachable.boot.step taken₀).step taken₁
  rcases reachable.invariant with ⟨queue, invariant⟩
  have population := invariant.population
  have shape : queue = [.init, .process 0] := by
    cases queue with
    | nil =>
        rw [population.lists.runQueue.printRq_empty] at walked
        cases walked
    | cons head behind =>
        rcases population.lists.runQueue.ring (List.cons_ne_nil _ _) with ⟨behind', same, -⟩
        cases same
        have few := population.length_le
        rw [List.length_cons] at few
        rw [population.lists.runQueue.printRq (by omega)] at walked
        rw [Option.some.inj walked]
  subst shape
  have calm : Calm loneTask vm [.process 0] := ⟨reachable, population, Nat.le_refl 1, asleep⟩
  have isArmed : vm.intTimer ≠ 0 := invariant.timer
  rcases calm.interrupts pc isArmed (.inr raised) with
    ⟨next, calm', pc', current', clocktick', intTimer', info⟩
  have kept : next.info = vm.info := by
    rw [info]
    simp [infoAfter, loneTask, clocktick]
  refine ⟨next, calm', pc', current', ?_, ?_, ?_⟩
  · rw [clocktick', clocktick]
  · rw [intTimer', intTimer]
    rfl
  · intro task member
    rw [kept]
    rcases List.mem_cons.mp member with rfl | isProcess
    · exact init
    · rw [List.mem_singleton.mp isProcess]
      exact process

end

/-- The process ends in the iteration after an "IO" event, so that the next event falls in
the iteration in which init ends. -/
theorem loneTask_emptyQueue : ∃ vm, Reachable loneTask vm ∧ vm.pc = .reschedule ∧
    vm.nrRunning = 0 ∧ printRq loneTask vm = none ∧ step loneTask vm = none := by
  rcases loneTask_first with ⟨vm₁, lone₁⟩
  rcases lone₁.countdown 24998 (.inr ⟨rfl, by decide⟩) (by decide) (by decide) with ⟨vm₂, lone₂⟩
  rcases lone₂.next (.inr ⟨rfl, by decide⟩) (by decide) with ⟨vm₃, lone₃⟩
  rcases LoneAt.kill lone₃ with ⟨vm₄, lone₄⟩
  rcases lone₄.next (.inl rfl) (by decide) with ⟨vm₅, lone₅⟩
  rcases LoneAt.countdown 24997 lone₅ (.inl rfl) (by decide) (by decide) with ⟨vm₆, lone₆⟩
  rcases lone₆.iteration (.inl rfl) with ⟨vm₇, calm, pc, current, clocktick, intTimer, info⟩
  apply emptyQueue_of_lastEndsOnIo calm.reachable
  refine ⟨pc, current, ?_, ?_, intTimer⟩
  · have untouched := lone₆.untouched .init List.mem_cons_self
    rw [info]
    simp [infoAfter, loneTask, untouched.1, Vm.setInfo]
  · have live : vm₇.live.Perm [.init] := by
      have perm := calm.population.lists.perm
      rwa [calm.asleep] at perm
    have count : childrenOf loneTask.profile.parent [.init] .init = 0 := rfl
    rw [calm.population.lineage.children _ (live.mem_iff.mpr List.mem_cons_self), childrenOf,
      live.countP_eq]
    exact_mod_cast count

end CE321.Vsched
