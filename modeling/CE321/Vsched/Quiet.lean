import CE321.Vsched.Lifetime

/-! # Iterations in which nothing happens

The steps of an iteration in which the current process goes on and no timer expires, and many
such iterations after one another.
-/

namespace CE321.Vsched

/-- The current process goes on and forks nobody. -/
structure GoesOn (setup : Setup) (vm : Vm) : Prop where
  lasts : isEnding setup vm = false
  isProcess : setup.profile.threadType vm.current ≠ .init
  endless : (vm.info vm.current).workDuration = -1
  list : (vm.info vm.current).list = []
  notDue : ∀ child ∈ (vm.info .init).list,
    (vm.clocktick : Int) < msToTicks (setup.profile.process child).spawnTime
  armed : 0 ≤ vm.intTimer
  wakeful : setup.profile.threadType vm.current = .interactive → 1 < vm.intWaitTimer

/-- The sleep timer after some cycles of the current process. -/
def sleepTicked (setup : Setup) (vm : Vm) (ticks : Nat) : Int :=
  if setup.profile.threadType vm.current = .interactive then vm.intWaitTimer - ticks
  else vm.intWaitTimer

/-- The machine after some iterations in which nothing happens. -/
def waitedFor (setup : Setup) (vm : Vm) (ticks : Nat) : Vm := { vm with
  timer := vm.timer - ticks
  intTimer := vm.intTimer - ticks
  intWaitTimer := sleepTicked setup vm ticks
  clocktick := vm.clocktick + ticks }

/-- The machine after an iteration in which a jiffy passes and nothing else happens. -/
def jiffyOver (setup : Setup) (vm : Vm) : Vm := { vm with
  jiffies := vm.jiffies + 1
  timer := 5000
  intTimer := vm.intTimer - 1
  intWaitTimer := sleepTicked setup vm 1
  clocktick := vm.clocktick + 1
  task := (vm.setTask vm.current fun t => { t with timeSlice := t.timeSlice - 1 }).task }

section

variable {setup : Setup} {vm : Vm} {past : List Vm}

/-! ## Steps -/

theorem spawnLoop_notDue (parent : Task) {children : List Nat} (notDue : ∀ child ∈ children,
    (vm.clocktick : Int) < msToTicks (setup.profile.process child).spawnTime) :
    spawnLoop setup parent children vm = some vm := by
  induction children with
  | nil => rfl
  | cons child rest induction =>
      rw [spawnLoop, if_neg (not_le.mpr (notDue child List.mem_cons_self))]
      exact induction fun other member => notDue other (List.mem_cons_of_mem _ member)

theorem armIntTimer_info (setup : Setup) (vm : Vm) : (armIntTimer setup vm).info = vm.info := by
  unfold armIntTimer
  split_ifs <;> rfl

/-- Where nobody is due, the end of a cycle arms the "IO" timer. -/
theorem spawnAll_notDue (list : (vm.info vm.current).list = [])
    (notDue : ∀ child ∈ (vm.info .init).list,
      (vm.clocktick : Int) < msToTicks (setup.profile.process child).spawnTime) :
    spawnAll setup vm = some (armIntTimer setup vm) := by
  have same : (armIntTimer setup vm).current = vm.current ∧
      (armIntTimer setup vm).clocktick = vm.clocktick := by
    unfold armIntTimer
    split_ifs <;> exact ⟨rfl, rfl⟩
  have nothing : spawnChildren setup (armIntTimer setup vm) vm.current =
      some (armIntTimer setup vm) := by
    simp only [spawnChildren, armIntTimer_info, list, spawnLoop, ite_self]
  have notDue' := @spawnLoop_notDue setup (armIntTimer setup vm) .init (vm.info .init).list
    (by rwa [same.2])
  have nothing' : spawnChildren setup (armIntTimer setup vm) .init =
      some (armIntTimer setup vm) := by
    simp only [spawnChildren, armIntTimer_info, notDue', ite_self]
  simp only [spawnAll, same.1, nothing, nothing', Option.bind_eq_bind, Option.bind_some]

theorem spawnAll_nothing (list : (vm.info vm.current).list = [])
    (notDue : ∀ child ∈ (vm.info .init).list,
      (vm.clocktick : Int) < msToTicks (setup.profile.process child).spawnTime)
    (armed : 0 ≤ vm.intTimer) : spawnAll setup vm = some vm := by
  rw [spawnAll_notDue list notDue, armIntTimer, if_neg (by omega)]

theorem GoesOn.cycle (goesOn : GoesOn setup vm) :
    cycle setup vm = some { vm with intWaitTimer := sleepTicked setup vm 1 } := by
  have worked : work setup vm = some (false, vm) := by
    simp [work, goesOn.endless]
  simp only [Vsched.cycle, taskEnd, goesOn.lasts]
  cases kind : setup.profile.threadType vm.current with
  | init => exact absurd kind goesOn.isProcess
  | interactive =>
      have wakeful := goesOn.wakeful kind
      have ticked : tickSleep vm = some { vm with intWaitTimer := vm.intWaitTimer - 1 } := by
        simp only [tickSleep, if_pos (show vm.intWaitTimer > 0 by omega)]
        rw [if_neg (by omega)]
      have spawned := @spawnAll_nothing setup { vm with intWaitTimer := vm.intWaitTimer - 1 }
        goesOn.list goesOn.notDue goesOn.armed
      simpa [kind, worked, ticked, sleepTicked] using spawned
  | noninteractive =>
      have spawned := @spawnAll_nothing setup vm goesOn.list goesOn.notDue goesOn.armed
      simpa [kind, worked, sleepTicked] using spawned

theorem GoesOn.step (goesOn : GoesOn setup vm) (pc : vm.pc = .cycle) :
    Vsched.step setup vm = some { vm with intWaitTimer := sleepTicked setup vm 1, pc := .tick } := by
  simp only [Vsched.step, pc, goesOn.cycle, Option.bind_eq_bind, Option.bind_some]
  rfl

theorem step_tick_early (pc : vm.pc = .tick) (early : 1 < vm.timer) :
    step setup vm = some { vm with timer := vm.timer - 1, pc := .io } := by
  have notYet : ¬vm.timer - 1 ≤ 0 := by omega
  simp only [step, pc, scheduleTick, if_pos (show vm.timer > 0 by omega), notYet, if_false]

theorem step_tick_jiffy (pc : vm.pc = .tick) (timer : vm.timer = 1)
    (linked : (vm.task vm.current).next ≠ none) (notHead : vm.current ≠ vm.head)
    (slice : 1 < (vm.task vm.current).timeSlice) (fits : (vm.task vm.current).timeSlice < 2 ^ 32) :
    step setup vm = some { vm with
      jiffies := vm.jiffies + 1
      timer := 5000
      task := (vm.setTask vm.current fun t => { t with timeSlice := t.timeSlice - 1 }).task
      pc := .io } := by
  have decrement : ((vm.task vm.current).timeSlice + 4294967295) % 4294967296 =
      (vm.task vm.current).timeSlice - 1 := by omega
  have goesOn : (vm.task vm.current).timeSlice - 1 ≠ 0 := by omega
  simp [step, pc, scheduleTick, timer, linked, schedulerTick, notHead, Vm.setTask, decrement,
    goesOn, msToTicks_hzToMs]

theorem step_io_early (pc : vm.pc = .io) (early : 1 < vm.intTimer)
    (flag : (vm.task vm.current).needReschedule = false) : step setup vm = some { vm with
      intTimer := vm.intTimer - 1
      clocktick := vm.clocktick + 1
      pc := .endCycle } := by
  have notYet : vm.intTimer - 1 ≠ 0 := by omega
  simp [step, pc, ioEvent, show vm.intTimer > 0 by omega, notYet, flag]

theorem step_endCycle_early (pc : vm.pc = .endCycle) (running : vm.nrRunning ≠ 0)
    (early : setup.ticksToMs vm.clocktick < setup.profile.endtime) :
    step setup vm = some { vm with pc := .cycle } := by
  have notYet : ¬setup.ticksToMs vm.clocktick ≥ setup.profile.endtime := not_le.mpr early
  simp only [step, pc, endCycle, notYet, decide_false, Bool.and_false, Bool.false_eq_true,
    if_false, ne_eq, running, not_false_eq_true, if_true]

/-! ## Iterations -/

/-- A run goes on while no time passes and nobody else gets the CPU. -/
inductive Lingers (run : List Vm) : List Vm → Prop
  | refl : Lingers run run
  | step {state next : Vm} {past : List Vm} (lingers : Lingers run (state :: past))
      (current : next.current = state.current) (still : next.jiffies = state.jiffies) :
      Lingers run (next :: state :: past)

theorem Lingers.trans {first second third : List Vm} (lingers : Lingers first second)
    (lingers' : Lingers second third) : Lingers first third := by
  induction lingers' with
  | refl => exact lingers
  | step _ current still induction => exact induction.step current still

theorem GoesOn.wait (goesOn : GoesOn setup vm) (pc : vm.pc = .cycle) (timer : 1 < vm.timer)
    (intTimer : 1 < vm.intTimer) (flag : (vm.task vm.current).needReschedule = false)
    (running : vm.nrRunning ≠ 0)
    (early : setup.ticksToMs (vm.clocktick + 1) < setup.profile.endtime)
    (history : History (boot setup) (Vsched.step setup) (vm :: past)) :
    ∃ past', Lingers (vm :: past) (waitedFor setup vm 1 :: past') ∧
      History (boot setup) (Vsched.step setup) (waitedFor setup vm 1 :: past') := by
  have afterCycle := history.step (goesOn.step pc)
  have afterTick := afterCycle.step (step_tick_early rfl timer)
  have afterIo := afterTick.step (step_io_early rfl intTimer flag)
  have afterEnd := afterIo.step (step_endCycle_early rfl running early)
  have same : ({ vm with
      timer := vm.timer - 1
      intTimer := vm.intTimer - 1
      intWaitTimer := sleepTicked setup vm 1
      clocktick := vm.clocktick + 1
      pc := .cycle } : Vm) = waitedFor setup vm 1 := by
    rw [waitedFor, pc]
    rfl
  rw [same] at afterEnd
  refine ⟨_, ?_, afterEnd⟩
  exact .step (.step (.step (.step .refl rfl rfl) rfl rfl) rfl rfl) rfl rfl

theorem waitedFor_succ (setup : Setup) (vm : Vm) (ticks : Nat) :
    waitedFor setup (waitedFor setup vm ticks) 1 = waitedFor setup vm (ticks + 1) := by
  simp only [waitedFor, sleepTicked]
  split_ifs
  · congr 1
    all_goals omega
  · congr 1
    all_goals omega

/-- Many such iterations, up to the one in which a timer expires. -/
theorem wait (ticks : Nat) (goesOn : ∀ before < ticks, GoesOn setup (waitedFor setup vm before))
    (pc : vm.pc = .cycle) (timer : (ticks : Int) < vm.timer) (intTimer : (ticks : Int) < vm.intTimer)
    (flag : (vm.task vm.current).needReschedule = false) (running : vm.nrRunning ≠ 0)
    (early : ∀ before < ticks,
      setup.ticksToMs (vm.clocktick + before + 1) < setup.profile.endtime)
    (history : History (boot setup) (Vsched.step setup) (vm :: past)) :
    ∃ past', Lingers (vm :: past) (waitedFor setup vm ticks :: past') ∧
      History (boot setup) (Vsched.step setup) (waitedFor setup vm ticks :: past') := by
  induction ticks with
  | zero =>
      have same : waitedFor setup vm 0 = vm := by simp [waitedFor, sleepTicked]
      rw [same]
      exact ⟨past, .refl, history⟩
  | succ ticks induction =>
      rcases induction (fun before lower => goesOn before (by omega)) (by omega) (by omega)
        (fun before lower => early before (by omega)) with ⟨past', lingers, history'⟩
      have timer' : 1 < (waitedFor setup vm ticks).timer := by
        simp only [waitedFor]
        omega
      have intTimer' : 1 < (waitedFor setup vm ticks).intTimer := by
        simp only [waitedFor]
        omega
      rcases (goesOn ticks (Nat.lt_succ_self _)).wait pc timer' intTimer' flag running
        (early ticks (Nat.lt_succ_self _)) history' with ⟨past'', lingers', history''⟩
      rw [waitedFor_succ] at lingers' history''
      exact ⟨past'', lingers.trans lingers', history''⟩

/-- An iteration in which a jiffy passes: nothing happens up to the tick and behind it. -/
theorem GoesOn.jiffy (goesOn : GoesOn setup vm) (pc : vm.pc = .cycle) (timer : vm.timer = 1)
    (intTimer : 1 < vm.intTimer) (linked : (vm.task vm.current).next ≠ none)
    (notHead : vm.current ≠ vm.head) (slice : 1 < (vm.task vm.current).timeSlice)
    (fits : (vm.task vm.current).timeSlice < 2 ^ 32)
    (flag : (vm.task vm.current).needReschedule = false) (running : vm.nrRunning ≠ 0)
    (early : setup.ticksToMs (vm.clocktick + 1) < setup.profile.endtime)
    (history : History (boot setup) (Vsched.step setup) (vm :: past)) :
    ∃ before ticked past' past'', Lingers (vm :: past) (before :: past') ∧
      Lingers (ticked :: before :: past') (jiffyOver setup vm :: past'') ∧
      before.current = vm.current ∧ before.jiffies = vm.jiffies ∧
      ticked.current = vm.current ∧ ticked.jiffies = vm.jiffies + 1 ∧
      History (boot setup) (Vsched.step setup) (jiffyOver setup vm :: past'') := by
  have afterCycle := history.step (goesOn.step pc)
  have afterTick := afterCycle.step (step_tick_jiffy rfl timer linked notHead slice fits)
  have afterIo := afterTick.step (step_io_early rfl intTimer (by simpa [Vm.setTask] using flag))
  have same : ({ vm with
      jiffies := vm.jiffies + 1
      timer := 5000
      intTimer := vm.intTimer - 1
      intWaitTimer := sleepTicked setup vm 1
      clocktick := vm.clocktick + 1
      task := (vm.setTask vm.current fun t => { t with timeSlice := t.timeSlice - 1 }).task
      pc := .cycle } : Vm) = jiffyOver setup vm := by
    rw [jiffyOver, pc]
  have afterEnd := @History.step _ _ _ _ (jiffyOver setup vm) _ afterIo (by
    rw [← same]
    exact step_endCycle_early rfl running early)
  refine ⟨{ vm with intWaitTimer := sleepTicked setup vm 1, pc := .tick }, { vm with
    intWaitTimer := sleepTicked setup vm 1
    jiffies := vm.jiffies + 1
    timer := 5000
    task := (vm.setTask vm.current fun t => { t with timeSlice := t.timeSlice - 1 }).task
    pc := .io }, vm :: past, _, .step .refl rfl rfl, ?_, rfl, rfl, rfl, rfl, afterEnd⟩
  exact .step (.step .refl rfl rfl) rfl rfl

/-! ## Processes without an end of their own -/

/-- The current process keeps the CPU as long as no timer expires and nobody is due. -/
structure KeepsCpu (setup : Setup) (vm : Vm) : Prop where
  pc : vm.pc = .cycle
  goesOn : GoesOn setup vm
  immortal : setup.profile.killTime vm.current < 0
  queued : (vm.task vm.current).next ≠ none ∧ vm.current ≠ vm.head ∧ vm.nrRunning ≠ 0
  slice : 1 < (vm.task vm.current).timeSlice ∧ (vm.task vm.current).timeSlice < 2 ^ 32
  flag : (vm.task vm.current).needReschedule = false

/-- No timer expires in the next iterations, and nobody is due. -/
def QuietFor (setup : Setup) (vm : Vm) (ticks : Nat) : Prop :=
  (ticks : Int) < vm.timer ∧ (ticks : Int) < vm.intTimer ∧
    (setup.profile.threadType vm.current = .interactive → (ticks : Int) < vm.intWaitTimer) ∧
    ∀ child ∈ (vm.info .init).list,
      (vm.clocktick : Int) + ticks ≤ msToTicks (setup.profile.process child).spawnTime

instance (setup : Setup) (vm : Vm) : Decidable (GoesOn setup vm) :=
  decidable_of_iff (isEnding setup vm = false ∧ setup.profile.threadType vm.current ≠ .init ∧
      (vm.info vm.current).workDuration = -1 ∧ (vm.info vm.current).list = [] ∧
      (∀ child ∈ (vm.info .init).list,
        (vm.clocktick : Int) < msToTicks (setup.profile.process child).spawnTime) ∧
      0 ≤ vm.intTimer ∧
      (setup.profile.threadType vm.current = .interactive → 1 < vm.intWaitTimer))
    ⟨fun ⟨lasts, isProcess, endless, list, notDue, armed, wakeful⟩ =>
      ⟨lasts, isProcess, endless, list, notDue, armed, wakeful⟩,
    fun ⟨lasts, isProcess, endless, list, notDue, armed, wakeful⟩ =>
      ⟨lasts, isProcess, endless, list, notDue, armed, wakeful⟩⟩

instance (setup : Setup) (vm : Vm) : Decidable (KeepsCpu setup vm) :=
  decidable_of_iff (vm.pc = .cycle ∧ GoesOn setup vm ∧
      setup.profile.killTime vm.current < 0 ∧
      ((vm.task vm.current).next ≠ none ∧ vm.current ≠ vm.head ∧ vm.nrRunning ≠ 0) ∧
      (1 < (vm.task vm.current).timeSlice ∧ (vm.task vm.current).timeSlice < 2 ^ 32) ∧
      (vm.task vm.current).needReschedule = false)
    ⟨fun ⟨pc, goesOn, immortal, queued, slice, flag⟩ =>
      ⟨pc, goesOn, immortal, queued, slice, flag⟩,
    fun ⟨pc, goesOn, immortal, queued, slice, flag⟩ =>
      ⟨pc, goesOn, immortal, queued, slice, flag⟩⟩

instance (setup : Setup) (vm : Vm) (ticks : Nat) : Decidable (QuietFor setup vm ticks) :=
  inferInstanceAs (Decidable (_ ∧ _))

theorem KeepsCpu.goesOn_later (keeps : KeepsCpu setup vm) {ticks before : Nat}
    (quiet : QuietFor setup vm ticks) (less : before < ticks) :
    GoesOn setup (waitedFor setup vm before) := by
  rcases quiet with ⟨-, armed, wakeful, notDue⟩
  constructor
  · have lasts := keeps.goesOn.lasts
    have notKilled : ¬setup.profile.killTime vm.current ≥ 0 := not_le.mpr keeps.immortal
    simp only [isEnding, notKilled, decide_false, Bool.false_and] at lasts
    simpa only [isEnding, waitedFor, notKilled, decide_false, Bool.false_and] using lasts
  · exact keeps.goesOn.isProcess
  · exact keeps.goesOn.endless
  · exact keeps.goesOn.list
  · intro child member
    have due := notDue child member
    simp only [waitedFor]
    omega
  · simp only [waitedFor]
    omega
  · intro interactive
    have awake := wakeful interactive
    have slept : sleepTicked setup vm before = vm.intWaitTimer - before := if_pos interactive
    simp only [waitedFor, slept]
    omega

theorem KeepsCpu.wait (keeps : KeepsCpu setup vm) {ticks : Nat} (quiet : QuietFor setup vm ticks)
    (early : ∀ tick ≤ vm.clocktick + ticks, setup.ticksToMs tick < setup.profile.endtime)
    (history : History (boot setup) (Vsched.step setup) (vm :: past)) :
    ∃ past', History (boot setup) (Vsched.step setup) (waitedFor setup vm ticks :: past') := by
  rcases Vsched.wait ticks (fun before less => keeps.goesOn_later quiet less) keeps.pc quiet.1
    quiet.2.1 keeps.flag keeps.queued.2.2 (fun before less => early _ (by omega)) history with
    ⟨past', -, history'⟩
  exact ⟨past', history'⟩

theorem KeepsCpu.jiffy (keeps : KeepsCpu setup vm) (timer : vm.timer = 1) (intTimer : 1 < vm.intTimer)
    (early : setup.ticksToMs (vm.clocktick + 1) < setup.profile.endtime)
    (history : History (boot setup) (Vsched.step setup) (vm :: past)) :
    ∃ past', History (boot setup) (Vsched.step setup) (jiffyOver setup vm :: past') := by
  rcases keeps.goesOn.jiffy keeps.pc timer intTimer keeps.queued.1 keeps.queued.2.1 keeps.slice.1
    keeps.slice.2 keeps.flag keeps.queued.2.2 early history with
    ⟨-, -, -, past', -, -, -, -, -, -, history'⟩
  exact ⟨past', history'⟩

def overJiffy (setup : Setup) (vm : Vm) (before behind : Nat) : Vm :=
  waitedFor setup (jiffyOver setup (waitedFor setup vm before)) behind

def RidesOver (setup : Setup) (vm : Vm) (before behind : Nat) : Prop :=
  KeepsCpu setup vm ∧ QuietFor setup vm before ∧
    KeepsCpu setup (waitedFor setup vm before) ∧
    (waitedFor setup vm before).timer = 1 ∧ 1 < (waitedFor setup vm before).intTimer ∧
    KeepsCpu setup (jiffyOver setup (waitedFor setup vm before)) ∧
    QuietFor setup (jiffyOver setup (waitedFor setup vm before)) behind

instance (setup : Setup) (vm : Vm) (before behind : Nat) :
    Decidable (RidesOver setup vm before behind) := inferInstanceAs (Decidable (_ ∧ _))

theorem RidesOver.history {before behind : Nat} (rides : RidesOver setup vm before behind)
    (early : ∀ tick ≤ vm.clocktick + before + 1 + behind,
      setup.ticksToMs tick < setup.profile.endtime)
    (history : History (boot setup) (Vsched.step setup) (vm :: past)) :
    ∃ past', History (boot setup) (Vsched.step setup) (overJiffy setup vm before behind :: past') := by
  rcases rides with ⟨keeps, quiet, keeps', timer, intTimer, keeps'', quiet'⟩
  rcases keeps.wait quiet (fun tick le => early tick (by omega)) history with ⟨_, history⟩
  rcases keeps'.jiffy timer intTimer (early _ (by simp only [waitedFor]; omega)) history with
    ⟨_, history⟩
  exact keeps''.wait quiet' (fun tick le => early tick le) history

/-- A run over a jiffy, with some steps before it and some behind it. -/
theorem history_overJiffy {view : Vm → Prop} [DecidablePred view]
    {start before behind last count : Nat}
    (early : ∀ tick ≤ last, setup.ticksToMs tick < setup.profile.endtime)
    (run : (after (Vsched.step setup) start (boot setup)).any (fun first =>
      RidesOver setup first before behind ∧ first.clocktick + before + 1 + behind ≤ last ∧
        (after (Vsched.step setup) count (overJiffy setup first before behind)).any
          (fun vm => view vm) = true) = true) :
    ∃ vm past, History (boot setup) (Vsched.step setup) (vm :: past) ∧ view vm := by
  rcases (Option.any_eq_true _ _).mp run with ⟨first, taken, viewed⟩
  rcases of_decide_eq_true viewed with ⟨rides, inTime, viewed'⟩
  rcases (Option.any_eq_true _ _).mp viewed' with ⟨vm, taken', seen⟩
  rcases History.start.after start taken with ⟨past, history⟩
  rcases rides.history (fun tick le => early tick (le.trans inTime)) history with ⟨past, history⟩
  rcases history.after count taken' with ⟨past, history⟩
  exact ⟨vm, past, history, of_decide_eq_true seen⟩

end

end CE321.Vsched
