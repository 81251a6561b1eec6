import CE321.Vsched.Schedule

/-! # The machine, `cpu.c`

Forking and killing tasks, and an iteration of `runcpu` cut at its calls of `schedule`.
-/

namespace CE321.Vsched

/-! ## Forking -/

/-- The data of the task of a process, which has a parent, up to `sched_fork`. -/
def newTask (setup : Setup) (vm : Vm) (thread : Nat) : Vm :=
  let task := Task.process thread
  let vm := vm.setTask task fun _ => createTask setup task
  let vm := vm.setInfo task fun info => { info with
    children := 0
    kill := false
    workDuration :=
      -- a `long long`, in which `MS_TO_TICKS` of an `int` does not overflow
      if info.workDuration ≠ -1 then 500 * info.workDuration else info.workDuration }
  let vm := match setup.profile.parent task with
    | some parent => vm.setInfo parent fun info => { info with children := info.children + 1 }
    | none => vm
  schedFork vm task

/-- Makes a task of a process of the profile and submits it to the scheduler. -/
def forktask (setup : Setup) (vm : Vm) (thread : Nat) : Option Vm := do
  let vm ← wakeUpNewTask setup (newTask setup vm thread) (.process thread)
  let vm := vm.setTask vm.current fun t => { t with needReschedule := true }
  pure { vm with live := .process thread :: vm.live }

/-- The loop of `spawnChildren` over the children that are not forked yet. -/
def spawnLoop (setup : Setup) (parent : Task) : List Nat → Vm → Option Vm
  | [], vm => some vm
  | child :: rest, vm =>
      if msToTicks (setup.profile.process child).spawnTime ≤ vm.clocktick then do
        let vm ← forktask setup vm child
        spawnLoop setup parent rest
          (vm.setInfo parent fun info => { info with list := info.list.erase child })
      else spawnLoop setup parent rest vm

def spawnChildren (setup : Setup) (vm : Vm) (parent : Task) : Option Vm :=
  if setup.profile.spawns parent then spawnLoop setup parent (vm.info parent).list vm
  else some vm

/-! ## Killing -/

/-- The timing results of a task that goes down. -/
def report (vm : Vm) (j : Task) : Vm :=
  let now := schedClock vm
  let vm := vm.setTask j fun t =>
    let xd := sub64 now t.xd
    { t with xd := xd, xa := sub64 xd t.xe }
  if j ≠ .init then
    let t := vm.task j
    { vm with results := vm.results ++ [(j, t.xe / 1000000, t.xd / 1000000, t.xa / 1000000)] }
  else vm

/-- Terminates the current task and puts the idle task in its place. -/
def killtask (setup : Setup) (vm : Vm) : Vm :=
  let j := vm.current
  let vm := report vm j
  let vm := match setup.profile.parent j with
    | some parent => vm.setInfo parent fun info => { info with children := info.children - 1 }
    | none => vm
  let vm : Vm :=
    { vm with current := .idle, live := vm.live.erase j, killed := j :: vm.killed }
  if vm.nrRunning ≠ 0 then vm.setTask .idle fun t => { t with needReschedule := true } else vm

/-- Whether the current task is to end. -/
def isEnding (setup : Setup) (vm : Vm) : Bool :=
  (vm.info vm.current).kill ||
    (match setup.profile.parent vm.current with
      | some parent => (vm.info parent).kill
      | none => false) ||
    (decide (setup.profile.killTime vm.current ≥ 0) &&
      decide (setup.ticksToMs vm.clocktick ≥ setup.profile.killTime vm.current)) ||
    (vm.info vm.current).workDuration == 0

/-- Whether the current task was terminated. A task with children is only marked. -/
def taskEnd (setup : Setup) (vm : Vm) : Option (Bool × Vm) :=
  if isEnding setup vm then
    let vm := vm.setInfo vm.current fun info => { info with kill := true }
    if (vm.info vm.current).children = 0 then do
      let vm ← deactivateTask vm vm.current
      pure (true, killtask setup vm)
    else some (false, vm)
  else some (false, vm)

/-! ## A cycle -/

/-- A unit of work, and the check for the end that may follow from it. -/
def work (setup : Setup) (vm : Vm) : Option (Bool × Vm) :=
  let vm :=
    if (vm.info vm.current).workDuration > 0 then
      vm.setInfo vm.current fun info => { info with workDuration := info.workDuration - 1 }
    else vm
  if (vm.info vm.current).workDuration = 0 then taskEnd setup vm else some (false, vm)

/-- Puts the current task on the wait list and out of the run queue. -/
def goToSleep (vm : Vm) : Option Vm := do
  let vm := { vm with
    intWaitTimer := vm.intWaitTimer - 1
    intwaitlist := vm.intwaitlist ++ [vm.current] }
  let vm ← deactivateTask vm vm.current
  pure (vm.setTask vm.current fun t => { t with needReschedule := true })

/-- The sleep timer of an interactive task, which goes to sleep when it expires. -/
def tickSleep (vm : Vm) : Option Vm :=
  let vm :=
    if vm.intWaitTimer > 0 then { vm with intWaitTimer := vm.intWaitTimer - 1 } else vm
  if vm.intWaitTimer = 0 then goToSleep vm else some vm

/-- The next "IO" event. -/
def armIntTimer (setup : Setup) (vm : Vm) : Vm :=
  if vm.intTimer < 0 then
    { vm with
      intTimer := msToTicks (setup.rand vm.drawn % 1000 + 50 : Nat)
      drawn := vm.drawn + 1 }
  else vm

/-- The end of `cycle`, for a task that did not end. -/
def spawnAll (setup : Setup) (vm : Vm) : Option Vm := do
  let vm := armIntTimer setup vm
  let vm ← spawnChildren setup vm vm.current
  spawnChildren setup vm .init

def cycle (setup : Setup) (vm : Vm) : Option Vm := do
  let (ended, vm) ← taskEnd setup vm
  if ended then pure vm
  else
    match setup.profile.threadType vm.current with
    | .init => spawnAll setup vm
    | .interactive =>
        let (ended, vm) ← work setup vm
        if ended then pure vm
        else
          let vm ← tickSleep vm
          spawnAll setup vm
    | .noninteractive =>
        let (ended, vm) ← work setup vm
        if ended then pure vm
        else spawnAll setup vm

/-! ## Interrupts -/

/-- The schedule tick of `interrupt`. -/
def scheduleTick (vm : Vm) : Vm :=
  let vm := if vm.timer > 0 then { vm with timer := vm.timer - 1 } else vm
  if vm.timer ≤ 0 then
    let vm := { vm with jiffies := vm.jiffies + 1, timer := msToTicks 10 }
    if (vm.task vm.current).next ≠ none then
      let (vm, calls) := schedulerTick vm vm.current
      { vm with pc := if calls then .tickSchedule else .io }
    else { vm with pc := .io }
  else { vm with pc := .io }

/-- Wakes the sleeping tasks one after the other. -/
def wakeAll (setup : Setup) : List Task → Vm → Option Vm
  | [], vm => some vm
  | task :: rest, vm => do
      let vm ← activateTask setup vm task
      wakeAll setup rest { vm with intwaitlist := vm.intwaitlist.erase task }

/-- The "IO" event of `interrupt`. -/
def ioEvent (setup : Setup) (vm : Vm) : Option Vm :=
  let vm := if vm.intTimer > 0 then { vm with intTimer := vm.intTimer - 1 } else vm
  if vm.intTimer = 0 then do
    let vm := { vm with intTimer := vm.intTimer - 1 }
    let vm ← wakeAll setup vm.intwaitlist vm
    pure (vm.setTask vm.current fun t => { t with needReschedule := true })
  else some vm

/-- The end of an iteration: the kill message, and the condition of the loop. -/
def endCycle (setup : Setup) (vm : Vm) : Vm :=
  let vm :=
    if !(vm.info .init).kill && decide (setup.ticksToMs vm.clocktick ≥ setup.profile.endtime) then
      vm.setInfo .init fun info => { info with kill := true }
    else vm
  { vm with pc := if vm.nrRunning ≠ 0 then .cycle else .halted }

/-! ## Steps -/

/-- The step at a place of the machine. -/
def step (setup : Setup) (vm : Vm) : Option Vm :=
  match vm.pc with
  | .start => do
      let vm ← schedule setup vm
      pure { vm with timer := msToTicks 10, pc := .cycle }
  | .cycle => do
      let vm ← cycle setup vm
      pure { vm with pc := .tick }
  | .tick => some (scheduleTick vm)
  | .tickSchedule => do
      let vm ← schedule setup vm
      pure { vm with pc := .io }
  | .io => do
      let vm ← ioEvent setup vm
      let vm := { vm with clocktick := vm.clocktick + 1 }
      pure { vm with pc := if (vm.task vm.current).needReschedule then .reschedule else .endCycle }
  | .reschedule => do
      let vm ← schedule setup vm
      pure { vm with pc := .endCycle }
  | .endCycle => some (endCycle setup vm)
  | .halted => none

/-- What a step leads to, by the place of the machine. -/
inductive Taken (setup : Setup) (vm : Vm) : Vm → Prop
  | start {next : Vm} (pc : vm.pc = .start) (scheduled : schedule setup vm = some next) :
      Taken setup vm { next with timer := msToTicks 10, pc := .cycle }
  | cycle {next : Vm} (pc : vm.pc = .cycle) (cycled : cycle setup vm = some next) :
      Taken setup vm { next with pc := .tick }
  | tick (pc : vm.pc = .tick) : Taken setup vm (scheduleTick vm)
  | tickSchedule {next : Vm} (pc : vm.pc = .tickSchedule)
      (scheduled : schedule setup vm = some next) : Taken setup vm { next with pc := .io }
  | io {next : Vm} (pc : vm.pc = .io) (event : ioEvent setup vm = some next) :
      Taken setup vm { next with
        clocktick := next.clocktick + 1
        pc := if (next.task next.current).needReschedule then .reschedule else .endCycle }
  | reschedule {next : Vm} (pc : vm.pc = .reschedule)
      (scheduled : schedule setup vm = some next) : Taken setup vm { next with pc := .endCycle }
  | endCycle (pc : vm.pc = .endCycle) : Taken setup vm (endCycle setup vm)

theorem step_taken {setup : Setup} {vm next : Vm} (taken : step setup vm = some next) :
    Taken setup vm next := by
  unfold step at taken
  cases pc : vm.pc with
  | start =>
      simp only [pc, Option.bind_eq_bind, Option.bind_eq_some_iff] at taken
      rcases taken with ⟨switched, scheduled, done⟩
      exact Option.some.inj done ▸ .start pc scheduled
  | cycle =>
      simp only [pc, Option.bind_eq_bind, Option.bind_eq_some_iff] at taken
      rcases taken with ⟨cycled, ran, done⟩
      exact Option.some.inj done ▸ .cycle pc ran
  | tick =>
      simp only [pc, Option.some.injEq] at taken
      exact taken ▸ .tick pc
  | tickSchedule =>
      simp only [pc, Option.bind_eq_bind, Option.bind_eq_some_iff] at taken
      rcases taken with ⟨switched, scheduled, done⟩
      exact Option.some.inj done ▸ .tickSchedule pc scheduled
  | io =>
      simp only [pc, Option.bind_eq_bind, Option.bind_eq_some_iff] at taken
      rcases taken with ⟨fired, event, done⟩
      exact Option.some.inj done ▸ .io pc event
  | reschedule =>
      simp only [pc, Option.bind_eq_bind, Option.bind_eq_some_iff] at taken
      rcases taken with ⟨switched, scheduled, done⟩
      exact Option.some.inj done ▸ .reschedule pc scheduled
  | endCycle =>
      simp only [pc, Option.some.injEq] at taken
      exact taken ▸ .endCycle pc
  | halted => simp [pc] at taken

/-- The machines of a run. -/
inductive Reachable (setup : Setup) : Vm → Prop
  | boot : Reachable setup (boot setup)
  | step {vm next : Vm} (reachable : Reachable setup vm) (taken : step setup vm = some next) :
      Reachable setup next

end CE321.Vsched
