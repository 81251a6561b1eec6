import CE321.Vsched.Machine

/-! # The schedulers, `schedule.c`

The functions of both `schedule.c` files, which differ in how the next task is chosen and
in the field `last_time_in_runqueue`, and `context_switch` of `cpu.c`.
-/

namespace CE321.Vsched

/-- The walk of `print_rq`: the tasks behind the head of the run queue. It ends within as
many steps as there are tasks or not at all. -/
def printRq (setup : Setup) (vm : Vm) : Option (List Task) :=
  walkRing (fun task => (vm.task task).next) vm.head (setup.profile.processes.length + 2) vm.head

/-- An interactive task gets a time after which it goes to sleep. -/
def contextSwitch (setup : Setup) (vm : Vm) (next : Task) : Vm :=
  let vm :=
    if setup.profile.threadType next = .interactive then
      let modulus := (vm.task next).timeSlice * 100 % 2 ^ 32 / 1000 + 100
      { vm with
        intWaitTimer := (500 * (setup.rand vm.drawn % modulus + 5) % 2 ^ 32 : Nat)
        drawn := vm.drawn + 1 }
    else vm
  { vm with current := next }

/-! ## Choosing a task -/

/-- `(burst + 0.5 * exp_burst) / (1 + 0.5)`, exact and then truncated. -/
def calculateExpBurst (p : TaskStruct) : TaskStruct :=
  { p with expBurst := (2 * p.burst + p.expBurst) / 3 % 2 ^ 32 }

/-- The loop of `find_minExpBurst` over the tasks behind the head. -/
def minExpBurstLoop (vm : Vm) : List Task → (minimum : Nat) → (minTask : Task) → Task
  | [], _, minTask => minTask
  | temp :: rest, minimum, minTask =>
      if (vm.task temp).expBurst < minimum then
        minExpBurstLoop vm rest (vm.task temp).expBurst temp
      else minExpBurstLoop vm rest minimum minTask

def findMinExpBurst (vm : Vm) (first : Task) (behind : List Task) : Task :=
  minExpBurstLoop vm behind (vm.task first).expBurst first

/-- The oldest `last_time_in_runqueue` behind the head. -/
def findMaxWaitingInRQ (vm : Vm) (first : Task) (behind : List Task) : Nat :=
  behind.foldl (fun oldest temp => min oldest (vm.task temp).lastTimeInRunqueue)
    (vm.task first).lastTimeInRunqueue

/-- The goodness of a task, in the arithmetic of its operands: the first dividend is an
`unsigned int`. -/
def goodness (vm : Vm) (currentTime maxWaiting minExpBurst : Nat) (p : Task) : Option Nat :=
  let divisor := (1 + sub64 currentTime (vm.task p).lastTimeInRunqueue) % 2 ^ 64
  if divisor = 0 then none
  else some ((1 + (vm.task p).expBurst) % 2 ^ 32 / (1 + minExpBurst) *
    ((1 + maxWaiting) % 2 ^ 64 / divisor) % 2 ^ 64)

def goodnessLoop (vm : Vm) (currentTime maxWaiting minExpBurst : Nat) :
    List Task → (minGoodness : Nat) → (minTask : Task) → Option Task
  | [], _, minTask => some minTask
  | p :: rest, minGoodness, minTask => do
      let here ← goodness vm currentTime maxWaiting minExpBurst p
      if here < minGoodness then
        goodnessLoop vm currentTime maxWaiting minExpBurst rest here p
      else goodnessLoop vm currentTime maxWaiting minExpBurst rest minGoodness minTask

def calculateGoodness (vm : Vm) (first : Task) (behind : List Task) : Option Task := do
  let currentTime := schedClock vm
  let minExpBurst := (vm.task (findMinExpBurst vm first behind)).expBurst
  let maxWaiting := sub64 currentTime (findMaxWaitingInRQ vm first behind)
  let minGoodness ← goodness vm currentTime maxWaiting minExpBurst first
  goodnessLoop vm currentTime maxWaiting minExpBurst behind minGoodness first

/-- What `schedule` calls to choose among three tasks and more. -/
def choose (scheduler : Scheduler) (vm : Vm) (first : Task) (behind : List Task) : Option Task :=
  match scheduler with
  | .sjf => some (findMinExpBurst vm first behind)
  | .sjfGoodness => calculateGoodness vm first behind

/-! ## `schedule` -/

/-- The outgoing task gets the time and a provisional burst. -/
def putAside (setup : Setup) (vm : Vm) : Vm :=
  let now := schedClock vm
  let vm := match setup.scheduler with
    | .sjf => vm
    | .sjfGoodness => vm.setTask vm.current fun t => { t with lastTimeInRunqueue := now }
  vm.setTask vm.current fun t =>
    calculateExpBurst { t with burst := sub64 now t.cpuOwned % 2 ^ 32 }

/-- The outgoing task loses the provisional burst again if it is chosen. -/
def takeOver (vm : Vm) (saved : TaskStruct) (chosen : Task) : Vm :=
  if vm.current = chosen then
    vm.setTask vm.current fun t => { t with burst := saved.burst, expBurst := saved.expBurst }
  else
    let vm := vm.setTask vm.current fun t =>
      { t with xe := (t.xe + t.burst) % 2 ^ 64, timeSlice := 50 }
    vm.setTask chosen fun t => { t with cpuOwned := schedClock vm }

/-- The branch for three tasks and more. -/
def scheduleMany (setup : Setup) (vm : Vm) (first : Task) (behind : List Task) : Option Vm := do
  let saved := vm.task vm.current
  let vm := putAside setup vm
  let chosen ← choose setup.scheduler vm first behind
  pure (contextSwitch setup (takeOver vm saved chosen) chosen)

def schedule (setup : Setup) (vm : Vm) : Option Vm := do
  let behind ← printRq setup vm
  let vm := vm.setTask vm.current fun t => { t with needReschedule := false }
  if vm.nrRunning = 1 then pure (contextSwitch setup vm vm.head)
  else
    let first ← (vm.task vm.head).next
    if vm.nrRunning = 2 then
      let vm := vm.setTask first fun t => { t with cpuOwned := schedClock vm }
      pure (contextSwitch setup vm first)
    else scheduleMany setup vm first behind

/-! ## The run queue -/

def schedFork (vm : Vm) (p : Task) : Vm :=
  vm.setTask p fun t => { t with
    timeSlice := 50, burst := 0, expBurst := 0, cpuOwned := 0, xe := 0, xd := schedClock vm, xa := 0 }

/-- The ticking task, and whether `schedule` is called for it. -/
def schedulerTick (vm : Vm) (p : Task) : Vm × Bool :=
  if p = vm.head ∧ vm.nrRunning > 1 then (vm, true)
  else if p ≠ vm.head then
    let vm := vm.setTask p fun t => { t with timeSlice := (t.timeSlice + (2 ^ 32 - 1)) % 2 ^ 32 }
    if (vm.task p).timeSlice = 0 then
      (vm.setTask p fun t => { t with timeSlice := 50 }, true)
    else (vm, false)
  else (vm, false)

/-- The links of a task that is put in between the head and the task behind it. -/
def linkBehindHead (vm : Vm) (first p : Task) : Vm :=
  let vm := vm.setTask p fun t => { t with next := some first, prev := some vm.head }
  let vm := vm.setTask first fun t => { t with prev := some p }
  vm.setTask vm.head fun t => { t with next := some p }

/-- Puts a task in behind the head of the run queue. -/
def enqueue (setup : Setup) (vm : Vm) (p : Task) : Option Vm := do
  let first ← (vm.task vm.head).next
  let vm := linkBehindHead vm first p
  let vm := { vm with nrRunning := vm.nrRunning + 1 }
  match setup.scheduler with
  | .sjf => pure vm
  | .sjfGoodness => pure (vm.setTask p fun t => { t with lastTimeInRunqueue := schedClock vm })

def wakeUpNewTask (setup : Setup) (vm : Vm) (p : Task) : Option Vm := enqueue setup vm p

def activateTask (setup : Setup) (vm : Vm) (p : Task) : Option Vm := enqueue setup vm p

def deactivateTask (vm : Vm) (p : Task) : Option Vm := do
  let left ← (vm.task p).prev
  let vm := vm.setTask left fun t => { t with next := (vm.task p).next }
  let right ← (vm.task p).next
  let vm := vm.setTask right fun t => { t with prev := (vm.task p).prev }
  let vm := vm.setTask p fun t => { t with next := none, prev := none }
  pure { vm with nrRunning := vm.nrRunning - 1 }

end CE321.Vsched
