import CE321.Foundation.Ring

/-! # The virtual machine's data

The profile of processes, the tasks and the globals of `cpu.c` and `schedule.c`, for the
schedulers `sjf` and `sjf-goodness`. What `readProfile` reads of a process does not change
later and stands in the profile; the rest of its `thread_info` is in the machine.

A result `none` stands for a null link that is followed, a division by zero or a list
without end. Printing, but for the timing results, is left out. So are the overflows of
counters that no run gets to: `jiffies`, `clocktick`, `nr_running`, `children`. The names of the
threads are left out too: that each was written is asked where a profile is loaded, and a run is
followed also where a name outgrows the `str` of `forktask`.
-/

namespace CE321.Vsched

/-- `INIT`, `INTERACTIVE` and `NONINTERACTIVE`. -/
inductive ThreadType where
  | init
  | interactive
  | noninteractive
  deriving DecidableEq

/-- A process of the profile. Without a parent it is a child of init. -/
structure Process where
  spawnTime : Int
  killTime : Int
  workDuration : Int
  threadType : ThreadType
  spawns : Bool
  parent : Option Nat
  deriving DecidableEq

/-- The processes in the order in which the profile has them. A process is read inside
its parent, so after it. -/
structure Profile where
  processes : List Process
  endtime : Int
  parentsFirst : ∀ (index parent : Nat) (process : Process),
    processes[index]? = some process → process.parent = some parent → parent < index
  typed : ∀ process ∈ processes, process.threadType ≠ .init

/-- The tasks: the two that the machine makes and those of the profile's processes. -/
inductive Task where
  | idle
  | init
  | process (index : Nat)
  deriving DecidableEq

structure TaskStruct where
  timeSlice : Nat
  needReschedule : Bool
  prev : Option Task
  next : Option Task
  burst : Nat
  expBurst : Nat
  cpuOwned : Nat
  lastTimeInRunqueue : Nat
  xe : Nat
  xd : Nat
  xa : Nat

inductive Scheduler where
  | sjf
  | sjfGoodness
  deriving DecidableEq

/-- What a run depends on. `malloced` is what new task structures hold, and `ticksToMs`
is `TICKS_TO_MS` with the rounding of the machine's `long double`. -/
structure Setup where
  profile : Profile
  scheduler : Scheduler
  ticksToMs : Nat → Int
  rand : Nat → Nat
  malloced : Task → TaskStruct

/-- The fields of `thread_info` that change. `list` has the children not forked yet. -/
structure ThreadInfo where
  children : Int
  kill : Bool
  workDuration : Int
  list : List Nat

/-- Where the machine is: before the first call of `schedule`, at the parts of an
iteration of `runcpu`, at the calls of `schedule` in them, or behind the loop. -/
inductive Pc where
  | start
  | cycle
  | tick
  | tickSchedule
  | io
  | reschedule
  | endCycle
  | halted
  deriving DecidableEq

/-- The globals. `drawn` counts the calls of `rand`, `results` has the lines of the timing
results, and `live` and `killed` record the tasks that were forked and are not killed yet,
and those that are. -/
structure Vm where
  pc : Pc
  info : Task → ThreadInfo
  task : Task → TaskStruct
  nrRunning : Nat
  head : Task
  current : Task
  intwaitlist : List Task
  jiffies : Nat
  clocktick : Nat
  timer : Int
  intTimer : Int
  intWaitTimer : Int
  drawn : Nat
  results : List (Task × Nat × Nat × Nat)
  live : List Task
  killed : List Task

/-! ## Views of the profile -/

/-- A process by its index. Only processes of the profile are ever forked. -/
def Profile.process (profile : Profile) (index : Nat) : Process :=
  profile.processes.getD index ⟨0, -1, -1, .noninteractive, false, none⟩

/-- `thread_info->parent`. -/
def Profile.parent (profile : Profile) : Task → Option Task
  | .idle => none
  | .init => none
  | .process index =>
      match (profile.process index).parent with
      | none => some .init
      | some parent => some (.process parent)

/-- `thread_info->thread_type`. The type -1 of the idle task has no case anywhere. -/
def Profile.threadType (profile : Profile) : Task → ThreadType
  | .idle => .init
  | .init => .init
  | .process index => (profile.process index).threadType

def Profile.killTime (profile : Profile) : Task → Int
  | .idle => -1
  | .init => -1
  | .process index => (profile.process index).killTime

def Profile.spawns (profile : Profile) : Task → Bool
  | .idle => false
  | .init => true
  | .process index => (profile.process index).spawns

/-- The children of a task in the profile. -/
def Profile.children (profile : Profile) (task : Task) : List Nat :=
  (List.range profile.processes.length).filter fun index =>
    profile.parent (.process index) = some task

/-! ## Time -/

/-- `MS_TO_TICKS` of an `int`. -/
def msToTicks (ms : Int) : Int := (500 * ms).bmod (2 ^ 32)

/-- Up to about 71 minutes the product does not overflow. -/
theorem msToTicks_of_fits {ms : Int} (lower : -4294967 ≤ ms) (upper : ms ≤ 4294967) :
    msToTicks ms = 500 * ms := by
  unfold msToTicks
  exact Int.bmod_eq_of_le_mul_two (by omega) (by omega)

/-- The time between schedule ticks. -/
theorem msToTicks_hzToMs : msToTicks 10 = 5000 := msToTicks_of_fits (by decide) (by decide)

/-- The times of the "IO" timer. -/
theorem msToTicks_rand (number : Nat) :
    msToTicks (number % 1000 + 50 : Nat) = 500 * (number % 1000 + 50 : Nat) :=
  msToTicks_of_fits (by omega) (by omega)

/-- `sched_clock`: `JIFFIES_TO_NS`, as an `unsigned long long`. -/
def schedClock (vm : Vm) : Nat := vm.jiffies * 10000000 % 2 ^ 64

/-- The difference of two `unsigned long long`. -/
def sub64 (a b : Nat) : Nat := (a + (2 ^ 64 - b % 2 ^ 64)) % 2 ^ 64

/-! ## Updates -/

def Vm.setTask (vm : Vm) (task : Task) (change : TaskStruct → TaskStruct) : Vm :=
  { vm with task := Function.update vm.task task (change (vm.task task)) }

def Vm.setInfo (vm : Vm) (task : Task) (change : ThreadInfo → ThreadInfo) : Vm :=
  { vm with info := Function.update vm.info task (change (vm.info task)) }

/-- `createTask`: a task structure that is on no list. -/
def createTask (setup : Setup) (task : Task) : TaskStruct :=
  { setup.malloced task with needReschedule := false, prev := none, next := none }

/-- The machine after `__init_sched` and `readProfile`, before the first `schedule`. -/
def boot (setup : Setup) : Vm where
  pc := .start
  info := fun task =>
    { children := 0
      kill := false
      workDuration := match task with
        | .process index => (setup.profile.process index).workDuration
        | _ => -1
      list := setup.profile.children task }
  task := fun task => match task with
    | .init => { createTask setup .init with prev := some .init, next := some .init }
    | _ => createTask setup task
  nrRunning := 1
  head := .init
  current := .idle
  intwaitlist := []
  jiffies := 0
  clocktick := 0
  timer := 0
  intTimer := -1
  intWaitTimer := -1
  drawn := 0
  results := []
  live := [.init]
  killed := []

end CE321.Vsched
