import CE321.Vsched.Cpu

/-! # What does not depend on the lists

The wait list and the children not forked yet may be replaced: everything but the loops over
them does the same with the new ones and keeps them.
-/

namespace CE321.Vsched

/-- The machine with other sequences in its lists. -/
def Vm.withLists (vm : Vm) (asleep : List Task) (list : Task → List Nat) : Vm :=
  { vm with
    intwaitlist := asleep
    info := fun task => { vm.info task with list := list task } }

/-- A part of the machine that neither reads the lists nor changes them. -/
def IgnoresLists (part : Vm → Option Vm) : Prop :=
  ∀ vm asleep list, part (vm.withLists asleep list) =
    (part vm).map fun vm => vm.withLists asleep list

section

variable {setup : Setup} {vm vm' : Vm} {asleep : List Task} {list : Task → List Nat}

@[simp] theorem withLists_self (vm : Vm) :
    vm.withLists vm.intwaitlist (fun task => (vm.info task).list) = vm := rfl

@[simp] theorem withLists_task (vm : Vm) (asleep : List Task) (list : Task → List Nat) :
    (vm.withLists asleep list).task = vm.task := rfl

@[simp] theorem withLists_nrRunning (vm : Vm) (asleep : List Task) (list : Task → List Nat) :
    (vm.withLists asleep list).nrRunning = vm.nrRunning := rfl

@[simp] theorem withLists_head (vm : Vm) (asleep : List Task) (list : Task → List Nat) :
    (vm.withLists asleep list).head = vm.head := rfl

@[simp] theorem withLists_current (vm : Vm) (asleep : List Task) (list : Task → List Nat) :
    (vm.withLists asleep list).current = vm.current := rfl

@[simp] theorem setTask_withLists (vm : Vm) (asleep : List Task) (list : Task → List Nat)
    (task : Task) (change : TaskStruct → TaskStruct) :
    (vm.withLists asleep list).setTask task change =
      (vm.setTask task change).withLists asleep list := rfl

@[simp] theorem schedClock_withLists (vm : Vm) (asleep : List Task) (list : Task → List Nat) :
    schedClock (vm.withLists asleep list) = schedClock vm := rfl

theorem lists_of_withLists (same : vm' = vm.withLists asleep list) :
    vm'.intwaitlist = asleep ∧ ∀ task, (vm'.info task).list = list task := by
  constructor
  · rw [same]
    rfl
  · intro task
    rw [same]
    rfl

theorem IgnoresLists.keeps {part : Vm → Option Vm} (ignores : IgnoresLists part)
    (done : part vm = some vm') :
    vm'.intwaitlist = vm.intwaitlist ∧ ∀ task, (vm'.info task).list = (vm.info task).list := by
  have same := ignores vm vm.intwaitlist fun task => (vm.info task).list
  rw [withLists_self, done, Option.map_some, Option.some.injEq] at same
  exact lists_of_withLists same

theorem IgnoresLists.pure {part : Vm → Vm}
    (ignores : ∀ vm asleep list, part (vm.withLists asleep list) =
      (part vm).withLists asleep list) : IgnoresLists fun vm => some (part vm) := by
  intro vm asleep list
  change some (part (vm.withLists asleep list)) = some ((part vm).withLists asleep list)
  rw [ignores]

theorem setInfo_withLists (vm : Vm) (task : Task) {change : ThreadInfo → ThreadInfo}
    (same : ∀ info list, change { info with list := list } = { change info with list := list }) :
    (vm.withLists asleep list).setInfo task change =
      (vm.setInfo task change).withLists asleep list := by
  have info : Function.update (fun other => { vm.info other with list := list other }) task
      (change { vm.info task with list := list task }) =
        fun other => { Function.update vm.info task (change (vm.info task)) other with
          list := list other } := by
    funext other
    by_cases isTask : other = task
    · subst isTask
      rw [Function.update_self, Function.update_self, same]
    · rw [Function.update_of_ne isTask, Function.update_of_ne isTask]
  simp only [Vm.setInfo, Vm.withLists, info]

/-! ## The schedulers -/

theorem minExpBurstLoop_withLists (tasks : List Task) : ∀ minimum minTask,
    minExpBurstLoop (vm.withLists asleep list) tasks minimum minTask =
      minExpBurstLoop vm tasks minimum minTask := by
  induction tasks with
  | nil => exact fun _ _ => rfl
  | cons temp rest induction =>
      intro minimum minTask
      rw [minExpBurstLoop, minExpBurstLoop, induction, induction]
      rfl

theorem goodnessLoop_withLists (currentTime maxWaiting minExpBurst : Nat) (tasks : List Task) :
    ∀ minGoodness minTask,
      goodnessLoop (vm.withLists asleep list) currentTime maxWaiting minExpBurst tasks minGoodness
          minTask =
        goodnessLoop vm currentTime maxWaiting minExpBurst tasks minGoodness minTask := by
  induction tasks with
  | nil => exact fun _ _ => rfl
  | cons p rest induction =>
      intro minGoodness minTask
      simp only [goodnessLoop, induction]
      rfl

theorem choose_withLists (scheduler : Scheduler) (first : Task) (behind : List Task) :
    choose scheduler (vm.withLists asleep list) first behind = choose scheduler vm first behind := by
  cases scheduler with
  | sjf => exact congrArg some (minExpBurstLoop_withLists behind ..)
  | sjfGoodness =>
      simp only [choose, calculateGoodness, findMinExpBurst, minExpBurstLoop_withLists,
        goodnessLoop_withLists]
      rfl

theorem contextSwitch_withLists (next : Task) :
    contextSwitch setup (vm.withLists asleep list) next =
      (contextSwitch setup vm next).withLists asleep list := by
  by_cases interactive : setup.profile.threadType next = .interactive
  · simp only [contextSwitch, if_pos interactive]
    rfl
  · simp only [contextSwitch, if_neg interactive]
    rfl

theorem putAside_withLists :
    putAside setup (vm.withLists asleep list) = (putAside setup vm).withLists asleep list := by
  unfold putAside
  cases setup.scheduler with
  | sjf => rfl
  | sjfGoodness => rfl

theorem takeOver_withLists (saved : TaskStruct) (chosen : Task) :
    takeOver (vm.withLists asleep list) saved chosen =
      (takeOver vm saved chosen).withLists asleep list := by
  by_cases again : vm.current = chosen
  · simp only [takeOver, withLists_current, eq_true again, if_true, setTask_withLists]
  · simp only [takeOver, withLists_current, eq_false again, if_false, setTask_withLists,
      schedClock_withLists]

theorem scheduleMany_ignoresLists (first : Task) (behind : List Task) :
    IgnoresLists fun vm => scheduleMany setup vm first behind := by
  intro vm asleep list
  simp only [scheduleMany, putAside_withLists, choose_withLists, withLists_task,
    withLists_current]
  cases choose setup.scheduler (putAside setup vm) first behind with
  | none => rfl
  | some chosen =>
      simp only [Option.bind_eq_bind, Option.bind_some, Option.pure_def, Option.map_some,
        takeOver_withLists, contextSwitch_withLists]

theorem schedule_ignoresLists : IgnoresLists (schedule setup) := by
  intro vm asleep list
  have walk : printRq setup (vm.withLists asleep list) = printRq setup vm := rfl
  have count : ∀ change, (vm.setTask vm.current change).nrRunning = vm.nrRunning := fun _ => rfl
  simp only [schedule, walk, withLists_current, setTask_withLists, withLists_nrRunning,
    withLists_head, withLists_task, count]
  cases printRq setup vm with
  | none => rfl
  | some behind =>
      simp only [Option.bind_eq_bind, Option.bind_some, contextSwitch_withLists]
      by_cases alone : vm.nrRunning = 1
      · simp only [eq_true alone, if_true, Option.pure_def, Option.map_some]
      · simp only [eq_false alone, if_false]
        cases ((vm.setTask vm.current fun t => { t with needReschedule := false }).task
          (vm.setTask vm.current fun t => { t with needReschedule := false }).head).next with
        | none => rfl
        | some first =>
            simp only [Option.bind_some, schedClock_withLists]
            by_cases two : vm.nrRunning = 2
            · simp only [eq_true two, if_true, Option.pure_def, Option.map_some]
            · simp only [eq_false two, if_false]
              exact scheduleMany_ignoresLists first behind _ asleep list

theorem enqueue_ignoresLists (p : Task) : IgnoresLists fun vm => enqueue setup vm p := by
  intro vm asleep list
  simp only [enqueue, withLists_task, withLists_head]
  cases (vm.task vm.head).next with
  | none => rfl
  | some first =>
      cases setup.scheduler with
      | sjf => rfl
      | sjfGoodness => rfl

theorem deactivateTask_ignoresLists : IgnoresLists fun vm => deactivateTask vm vm.current := by
  intro vm asleep list
  simp only [deactivateTask, withLists_task, withLists_current]
  cases (vm.task vm.current).prev with
  | none => rfl
  | some left =>
      simp only [Option.bind_eq_bind, Option.bind_some, setTask_withLists, withLists_task]
      cases ((vm.setTask left fun t => { t with next := (vm.task vm.current).next }).task
        vm.current).next with
      | none => rfl
      | some right => rfl

/-! ## The machine -/

theorem newTask_withLists (thread : Nat) : newTask setup (vm.withLists asleep list) thread =
    (newTask setup vm thread).withLists asleep list := by
  simp only [newTask, setTask_withLists]
  rw [setInfo_withLists]
  · cases setup.profile.parent (.process thread) with
    | none => rfl
    | some parent =>
        simp only
        rw [setInfo_withLists]
        · rfl
        · exact fun _ _ => rfl
  · exact fun _ _ => rfl

theorem forktask_ignoresLists (thread : Nat) : IgnoresLists fun vm => forktask setup vm thread := by
  intro vm asleep list
  have enqueued := @enqueue_ignoresLists setup (.process thread) (newTask setup vm thread) asleep list
  simp only at enqueued
  simp only [forktask, wakeUpNewTask, newTask_withLists, enqueued]
  cases enqueue setup (newTask setup vm thread) (.process thread) with
  | none => rfl
  | some vm' => rfl

theorem report_withLists (j : Task) :
    report (vm.withLists asleep list) j = (report vm j).withLists asleep list := by
  by_cases isInit : j = .init
  · simp only [report, isInit, ne_eq, not_true, if_false]
    rfl
  · simp only [report, ne_eq, isInit, not_false_iff, if_true]
    rfl

theorem killtask_withLists :
    killtask setup (vm.withLists asleep list) = (killtask setup vm).withLists asleep list := by
  simp only [killtask, withLists_current, report_withLists]
  generalize report vm vm.current = reported
  have count : ∀ parent change, (reported.setInfo parent change).nrRunning = reported.nrRunning :=
    fun _ _ => rfl
  cases setup.profile.parent vm.current with
  | none =>
      by_cases last : reported.nrRunning = 0
      · simp only [withLists_nrRunning, last, ne_eq, not_true, if_false]
        rfl
      · simp only [withLists_nrRunning, last, ne_eq, not_false_iff, if_true]
        rfl
  | some parent =>
      have counted : (reported.withLists asleep list).setInfo parent
          (fun info => { info with children := info.children - 1 }) =
            (reported.setInfo parent fun info =>
              { info with children := info.children - 1 }).withLists asleep list :=
        setInfo_withLists reported parent fun _ _ => rfl
      by_cases last : reported.nrRunning = 0
      · simp only [counted, withLists_nrRunning, count, last, ne_eq, not_true, if_false]
        rfl
      · simp only [counted, withLists_nrRunning, count, last, ne_eq, not_false_iff, if_true]
        rfl

theorem isEnding_withLists :
    isEnding setup (vm.withLists asleep list) = isEnding setup vm := rfl

/-- What `taskEnd` does to a task that is marked. -/
def endMarked (setup : Setup) (vm : Vm) : Option (Bool × Vm) :=
  if (vm.info vm.current).children = 0 then do
    let vm ← deactivateTask vm vm.current
    pure (true, killtask setup vm)
  else some (false, vm)

theorem taskEnd_eq (setup : Setup) (vm : Vm) : taskEnd setup vm =
    if isEnding setup vm then
      endMarked setup (vm.setInfo vm.current fun info => { info with kill := true })
    else some (false, vm) := rfl

theorem endMarked_withLists : endMarked setup (vm.withLists asleep list) =
    (endMarked setup vm).map fun result => (result.1, result.2.withLists asleep list) := by
  have deactivated := @deactivateTask_ignoresLists vm asleep list
  simp only [withLists_current] at deactivated
  have children : ((vm.withLists asleep list).info vm.current).children =
      (vm.info vm.current).children := rfl
  by_cases childless : (vm.info vm.current).children = 0
  · simp only [endMarked, withLists_current, children, eq_true childless, if_true, deactivated]
    cases deactivateTask vm vm.current with
    | none => rfl
    | some left =>
        simp only [Option.map_some, Option.bind_eq_bind, Option.bind_some, Option.pure_def,
          killtask_withLists]
  · simp only [endMarked, withLists_current, children, eq_false childless, if_false]
    rfl

theorem taskEnd_withLists : taskEnd setup (vm.withLists asleep list) =
    (taskEnd setup vm).map fun result => (result.1, result.2.withLists asleep list) := by
  have marked : (vm.withLists asleep list).setInfo vm.current (fun info =>
      { info with kill := true }) =
        (vm.setInfo vm.current fun info => { info with kill := true }).withLists asleep list :=
    setInfo_withLists vm vm.current fun _ _ => rfl
  rw [taskEnd_eq, taskEnd_eq, isEnding_withLists, withLists_current, marked]
  split_ifs
  · exact endMarked_withLists
  · rfl

def worked (vm : Vm) : Vm :=
  if (vm.info vm.current).workDuration > 0 then
    vm.setInfo vm.current fun info => { info with workDuration := info.workDuration - 1 }
  else vm

theorem worked_withLists : worked (vm.withLists asleep list) = (worked vm).withLists asleep list := by
  have duration : ((vm.withLists asleep list).info vm.current).workDuration =
      (vm.info vm.current).workDuration := rfl
  by_cases working : (vm.info vm.current).workDuration > 0
  · simp only [worked, withLists_current, duration, eq_true working, if_true]
    exact setInfo_withLists vm vm.current fun _ _ => rfl
  · simp only [worked, withLists_current, duration, eq_false working, if_false]

theorem armIntTimer_withLists :
    armIntTimer setup (vm.withLists asleep list) = (armIntTimer setup vm).withLists asleep list := by
  unfold armIntTimer
  by_cases fired : vm.intTimer < 0
  · have fired' : (vm.withLists asleep list).intTimer < 0 := fired
    have drawn : (vm.withLists asleep list).drawn = vm.drawn := rfl
    rw [if_pos fired, if_pos fired', drawn]
    generalize msToTicks (setup.rand vm.drawn % 1000 + 50 : Nat) = next
    rfl
  · have fired' : ¬ (vm.withLists asleep list).intTimer < 0 := fired
    rw [if_neg fired, if_neg fired']

/-- The slice of a ticking task is renewed when it is used up. -/
def renew (vm : Vm) (p : Task) : Vm × Bool :=
  if (vm.task p).timeSlice = 0 then (vm.setTask p fun t => { t with timeSlice := 50 }, true)
  else (vm, false)

def lessSlice (t : TaskStruct) : TaskStruct :=
  { t with timeSlice := (t.timeSlice + (2 ^ 32 - 1)) % 2 ^ 32 }

theorem schedulerTick_eq (vm : Vm) (p : Task) : schedulerTick vm p =
    if p = vm.head ∧ vm.nrRunning > 1 then (vm, true)
    else if p ≠ vm.head then renew (vm.setTask p lessSlice) p
    else (vm, false) := rfl

theorem renew_withLists (p : Task) : renew (vm.withLists asleep list) p =
    ((renew vm p).1.withLists asleep list, (renew vm p).2) := by
  by_cases spent : (vm.task p).timeSlice = 0
  · simp only [renew, withLists_task, eq_true spent, if_true, setTask_withLists]
  · simp only [renew, withLists_task, eq_false spent, if_false]

theorem schedulerTick_withLists (p : Task) : schedulerTick (vm.withLists asleep list) p =
    ((schedulerTick vm p).1.withLists asleep list, (schedulerTick vm p).2) := by
  rw [schedulerTick_eq, schedulerTick_eq]
  by_cases isHead : p = vm.head
  · by_cases many : vm.nrRunning > 1
    · simp only [withLists_head, withLists_nrRunning, eq_true isHead, eq_true many, and_self,
        if_true]
    · simp only [withLists_head, withLists_nrRunning, eq_true isHead, eq_false many, and_false,
        if_false, ne_eq, not_true]
  · simp only [withLists_head, withLists_nrRunning, eq_false isHead, false_and, if_false, ne_eq,
      not_false_iff, if_true, setTask_withLists, renew_withLists]

def jiffy (vm : Vm) : Vm :=
  if (vm.task vm.current).next ≠ none then
    let (vm, calls) := schedulerTick vm vm.current
    { vm with pc := if calls then .tickSchedule else .io }
  else { vm with pc := .io }

theorem jiffy_withLists : jiffy (vm.withLists asleep list) = (jiffy vm).withLists asleep list := by
  by_cases queued : (vm.task vm.current).next = none
  · simp only [jiffy, withLists_task, withLists_current, eq_true queued, ne_eq, not_true, if_false]
    rfl
  · simp only [jiffy, withLists_task, withLists_current, eq_false queued, ne_eq, not_false_iff,
      if_true, schedulerTick_withLists]
    rfl

/-- The schedule tick, once its timer is counted down. -/
def tickOver (vm : Vm) : Vm :=
  if vm.timer ≤ 0 then jiffy { vm with jiffies := vm.jiffies + 1, timer := msToTicks 10 }
  else { vm with pc := .io }

theorem scheduleTick_eq (vm : Vm) : scheduleTick vm =
    if vm.timer > 0 then tickOver { vm with timer := vm.timer - 1 } else tickOver vm := by
  by_cases running : vm.timer > 0
  · rw [scheduleTick, if_pos running, if_pos running]
    rfl
  · rw [scheduleTick, if_neg running, if_neg running]
    rfl

theorem tickOver_withLists :
    tickOver (vm.withLists asleep list) = (tickOver vm).withLists asleep list := by
  have counted : tickOver (vm.withLists asleep list) =
      if vm.timer ≤ 0 then
        jiffy (({ vm with jiffies := vm.jiffies + 1, timer := msToTicks 10 } : Vm).withLists asleep
          list)
      else ({ vm with pc := .io } : Vm).withLists asleep list := rfl
  rw [counted, tickOver]
  split_ifs
  · exact jiffy_withLists
  · rfl

theorem scheduleTick_withLists :
    scheduleTick (vm.withLists asleep list) = (scheduleTick vm).withLists asleep list := by
  have timer : (vm.withLists asleep list).timer = vm.timer := rfl
  rw [scheduleTick_eq, scheduleTick_eq, timer]
  split_ifs
  · exact @tickOver_withLists { vm with timer := vm.timer - 1 } asleep list
  · exact tickOver_withLists

theorem endCycle_withLists :
    endCycle setup (vm.withLists asleep list) = (endCycle setup vm).withLists asleep list := by
  have message : (vm.withLists asleep list).setInfo .init (fun info => { info with kill := true }) =
      (vm.setInfo .init fun info => { info with kill := true }).withLists asleep list :=
    setInfo_withLists vm .init fun _ _ => rfl
  have same : (!((vm.withLists asleep list).info .init).kill && decide
      (setup.ticksToMs (vm.withLists asleep list).clocktick ≥ setup.profile.endtime)) =
        (!(vm.info .init).kill && decide (setup.ticksToMs vm.clocktick ≥ setup.profile.endtime)) :=
    rfl
  cases ends : !(vm.info .init).kill && decide (setup.ticksToMs vm.clocktick ≥ setup.profile.endtime) with
  | true =>
      simp only [endCycle, same, ends, if_true, message]
      rfl
  | false =>
      simp only [endCycle, same, ends, Bool.false_eq_true, if_false]
      rfl

end

end CE321.Vsched
