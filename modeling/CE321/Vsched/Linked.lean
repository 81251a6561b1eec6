import CE321.Vsched.Cpu
import CE321.Lists.ListHead

/-! # The machine with its linked lists

`cpu.c` on the links of its lists: the wait list of the tasks that sleep and the children that
each task has not forked yet. The machine of `Cpu.lean` has sequences in their place; here
these stay empty, and the parts of `cycle` and `interrupt` that use a list follow its links.
What is freed is overwritten with NULL.
-/

namespace CE321.Vsched

open CE321.Lists

/-- The addresses of list heads: `intwaitlist`, `list` in a `waitlist` structure, and `list`
and `clist` in the `thread_info` of a task. -/
inductive Entry where
  | intwaitlist
  | waitlist (address : Nat)
  | list (task : Task)
  | clist (process : Nat)
  deriving DecidableEq

/-- The memory: the address that each call gives to a new `waitlist` structure, and what it holds
before the start. A cycle makes one call at most, so that the tick tells the call. -/
structure Memory where
  malloc : (clocktick : Nat) → (used : List Nat) → Nat
  fresh : ∀ clocktick used, malloc clocktick used ∉ used
  links : Links Entry

/-- `waits` has the field `task` of the `waitlist` structures, `waitlists` those of them that
were allocated and are not freed. -/
structure Machine where
  vm : Vm
  links : Links Entry
  waits : Nat → Task
  waitlists : List Nat

namespace Linked

/-- Frees a structure with this list head in it. -/
def free (links : Links Entry) (entry : Entry) : Links Entry :=
  (links.setNext entry none).setPrev entry none

/-! ## Children -/

/-- The loop of `spawnChildren`, at one of the children that are not forked yet. There are no
more of them than processes, or the loop has no end. -/
def spawnLoop (setup : Setup) (parent : Task) :
    (fuel : Nat) → (child : Option Entry) → Machine → Option Machine
  | 0, _, _ => none
  | fuel + 1, child, machine =>
      if child = some (.list parent) then some machine
      else
        match child with
        | some (.clist temp) =>
            if msToTicks (setup.profile.process temp).spawnTime ≤ machine.vm.clocktick then do
              let vm ← forktask setup machine.vm temp
              let next := machine.links.next (.clist temp)
              let links ← listDel machine.links (.clist temp)
              spawnLoop setup parent fuel next { machine with vm := vm, links := links }
            else spawnLoop setup parent fuel (machine.links.next (.clist temp)) machine
        | _ => none

def spawnChildren (setup : Setup) (machine : Machine) (parent : Task) : Option Machine :=
  if setup.profile.spawns parent then
    spawnLoop setup parent (setup.profile.processes.length + 1)
      (machine.links.next (.list parent)) machine
  else some machine

/-! ## A cycle -/

/-- A task that was killed gives its `thread_info` back, if it is a process. -/
def taskEnd (setup : Setup) (machine : Machine) : Option (Bool × Machine) := do
  let j := machine.vm.current
  let (ended, vm) ← Vsched.taskEnd setup machine.vm
  let machine := { machine with vm := vm }
  match ended, j with
  | true, .process index =>
      pure (true, { machine with
        links := free (free machine.links (.list j)) (.clist index) })
  | _, _ => pure (ended, machine)

def work (setup : Setup) (machine : Machine) : Option (Bool × Machine) :=
  let vm := machine.vm
  let vm :=
    if (vm.info vm.current).workDuration > 0 then
      vm.setInfo vm.current fun info => { info with workDuration := info.workDuration - 1 }
    else vm
  if (vm.info vm.current).workDuration = 0 then taskEnd setup { machine with vm := vm }
  else some (false, { machine with vm := vm })

/-- Puts the current task on the wait list and out of the run queue. -/
def goToSleep (memory : Memory) (machine : Machine) : Option Machine := do
  let vm := { machine.vm with intWaitTimer := machine.vm.intWaitTimer - 1 }
  let tempwaitlist := memory.malloc machine.vm.clocktick machine.waitlists
  let links := initListHead machine.links (.waitlist tempwaitlist)
  let links ← listAddTail links (.waitlist tempwaitlist) .intwaitlist
  let vm' ← deactivateTask vm vm.current
  pure {
    vm := vm'.setTask vm.current fun t => { t with needReschedule := true }
    links := links
    waits := Function.update machine.waits tempwaitlist vm.current
    waitlists := tempwaitlist :: machine.waitlists }

def tickSleep (memory : Memory) (machine : Machine) : Option Machine :=
  let vm := machine.vm
  let vm := if vm.intWaitTimer > 0 then { vm with intWaitTimer := vm.intWaitTimer - 1 } else vm
  if vm.intWaitTimer = 0 then goToSleep memory { machine with vm := vm }
  else some { machine with vm := vm }

def spawnAll (setup : Setup) (machine : Machine) : Option Machine := do
  let machine := { machine with vm := armIntTimer setup machine.vm }
  let machine ← spawnChildren setup machine machine.vm.current
  spawnChildren setup machine .init

def cycle (setup : Setup) (memory : Memory) (machine : Machine) : Option Machine := do
  let (ended, machine) ← taskEnd setup machine
  if ended then pure machine
  else
    match setup.profile.threadType machine.vm.current with
    | .init => spawnAll setup machine
    | .interactive =>
        let (ended, machine) ← work setup machine
        if ended then pure machine
        else
          let machine ← tickSleep memory machine
          spawnAll setup machine
    | .noninteractive =>
        let (ended, machine) ← work setup machine
        if ended then pure machine
        else spawnAll setup machine

/-! ## Interrupts -/

/-- The loop of `interrupt` over the wait list, at one of its entries. The list has one entry
for each structure, or the loop has no end. -/
def wakeLoop (setup : Setup) : (fuel : Nat) → (listcur : Option Entry) → Machine → Option Machine
  | 0, _, _ => none
  | fuel + 1, listcur, machine =>
      if listcur = some .intwaitlist then some machine
      else
        match listcur with
        | some (.waitlist tempwaitlist) => do
            let vm ← activateTask setup machine.vm (machine.waits tempwaitlist)
            let listnext := machine.links.next (.waitlist tempwaitlist)
            let links ← listDel machine.links (.waitlist tempwaitlist)
            wakeLoop setup fuel listnext { machine with
              vm := vm
              links := free links (.waitlist tempwaitlist)
              waitlists := machine.waitlists.erase tempwaitlist }
        | _ => none

def ioEvent (setup : Setup) (machine : Machine) : Option Machine :=
  let vm := machine.vm
  let vm := if vm.intTimer > 0 then { vm with intTimer := vm.intTimer - 1 } else vm
  if vm.intTimer = 0 then do
    let machine := { machine with vm := { vm with intTimer := vm.intTimer - 1 } }
    let machine ← wakeLoop setup (machine.waitlists.length + 1) (machine.links.next .intwaitlist)
      machine
    pure { machine with
      vm := machine.vm.setTask machine.vm.current fun t => { t with needReschedule := true } }
  else some { machine with vm := vm }

/-! ## Steps -/

/-- The step at a place of the machine. The other places use no list. -/
def step (setup : Setup) (memory : Memory) (machine : Machine) : Option Machine :=
  match machine.vm.pc with
  | .cycle => do
      let machine ← cycle setup memory machine
      pure { machine with vm := { machine.vm with pc := .tick } }
  | .io => do
      let machine ← ioEvent setup machine
      let vm := { machine.vm with clocktick := machine.vm.clocktick + 1 }
      let pc := if (vm.task vm.current).needReschedule then Pc.reschedule else .endCycle
      pure { machine with vm := { vm with pc := pc } }
  | _ => do
      let vm ← Vsched.step setup machine.vm
      pure { machine with vm := vm }

/-- The links of the processes, as `readProfile` links one after the other behind its
parent. -/
def linkProcesses (profile : Profile) : (count : Nat) → Links Entry → Option (Links Entry)
  | 0, links => some links
  | count + 1, links => do
      let links ← linkProcesses profile count links
      let links := initListHead links (.list (.process count))
      let parent ← profile.parent (.process count)
      listAddTail links (.clist count) (.list parent)

/-- The machine after `__init_sched` and `readProfile`. -/
def boot (setup : Setup) (memory : Memory) : Option Machine := do
  let links := initListHead memory.links (.list .init)
  let links := initListHead links .intwaitlist
  let links ← linkProcesses setup.profile setup.profile.processes.length links
  let vm := Vsched.boot setup
  let vm := { vm with info := fun task => { vm.info task with list := [] } }
  pure { vm := vm, links := links, waits := fun _ => .idle, waitlists := [] }

end Linked

end CE321.Vsched
