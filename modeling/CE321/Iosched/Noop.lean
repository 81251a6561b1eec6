import CE321.Lists.ListHead

/-! # The I/O scheduler of `project1-iosched.c`

The functions of the elevator `teamXX` on the lists that their requests are linked in, for any
number of request queues, and the queues that they stand for.
-/

namespace CE321.Iosched

open CE321.Lists

/-- The addresses of list heads: `queue` in a `noop_data` and `queuelist` in a request. -/
inductive Entry where
  | queue (nd : Nat)
  | queuelist (rq : Nat)
  deriving DecidableEq

/-- The links, the `noop_data` of the elevator of each request queue, and what was handed on to
`elv_dispatch_sort` for each of them. -/
structure Elevators where
  links : Links Entry
  elevatorData : Nat → Option Nat
  dispatched : Nat → List Nat

/-! ## The functions

A result `none` stands for NULL dereferenced, for a list head that is taken for a part of a
request, and for `BUG_ON`. -/

def noopMergedRequests (elevators : Elevators) (next : Nat) : Option Elevators := do
  let links ← listDelInit elevators.links (.queuelist next)
  pure { elevators with links := links }

/-- Hands the first request on. The result is 0 if there is none. -/
def noopDispatch (elevators : Elevators) (q : Nat) : Option (Int × Elevators) := do
  let nd ← elevators.elevatorData q
  if !listEmpty elevators.links (.queue nd) then
    match elevators.links.next (.queue nd) with
    | some (.queuelist rq) =>
        let links ← listDelInit elevators.links (.queuelist rq)
        let dispatched := Function.update elevators.dispatched q (elevators.dispatched q ++ [rq])
        pure (1, { elevators with links := links, dispatched := dispatched })
    | _ => none
  else pure (0, elevators)

def noopAddRequest (elevators : Elevators) (q rq : Nat) : Option Elevators := do
  let nd ← elevators.elevatorData q
  let links ← listAddTail elevators.links (.queuelist rq) (.queue nd)
  pure { elevators with links := links }

/-- The request before another one of a queue, NULL before the first. -/
def noopFormerRequest (elevators : Elevators) (q rq : Nat) : Option (Option Nat) := do
  let nd ← elevators.elevatorData q
  if elevators.links.prev (.queuelist rq) = some (.queue nd) then pure none
  else
    match elevators.links.prev (.queuelist rq) with
    | some (.queuelist former) => pure (some former)
    | _ => none

/-- The request behind another one of a queue, NULL behind the last. -/
def noopLatterRequest (elevators : Elevators) (q rq : Nat) : Option (Option Nat) := do
  let nd ← elevators.elevatorData q
  if elevators.links.next (.queuelist rq) = some (.queue nd) then pure none
  else
    match elevators.links.next (.queuelist rq) with
    | some (.queuelist latter) => pure (some latter)
    | _ => none

/-- `-ENOMEM`. -/
def enomem : Int := -12

/-- Gives a request queue its elevator. `elevator_alloc` returns one or NULL, `kmalloc_node` a
`noop_data` or NULL. -/
def noopInitQueue (elevators : Elevators) (q : Nat) (eq : Bool) (nd : Option Nat) :
    Int × Elevators :=
  if !eq then (enomem, elevators)
  else
    match nd with
    | none => (enomem, elevators)
    | some nd =>
        let links := initListHead elevators.links (.queue nd)
        let elevatorData := Function.update elevators.elevatorData q (some nd)
        (0, { elevators with links := links, elevatorData := elevatorData })

/-- Frees the `noop_data` of a request queue, whose elevator goes with it. -/
def noopExitQueue (elevators : Elevators) (q : Nat) : Option Elevators := do
  let nd ← elevators.elevatorData q
  if !listEmpty elevators.links (.queue nd) then none
  else pure { elevators with elevatorData := Function.update elevators.elevatorData q none }

/-! ## Calls of the block layer -/

inductive Call where
  | initQueue (q : Nat) (eq : Bool) (nd : Option Nat)
  | exitQueue (q : Nat)
  | addRequest (q rq : Nat)
  | dispatch (q : Nat)
  | mergedRequests (next : Nat)
  | formerRequest (q rq : Nat)
  | latterRequest (q rq : Nat)

/-- What a call returns. -/
inductive Result where
  | void
  | code (code : Int)
  | request (request : Option Nat)
  deriving DecidableEq

def call (elevators : Elevators) : Call → Option (Result × Elevators)
  | .initQueue q eq nd =>
      let (code, elevators) := noopInitQueue elevators q eq nd
      some (.code code, elevators)
  | .exitQueue q => (noopExitQueue elevators q).map fun elevators => (.void, elevators)
  | .addRequest q rq => (noopAddRequest elevators q rq).map fun elevators => (.void, elevators)
  | .dispatch q => (noopDispatch elevators q).map fun result => (.code result.1, result.2)
  | .mergedRequests next => (noopMergedRequests elevators next).map fun elevators => (.void, elevators)
  | .formerRequest q rq => (noopFormerRequest elevators q rq).map fun former => (.request former, elevators)
  | .latterRequest q rq => (noopLatterRequest elevators q rq).map fun latter => (.request latter, elevators)

/-! ## Queues of requests -/

/-- The requests that wait in each queue with an elevator, first come first, and those that
were dispatched. -/
structure Queues where
  data : Nat → Option Nat
  pending : Nat → List Nat
  dispatched : Nat → List Nat

/-- The request waits in none of the queues. -/
def Queues.Free (queues : Queues) (rq : Nat) : Prop := ∀ q, rq ∉ queues.pending q

/-- What the block layer sees to. Only a queue without an elevator gets one, from memory that
is in no use. A request is added that waits nowhere, and an elevator goes when its queue is
empty. -/
inductive Legal (queues : Queues) : Call → Prop
  | initQueue {q : Nat} {eq : Bool} {nd : Option Nat} (none : queues.data q = none)
      (fresh : ∀ address, nd = some address → ∀ other, queues.data other ≠ some address) :
      Legal queues (.initQueue q eq nd)
  | exitQueue {q nd : Nat} (data : queues.data q = some nd) (empty : queues.pending q = []) :
      Legal queues (.exitQueue q)
  | addRequest {q nd rq : Nat} (data : queues.data q = some nd) (free : queues.Free rq) :
      Legal queues (.addRequest q rq)
  | dispatch {q nd : Nat} (data : queues.data q = some nd) : Legal queues (.dispatch q)
  | mergedRequests {q next : Nat} (waits : next ∈ queues.pending q) :
      Legal queues (.mergedRequests next)
  | formerRequest {q rq : Nat} (waits : rq ∈ queues.pending q) : Legal queues (.formerRequest q rq)
  | latterRequest {q rq : Nat} (waits : rq ∈ queues.pending q) : Legal queues (.latterRequest q rq)

/-- The request before another one of a list. -/
def before (rq : Nat) : List Nat → Option Nat
  | first :: second :: rest => if second = rq then some first else before rq (second :: rest)
  | _ => none

/-- What a call is meant to return, and what it is meant to do. -/
def serve (queues : Queues) : Call → Result × Queues
  | .initQueue q eq nd =>
      match eq, nd with
      | true, some nd => (.code 0, { queues with data := Function.update queues.data q (some nd) })
      | _, _ => (.code enomem, queues)
  | .exitQueue q => (.void, { queues with data := Function.update queues.data q none })
  | .addRequest q rq =>
      (.void, { queues with
        pending := Function.update queues.pending q (queues.pending q ++ [rq]) })
  | .dispatch q =>
      match queues.pending q with
      | [] => (.code 0, queues)
      | first :: rest =>
          (.code 1, { queues with
            pending := Function.update queues.pending q rest
            dispatched := Function.update queues.dispatched q (queues.dispatched q ++ [first]) })
  | .mergedRequests next =>
      (.void, { queues with pending := fun q => (queues.pending q).erase next })
  | .formerRequest q rq => (.request (before rq (queues.pending q)), queues)
  | .latterRequest q rq => (.request (before rq (queues.pending q).reverse), queues)

end CE321.Iosched
