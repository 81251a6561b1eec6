import CE321.Iosched.Calls

/-! # The order of the requests

Calls of the I/O scheduler in any order. Requests leave a queue in the order in which they
came, none of them lost and none of them twice.
-/

namespace CE321.Iosched

open CE321.Lists

def callAll (elevators : Elevators) : List Call → Option (List Result × Elevators)
  | [] => some ([], elevators)
  | next :: rest => do
      let (result, elevators) ← call elevators next
      let (results, elevators) ← callAll elevators rest
      pure (result :: results, elevators)

def serveAll (queues : Queues) : List Call → List Result × Queues
  | [] => ([], queues)
  | next :: rest =>
      let (result, queues) := serve queues next
      let (results, queues) := serveAll queues rest
      (result :: results, queues)

def AllLegal (queues : Queues) : List Call → Prop
  | [] => True
  | next :: rest => Legal queues next ∧ AllLegal (serve queues next).2 rest

def noElevators (links : Links Entry) : Elevators := ⟨links, fun _ => none, fun _ => []⟩

def noQueues : Queues := ⟨fun _ => none, fun _ => [], fun _ => []⟩

theorem represents_none (links : Links Entry) : Represents (noElevators links) noQueues where
  data := rfl
  dispatched := rfl
  apart := nofun
  idle := fun _ => rfl
  lists := ⟨fun _ => none, rings_none links.next links.prev, nofun, fun _ => rfl, nofun⟩

theorem callAll_represents (calls : List Call) : ∀ {elevators : Elevators} {queues : Queues},
    Represents elevators queues → AllLegal queues calls →
      ∃ elevators', callAll elevators calls = some ((serveAll queues calls).1, elevators') ∧
        Represents elevators' (serveAll queues calls).2 := by
  induction calls with
  | nil => exact fun represents _ => ⟨_, rfl, represents⟩
  | cons next rest induction =>
      intro elevators queues represents legal
      rcases call_represents represents legal.1 with ⟨elevators', called, represents'⟩
      rcases induction represents' legal.2 with ⟨elevators'', called', represents''⟩
      refine ⟨elevators'', ?_, represents''⟩
      simp only [callAll, called, Option.bind_eq_bind, Option.bind_some, called', serveAll,
        Option.pure_def]

/-! ## What happens to the requests of a queue -/

/-- The request that a call adds to a queue. -/
def arrives (q : Nat) : Call → List Nat
  | .addRequest q' rq => if q' = q then [rq] else []
  | _ => []

/-- The request of a queue that a call says is merged into another one. -/
def merges (q : Nat) (queues : Queues) : Call → List Nat
  | .mergedRequests next => if next ∈ queues.pending q then [next] else []
  | _ => []

def added (q : Nat) (calls : List Call) : List Nat := calls.flatMap (arrives q)

/-- The requests of a queue that were merged while they waited. -/
def merged (q : Nat) : Queues → List Call → List Nat
  | _, [] => []
  | queues, next :: rest => merges q queues next ++ merged q (serve queues next).2 rest

/-- What a queue has dispatched, followed by what waits in it. -/
def Queues.served (queues : Queues) (q : Nat) : List Nat := queues.dispatched q ++ queues.pending q

/-- A call keeps the order of what was served, and only a merged request is missing. -/
theorem serve_served (queues : Queues) (q : Nat) (next : Call) :
    ((serve queues next).2.served q).Sublist (queues.served q ++ arrives q next) ∧
      (queues.served q ++ arrives q next).Perm
        ((serve queues next).2.served q ++ merges q queues next) := by
  cases next with
  | initQueue q' eq nd =>
      have same : (serve queues (.initQueue q' eq nd)).2.served q = queues.served q := by
        cases eq with
        | false => rfl
        | true => cases nd <;> rfl
      rw [same]
      exact ⟨List.sublist_append_left .., .refl _⟩
  | exitQueue q' => exact ⟨List.sublist_append_left .., .refl _⟩
  | addRequest q' rq =>
      have same : (serve queues (.addRequest q' rq)).2.served q =
          queues.served q ++ arrives q (.addRequest q' rq) := by
        by_cases isQueue : q' = q
        · subst isQueue
          simp [serve, Queues.served, arrives]
        · simp [serve, Queues.served, arrives, isQueue, Function.update_of_ne (Ne.symm isQueue)]
      have nothing : merges q queues (.addRequest q' rq) = [] := rfl
      rw [same, nothing, List.append_nil]
      exact ⟨.refl _, .refl _⟩
  | dispatch q' =>
      have same : (serve queues (.dispatch q')).2.served q = queues.served q := by
        cases pending : queues.pending q' with
        | nil => simp only [serve, pending]
        | cons first rest =>
            by_cases isQueue : q' = q
            · subst isQueue
              simp [serve, Queues.served, pending]
            · simp [serve, Queues.served, pending, Function.update_of_ne (Ne.symm isQueue)]
      rw [same]
      exact ⟨List.sublist_append_left .., .refl _⟩
  | mergedRequests rq =>
      simp only [serve, Queues.served, arrives, merges, List.append_nil]
      constructor
      · exact List.erase_sublist.append_left _
      · split_ifs with waits
        · rw [List.append_assoc]
          apply List.Perm.append_left
          exact (List.perm_cons_erase waits).trans (@List.perm_append_comm _ [rq] _)
        · rw [List.erase_of_not_mem waits, List.append_nil]
  | formerRequest q' rq => exact ⟨List.sublist_append_left .., .refl _⟩
  | latterRequest q' rq => exact ⟨List.sublist_append_left .., .refl _⟩

theorem serveAll_served (q : Nat) (calls : List Call) : ∀ queues : Queues,
    ((serveAll queues calls).2.served q).Sublist (queues.served q ++ added q calls) ∧
      (queues.served q ++ added q calls).Perm
        ((serveAll queues calls).2.served q ++ merged q queues calls) := by
  induction calls with
  | nil =>
      intro queues
      simp [serveAll, added, merged]
  | cons next rest induction =>
      intro queues
      rcases serve_served queues q next with ⟨ordered, complete⟩
      rcases induction (serve queues next).2 with ⟨ordered', complete'⟩
      have split : queues.served q ++ added q (next :: rest) =
          queues.served q ++ arrives q next ++ added q rest := by
        rw [added, List.flatMap_cons, List.append_assoc]
        rfl
      rw [split]
      constructor
      · exact ordered'.trans (ordered.append_right _)
      · calc
          (queues.served q ++ arrives q next ++ added q rest).Perm
              ((serve queues next).2.served q ++ merges q queues next ++ added q rest) :=
            complete.append_right _
          List.Perm _ ((serve queues next).2.served q ++ added q rest ++ merges q queues next) := by
            rw [List.append_assoc, List.append_assoc]
            exact List.perm_append_comm.append_left _
          List.Perm _ ((serveAll queues (next :: rest)).2.served q ++
              merged q (serve queues next).2 rest ++ merges q queues next) :=
            complete'.append_right _
          List.Perm _ ((serveAll queues (next :: rest)).2.served q ++
              merged q queues (next :: rest)) := by
            rw [List.append_assoc]
            exact List.perm_append_comm.append_left _

/-- Whatever the calls, for however many queues: none of them fails, and for each queue the
requests that it dispatched and then those that wait, which are linked in this order, are the
ones that were added to it, in the order in which they came, but for those that were merged
while they waited. Its elevator may go exactly when none wait. -/
theorem requests_of_run (links : Links Entry) (calls : List Call)
    (legal : AllLegal noQueues calls) :
    ∃ elevators, callAll (noElevators links) calls = some ((serveAll noQueues calls).1, elevators) ∧
      ∀ q, ∃ waiting,
        (elevators.dispatched q ++ waiting).Sublist (added q calls) ∧
        (added q calls).Perm (elevators.dispatched q ++ waiting ++ merged q noQueues calls) ∧
        (elevators.elevatorData q = none → waiting = []) ∧
        ∀ nd, elevators.elevatorData q = some nd →
          (∀ fuel, waiting.length < fuel →
            listForEach elevators.links (.queue nd) fuel = some (waiting.map .queuelist)) ∧
          ((noopExitQueue elevators q).isSome ↔ waiting = []) := by
  rcases callAll_represents calls (represents_none links) legal with ⟨elevators, called, represents⟩
  refine ⟨elevators, called, fun q => ⟨(serveAll noQueues calls).2.pending q, ?_⟩⟩
  rcases serveAll_served q calls noQueues with ⟨ordered, complete⟩
  rw [represents.dispatched, represents.data]
  refine ⟨ordered, complete, represents.idle, fun nd data => ⟨?_, ?_⟩⟩
  · intro fuel enough
    rcases represents.lists with ⟨lists, rings, listsOf⟩
    exact (rings.ring (listsOf.queue data)).walk (by rwa [List.length_map])
  · exact noopExitQueue_isSome represents data

/-- Two queues, and a request that is merged while it waits. -/
theorem requests_of_run_small :
    ∃ elevators waiting,
      callAll (noElevators ⟨fun _ => none, fun _ => none⟩)
        [.initQueue 0 true (some 7), .initQueue 1 true (some 8), .addRequest 0 1, .addRequest 1 2,
          .addRequest 0 3, .formerRequest 0 3, .mergedRequests 1, .dispatch 0, .dispatch 0] =
        some ([.code 0, .code 0, .void, .void, .void, .request (some 1), .void, .code 1, .code 0],
          elevators) ∧
      [1, 3].Perm (elevators.dispatched 0 ++ waiting ++ [1]) := by
  have legal : AllLegal noQueues
      [.initQueue 0 true (some 7), .initQueue 1 true (some 8), .addRequest 0 1, .addRequest 1 2,
        .addRequest 0 3, .formerRequest 0 3, .mergedRequests 1, .dispatch 0, .dispatch 0] := by
    refine ⟨.initQueue rfl (by simp [noQueues]), .initQueue rfl ?_, .addRequest rfl ?_,
      .addRequest rfl ?_, .addRequest rfl ?_, .formerRequest (by decide),
      @Legal.mergedRequests _ 0 1 (by decide), .dispatch rfl, .dispatch rfl, trivial⟩
    · simp [serve, noQueues, Function.update_apply]
    · simp [serve, noQueues, Queues.Free]
    · simp [serve, noQueues, Queues.Free, Function.update_apply]
    · simp [serve, noQueues, Queues.Free, Function.update_apply]
      grind
  rcases requests_of_run ⟨fun _ => none, fun _ => none⟩ _ legal with ⟨elevators, called, queues⟩
  rcases queues 0 with ⟨waiting, -, complete, -⟩
  exact ⟨elevators, waiting, called, complete⟩

end CE321.Iosched
