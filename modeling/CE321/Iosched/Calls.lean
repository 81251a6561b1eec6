import CE321.Iosched.Noop

/-! # Calls of the I/O scheduler

The lists of the elevators represent queues of requests, and each call does to the lists what
it is meant to do to the queues.
-/

namespace CE321.Iosched

open CE321.Lists

/-- The lists are those of the queues. A request in no queue may be linked to itself. -/
structure ListsOf (queues : Queues) (lists : Contents Entry) : Prop where
  queue : ∀ {q nd : Nat}, queues.data q = some nd →
    lists (.queue nd) = some ((queues.pending q).map .queuelist)
  unused : ∀ {nd : Nat}, (∀ q, queues.data q ≠ some nd) → lists (.queue nd) = none
  request : ∀ {rq : Nat} {behind : List Entry}, lists (.queuelist rq) = some behind → behind = []

/-- The elevators have the queues in their links. -/
structure Represents (elevators : Elevators) (queues : Queues) : Prop where
  data : elevators.elevatorData = queues.data
  dispatched : elevators.dispatched = queues.dispatched
  apart : ∀ {q other nd : Nat}, queues.data q = some nd → queues.data other = some nd → q = other
  idle : ∀ {q : Nat}, queues.data q = none → queues.pending q = []
  lists : ∃ lists, Rings elevators.links.next elevators.links.prev lists ∧ ListsOf queues lists

section

variable {elevators : Elevators} {queues : Queues} {lists : Contents Entry} {q nd rq : Nat}

theorem ListsOf.waits (listsOf : ListsOf queues lists) {entry : Entry}
    (listed : Listed lists entry) : ∃ rq q, entry = .queuelist rq ∧ rq ∈ queues.pending q := by
  rcases listed with ⟨head, behind, isList, inside⟩
  cases head with
  | queuelist rq =>
      rw [listsOf.request isList] at inside
      cases inside
  | queue nd =>
      by_cases used : ∃ q, queues.data q = some nd
      · rcases used with ⟨q, data⟩
        rw [listsOf.queue data, Option.some.injEq] at isList
        subst isList
        rcases List.mem_map.mp inside with ⟨rq, waits, same⟩
        exact ⟨rq, q, same.symm, waits⟩
      · rw [listsOf.unused fun q data => used ⟨q, data⟩] at isList
        cases isList

theorem Represents.data_of_waits (represents : Represents elevators queues)
    (waits : rq ∈ queues.pending q) : ∃ nd, queues.data q = some nd := by
  cases data : queues.data q with
  | none =>
      rw [represents.idle data] at waits
      cases waits
  | some nd => exact ⟨nd, rfl⟩

theorem Represents.listed (represents : Represents elevators queues)
    (listsOf : ListsOf queues lists) (waits : rq ∈ queues.pending q) :
    Listed lists (.queuelist rq) := by
  rcases represents.data_of_waits waits with ⟨nd, data⟩
  exact ⟨.queue nd, _, listsOf.queue data, List.mem_map_of_mem waits⟩

theorem queuelist_injective : Function.Injective Entry.queuelist :=
  fun _ _ same => Entry.queuelist.inj same

theorem Represents.once (represents : Represents elevators queues)
    (waits : rq ∈ queues.pending q) :
    (queues.pending q).Nodup ∧ ∀ other, rq ∈ queues.pending other → other = q := by
  rcases represents.lists with ⟨lists, rings, listsOf⟩
  rcases represents.data_of_waits waits with ⟨nd, data⟩
  constructor
  · exact List.Nodup.of_map _ (List.nodup_cons.mp (rings.ring (listsOf.queue data)).nodup).2
  · intro other waits'
    rcases represents.data_of_waits waits' with ⟨nd', data'⟩
    have same := rings.unique (listsOf.queue data') (listsOf.queue data)
      (List.mem_cons_of_mem _ (List.mem_map_of_mem waits'))
      (List.mem_cons_of_mem _ (List.mem_map_of_mem waits))
    rw [Entry.queue.injEq] at same
    subst same
    exact represents.apart data' data

theorem ListsOf.taken (listsOf : ListsOf queues lists) (rq : Nat) :
    ListsOf { queues with pending := fun q => (queues.pending q).erase rq }
      (Function.update (without lists (.queuelist rq)) (.queuelist rq) (some [])) where
  queue := by
    intro q nd data
    rw [Function.update_of_ne (by simp), without, listsOf.queue data, Option.map_some,
      List.map_erase queuelist_injective]
  unused := by
    intro nd unused
    rw [Function.update_of_ne (by simp), without, listsOf.unused unused, Option.map_none]
  request := by
    intro other behind isList
    by_cases same : other = rq
    · rw [same, Function.update_self, Option.some.injEq] at isList
      exact isList.symm
    · rw [Function.update_of_ne (by simpa using same), without] at isList
      rcases Option.map_eq_some_iff.mp isList with ⟨behind', isList', rfl⟩
      rw [listsOf.request isList']
      rfl

theorem Represents.erase_all (represents : Represents elevators queues)
    (waits : rq ∈ queues.pending q) :
    (fun other => (queues.pending other).erase rq) =
      Function.update queues.pending q ((queues.pending q).erase rq) := by
  funext other
  by_cases same : other = q
  · rw [same, Function.update_self]
  · rw [Function.update_of_ne same]
    exact List.erase_of_not_mem fun waits' => same ((represents.once waits).2 other waits')

/-! ## The calls -/

theorem noopMergedRequests_represents (represents : Represents elevators queues)
    (waits : rq ∈ queues.pending q) :
    ∃ elevators', noopMergedRequests elevators rq = some elevators' ∧
      Represents elevators' { queues with pending := fun q => (queues.pending q).erase rq } := by
  rcases represents.lists with ⟨lists, rings, listsOf⟩
  rcases listDelInit_rings rings (represents.listed listsOf waits) with ⟨links, deleted, rings'⟩
  refine ⟨{ elevators with links := links }, by rw [noopMergedRequests, deleted]; rfl, ?_⟩
  constructor
  · exact represents.data
  · exact represents.dispatched
  · exact represents.apart
  · intro other data
    change (queues.pending other).erase rq = []
    rw [represents.idle data, List.erase_nil]
  · exact ⟨_, rings', listsOf.taken rq⟩

theorem noopDispatch_represents (represents : Represents elevators queues)
    (data : queues.data q = some nd) :
    ∃ elevators', noopDispatch elevators q =
        some (if queues.pending q = [] then 0 else 1, elevators') ∧
      Represents elevators' (serve queues (.dispatch q)).2 := by
  rcases represents.lists with ⟨lists, rings, listsOf⟩
  have isList := listsOf.queue data
  have empty := listEmpty_iff rings isList
  have first := (rings.ring isList).first_eq
  cases pending : queues.pending q with
  | nil =>
      rw [pending] at empty
      refine ⟨elevators, ?_, by simpa only [serve, pending] using represents⟩
      simp [noopDispatch, represents.data, data, empty]
  | cons rq rest =>
      have waits : rq ∈ queues.pending q := pending ▸ List.mem_cons_self
      rw [pending] at empty first
      rcases listDelInit_rings rings (represents.listed listsOf waits) with ⟨links, deleted, rings'⟩
      have taken := listsOf.taken rq
      rw [represents.erase_all waits, pending, List.erase_cons_head] at taken
      refine ⟨{ elevators with
        links := links
        dispatched := Function.update elevators.dispatched q (elevators.dispatched q ++ [rq]) },
        ?_, ?_⟩
      · simp [noopDispatch, represents.data, data, empty, first, deleted]
      · simp only [serve, pending]
        constructor
        · exact represents.data
        · simp only [represents.dispatched]
        · exact represents.apart
        · intro other data'
          have different : other ≠ q := by
            rintro rfl
            rw [data] at data'
            cases data'
          change Function.update queues.pending q rest other = []
          rw [Function.update_of_ne different]
          exact represents.idle data'
        · exact ⟨_, rings', taken.queue, taken.unused, taken.request⟩

theorem noopAddRequest_represents (represents : Represents elevators queues)
    (data : queues.data q = some nd) (free : queues.Free rq) :
    ∃ elevators', noopAddRequest elevators q rq = some elevators' ∧
      Represents elevators' (serve queues (.addRequest q rq)).2 := by
  rcases represents.lists with ⟨lists, rings, listsOf⟩
  have isList := listsOf.queue data
  have notListed : ¬ Listed lists (.queuelist rq) := by
    intro listed
    rcases listsOf.waits listed with ⟨rq', q', same, waits⟩
    exact free q' (queuelist_injective same ▸ waits)
  rcases listAddTail_rings rings isList notListed (by simp) with ⟨links, added, rings'⟩
  refine ⟨{ elevators with links := links }, ?_, ?_⟩
  · simp [noopAddRequest, represents.data, data, added]
  · constructor
    · exact represents.data
    · exact represents.dispatched
    · exact represents.apart
    · intro other data'
      have different : other ≠ q := by
        rintro rfl
        exact absurd (data'.symm.trans data) (by simp)
      change Function.update queues.pending q (queues.pending q ++ [rq]) other = []
      rw [Function.update_of_ne different]
      exact represents.idle data'
    · refine ⟨_, rings', ?_, ?_, ?_⟩
      · intro other nd' data'
        change withEntry lists (.queuelist rq) (.queue nd) (· ++ [.queuelist rq]) (.queue nd') =
          some ((Function.update queues.pending q (queues.pending q ++ [rq]) other).map .queuelist)
        by_cases same : other = q
        · subst same
          obtain rfl : nd = nd' := Option.some.inj (data.symm.trans data')
          rw [withEntry, Function.update_self, Function.update_self, isList]
          simp
        · have different : nd' ≠ nd := by
            rintro rfl
            exact same (represents.apart data' data)
          rw [withEntry, Function.update_of_ne same, Function.update_of_ne (by simpa using different),
            Function.update_of_ne (by simp)]
          exact listsOf.queue data'
      · intro nd' unused
        have different : nd' ≠ nd := by
          rintro rfl
          exact unused q data
        rw [withEntry, Function.update_of_ne (by simpa using different),
          Function.update_of_ne (by simp)]
        exact listsOf.unused unused
      · intro other behind isList'
        rw [withEntry, Function.update_of_ne (by simp)] at isList'
        by_cases same : other = rq
        · rw [same, Function.update_self] at isList'
          cases isList'
        · rw [Function.update_of_ne (by simpa using same)] at isList'
          exact listsOf.request isList'

theorem before_none (first : Nat) (rest : List Nat) (away : rq ∉ rest) :
    before rq (first :: rest) = none := by
  induction rest generalizing first with
  | nil => rfl
  | cons second rest induction =>
      have different : second ≠ rq := fun same => away (same ▸ List.mem_cons_self)
      rw [before, if_neg different]
      exact induction second fun later => away (List.mem_cons_of_mem _ later)

theorem before_append (front back : List Nat) (away : rq ∉ front) (away' : rq ∉ back) :
    before rq (front ++ rq :: back) = front.getLast? := by
  induction front with
  | nil => exact before_none rq back away'
  | cons first front induction =>
      cases front with
      | nil => simp [before]
      | cons second front =>
          have different : second ≠ rq := fun same => away (by simp [same])
          rw [List.getLast?_cons_cons, ← induction fun later => away (List.mem_cons_of_mem _ later)]
          simp only [List.cons_append, before, if_neg different]

/-- What a link in a queue leads to: a request, or the queue if there is none. -/
def linkTo (nd : Nat) : Option Nat → Entry
  | none => .queue nd
  | some rq => .queuelist rq

theorem headD_map (nd : Nat) (list : List Nat) :
    (list.map Entry.queuelist).headD (.queue nd) = linkTo nd list.head? := by
  cases list with
  | nil => rfl
  | cons first rest => rfl

theorem Represents.neighbours (represents : Represents elevators queues)
    (data : queues.data q = some nd) (waits : rq ∈ queues.pending q) :
    elevators.links.prev (.queuelist rq) = some (linkTo nd (before rq (queues.pending q))) ∧
      elevators.links.next (.queuelist rq) =
        some (linkTo nd (before rq (queues.pending q).reverse)) := by
  have nodup := (represents.once waits).1
  rcases represents.lists with ⟨lists, rings, listsOf⟩
  have ring := rings.ring (listsOf.queue data)
  rcases List.append_of_mem waits with ⟨front, back, split⟩
  rw [split] at nodup ring ⊢
  rcases List.nodup_append.mp nodup with ⟨-, restNodup, across⟩
  have away : rq ∉ front := fun early => across rq early rq List.mem_cons_self rfl
  have away' : rq ∉ back := (List.nodup_cons.mp restNodup).1
  constructor
  · have reversed := ring.reverse
    rw [← List.map_reverse, List.reverse_append, List.reverse_cons, List.append_assoc,
      List.singleton_append, List.map_append, List.map_cons] at reversed
    rw [reversed.next_eq, headD_map, List.head?_reverse, before_append front back away away']
  · rw [List.map_append, List.map_cons] at ring
    rw [ring.next_eq, headD_map, List.reverse_append, List.reverse_cons, List.append_assoc,
      List.singleton_append, before_append _ _ (by rwa [List.mem_reverse])
      (by rwa [List.mem_reverse]), List.getLast?_reverse]

theorem noopFormerRequest_represents (represents : Represents elevators queues)
    (waits : rq ∈ queues.pending q) :
    noopFormerRequest elevators q rq = some (before rq (queues.pending q)) := by
  rcases represents.data_of_waits waits with ⟨nd, data⟩
  have link := (represents.neighbours data waits).1
  cases former : before rq (queues.pending q) with
  | none => simp [noopFormerRequest, represents.data, data, link, former, linkTo]
  | some other => simp [noopFormerRequest, represents.data, data, link, former, linkTo]

theorem noopLatterRequest_represents (represents : Represents elevators queues)
    (waits : rq ∈ queues.pending q) :
    noopLatterRequest elevators q rq = some (before rq (queues.pending q).reverse) := by
  rcases represents.data_of_waits waits with ⟨nd, data⟩
  have link := (represents.neighbours data waits).2
  cases latter : before rq (queues.pending q).reverse with
  | none => simp [noopLatterRequest, represents.data, data, link, latter, linkTo]
  | some other => simp [noopLatterRequest, represents.data, data, link, latter, linkTo]

theorem noopInitQueue_represents (represents : Represents elevators queues)
    (none : queues.data q = none) {eq : Bool} {nd : Option Nat}
    (fresh : ∀ address, nd = some address → ∀ other, queues.data other ≠ some address) :
    (serve queues (.initQueue q eq nd)).1 = .code (noopInitQueue elevators q eq nd).1 ∧
      Represents (noopInitQueue elevators q eq nd).2 (serve queues (.initQueue q eq nd)).2 := by
  cases eq with
  | false => exact ⟨rfl, represents⟩
  | true =>
      cases nd with
      | none => exact ⟨rfl, represents⟩
      | some nd =>
          have unused := fresh nd rfl
          rcases represents.lists with ⟨lists, rings, listsOf⟩
          have notListed : ¬ Listed lists (.queue nd) := by
            intro listed
            rcases listsOf.waits listed with ⟨rq, q, same, -⟩
            cases same
          refine ⟨rfl, ?_, represents.dispatched, ?_, ?_, _, initListHead_rings rings notListed,
            ?_, ?_, ?_⟩
          · simp only [serve, noopInitQueue, represents.data, Bool.not_true, Bool.false_eq_true,
              if_false]
          · intro first second address
            simp only [serve, Function.update_apply]
            split_ifs with isFirst isSecond isSecond
            · exact fun _ _ => isFirst.trans isSecond.symm
            · rintro same data
              exact absurd (data.trans same.symm) (unused second)
            · rintro data same
              exact absurd (data.trans same.symm) (unused first)
            · exact represents.apart
          · intro other
            simp only [serve, Function.update_apply]
            split_ifs with same
            · simp
            · exact represents.idle
          · intro other address
            simp only [serve, Function.update_apply]
            split_ifs with same isNew isNew
            · rintro -
              rw [same, represents.idle none]
              rfl
            · rintro isNew'
              exact absurd (congrArg Entry.queue (Option.some.inj isNew').symm) isNew
            · rw [Entry.queue.injEq] at isNew
              exact fun data => absurd (isNew ▸ data) (unused other)
            · exact listsOf.queue
          · intro address unused'
            have different : address ≠ nd := by
              rintro rfl
              exact unused' q (Function.update_self ..)
            rw [Function.update_of_ne (by simpa using different)]
            apply listsOf.unused
            intro other data
            apply unused' other
            have notQ : other ≠ q := by
              rintro rfl
              rw [none] at data
              cases data
            exact (Function.update_of_ne notQ ..).trans data
          · intro rq behind isList
            rw [Function.update_of_ne (by simp)] at isList
            exact listsOf.request isList

theorem noopExitQueue_represents (represents : Represents elevators queues)
    (data : queues.data q = some nd) (empty : queues.pending q = []) :
    ∃ elevators', noopExitQueue elevators q = some elevators' ∧
      Represents elevators' (serve queues (.exitQueue q)).2 := by
  rcases represents.lists with ⟨lists, rings, listsOf⟩
  have isEmpty := (listEmpty_iff rings (listsOf.queue data)).mpr (by rw [empty]; rfl)
  refine ⟨{ elevators with elevatorData := Function.update elevators.elevatorData q none }, ?_, ?_⟩
  · simp [noopExitQueue, represents.data, data, isEmpty]
  · refine ⟨by rw [represents.data]; rfl, represents.dispatched, ?_, ?_, _,
      rings.giveUp (.queue nd), ?_, ?_, ?_⟩
    · intro first second address
      simp only [serve, Function.update_apply]
      split_ifs with isFirst isSecond isSecond
      · exact fun absurd => nomatch absurd
      · exact fun absurd => nomatch absurd
      · exact fun _ absurd => nomatch absurd
      · exact represents.apart
    · intro other
      simp only [serve, Function.update_apply]
      split_ifs with same
      · exact fun _ => same ▸ empty
      · exact represents.idle
    · intro other address
      simp only [serve, Function.update_apply]
      split_ifs with same isGone isGone
      · exact fun absurd => nomatch absurd
      · exact fun absurd => nomatch absurd
      · rw [Entry.queue.injEq] at isGone
        exact fun data' => absurd (represents.apart (isGone ▸ data') data) same
      · exact listsOf.queue
    · intro address unused
      by_cases same : address = nd
      · rw [same, Function.update_self]
      · rw [Function.update_of_ne (by simpa using same)]
        apply listsOf.unused
        intro other data'
        apply unused other
        have notQ : other ≠ q := by
          rintro rfl
          exact same (Option.some.inj (data'.symm.trans data))
        exact (Function.update_of_ne notQ ..).trans data'
    · intro rq behind isList
      rw [Function.update_of_ne (by simp)] at isList
      exact listsOf.request isList

/-- `BUG_ON` is hit exactly when requests wait. -/
theorem noopExitQueue_isSome (represents : Represents elevators queues)
    (data : queues.data q = some nd) :
    (noopExitQueue elevators q).isSome ↔ queues.pending q = [] := by
  rcases represents.lists with ⟨lists, rings, listsOf⟩
  have empty := listEmpty_iff rings (listsOf.queue data)
  rw [List.map_eq_nil_iff] at empty
  rw [← empty]
  cases isEmpty : listEmpty elevators.links (.queue nd) with
  | true => simp [noopExitQueue, represents.data, data, isEmpty]
  | false => simp [noopExitQueue, represents.data, data, isEmpty]

/-- A legal call returns what it is meant to return and does what it is meant to do. -/
theorem call_represents (represents : Represents elevators queues) {next : Call}
    (legal : Legal queues next) :
    ∃ elevators', call elevators next = some ((serve queues next).1, elevators') ∧
      Represents elevators' (serve queues next).2 := by
  cases legal with
  | initQueue none fresh =>
      rcases noopInitQueue_represents represents none fresh with ⟨returned, represents'⟩
      exact ⟨_, by rw [returned]; rfl, represents'⟩
  | exitQueue data empty =>
      rcases noopExitQueue_represents represents data empty with ⟨elevators', done, represents'⟩
      exact ⟨elevators', by rw [call, done]; rfl, represents'⟩
  | addRequest data free =>
      rcases noopAddRequest_represents represents data free with ⟨elevators', done, represents'⟩
      exact ⟨elevators', by rw [call, done]; rfl, represents'⟩
  | @dispatch q nd data =>
      rcases noopDispatch_represents represents data with ⟨elevators', done, represents'⟩
      refine ⟨elevators', ?_, represents'⟩
      rw [call, done]
      cases pending : queues.pending q with
      | nil => simp [serve, pending]
      | cons first rest => simp [serve, pending]
  | mergedRequests waits =>
      rcases noopMergedRequests_represents represents waits with ⟨elevators', done, represents'⟩
      exact ⟨elevators', by rw [call, done]; rfl, represents'⟩
  | formerRequest waits =>
      exact ⟨elevators, by rw [call, noopFormerRequest_represents represents waits]; rfl, represents⟩
  | latterRequest waits =>
      exact ⟨elevators, by rw [call, noopLatterRequest_represents represents waits]; rfl, represents⟩

end

end CE321.Iosched
