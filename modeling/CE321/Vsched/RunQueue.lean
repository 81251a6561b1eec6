import CE321.Vsched.Schedule

/-! # The run queue

The run queue as a list of tasks: what `enqueue`, `deactivate_task` and `schedule` do in
these terms.
-/

namespace CE321.Vsched

/-- The run queue from its head on, which is init as long as there is a task in it. -/
structure RunQueue (vm : Vm) (queue : List Task) : Prop where
  head : vm.head = .init
  ring : queue ≠ [] → ∃ behind, queue = .init :: behind ∧
    Ring (fun task => (vm.task task).next) (fun task => (vm.task task).prev) .init behind
  count : vm.nrRunning = queue.length
  linked : ∀ task, (vm.task task).next = none ↔ task ∉ queue

/-- A step that leaves the links of the run queue alone. -/
structure SameLinks (vm vm' : Vm) : Prop where
  head : vm'.head = vm.head
  nrRunning : vm'.nrRunning = vm.nrRunning
  next : ∀ task, (vm'.task task).next = (vm.task task).next
  prev : ∀ task, (vm'.task task).prev = (vm.task task).prev

theorem SameLinks.refl (vm : Vm) : SameLinks vm vm := ⟨rfl, rfl, fun _ => rfl, fun _ => rfl⟩

theorem SameLinks.trans {vm vm' vm'' : Vm} (first : SameLinks vm vm') (second : SameLinks vm' vm'') :
    SameLinks vm vm'' where
  head := second.head.trans first.head
  nrRunning := second.nrRunning.trans first.nrRunning
  next := fun task => (second.next task).trans (first.next task)
  prev := fun task => (second.prev task).trans (first.prev task)

theorem sameLinks_setTask (vm : Vm) (task : Task) {change : TaskStruct → TaskStruct}
    (next : (change (vm.task task)).next = (vm.task task).next)
    (prev : (change (vm.task task)).prev = (vm.task task).prev) :
    SameLinks vm (vm.setTask task change) := by
  refine ⟨rfl, rfl, fun other => ?_, fun other => ?_⟩
  · by_cases same : other = task
    · subst same
      simpa [Vm.setTask] using next
    · simp [Vm.setTask, same]
  · by_cases same : other = task
    · subst same
      simpa [Vm.setTask] using prev
    · simp [Vm.setTask, same]

theorem RunQueue.frame {vm vm' : Vm} {queue : List Task} (runQueue : RunQueue vm queue)
    (head : vm'.head = vm.head) (nrRunning : vm'.nrRunning = vm.nrRunning)
    (next : ∀ task, (vm'.task task).next = (vm.task task).next)
    (prev : ∀ task ∈ queue, (vm'.task task).prev = (vm.task task).prev) : RunQueue vm' queue where
  head := head.trans runQueue.head
  ring := by
    intro hasTask
    rcases runQueue.ring hasTask with ⟨behind, rfl, ring⟩
    refine ⟨behind, rfl, ring.linked.frame (fun task _ => next task) ?_, ring.nodup⟩
    intro task member
    apply prev
    rcases List.mem_append.mp member with inside | isHead
    · exact List.mem_cons_of_mem _ inside
    · exact List.mem_singleton.mp isHead ▸ List.mem_cons_self
  count := nrRunning.trans runQueue.count
  linked := fun task => by rw [next, runQueue.linked]

theorem RunQueue.same {vm vm' : Vm} {queue : List Task} (runQueue : RunQueue vm queue)
    (same : SameLinks vm vm') : RunQueue vm' queue :=
  runQueue.frame same.head same.nrRunning same.next fun task _ => same.prev task

theorem RunQueue.nodup {vm : Vm} {queue : List Task} (runQueue : RunQueue vm queue) :
    queue.Nodup := by
  cases queue with
  | nil => exact List.nodup_nil
  | cons first rest =>
      rcases runQueue.ring (List.cons_ne_nil _ _) with ⟨behind, split, ring⟩
      exact split ▸ ring.nodup

theorem RunQueue.link {vm : Vm} {queue : List Task} (runQueue : RunQueue vm queue) {task : Task}
    (member : task ∈ queue) :
    (∃ right ∈ queue, (vm.task task).next = some right ∧ (vm.task right).prev = some task) ∧
      ∃ left ∈ queue, (vm.task task).prev = some left ∧ (vm.task left).next = some task := by
  rcases runQueue.ring (List.ne_nil_of_mem member) with ⟨behind, rfl, ring⟩
  exact ring.link member

/-- Only links and times of tasks change. -/
structure Relinked (vm vm' : Vm) : Prop where
  rest : ∃ task nrRunning, vm' = { vm with task := task, nrRunning := nrRunning }
  needReschedule : ∀ task, (vm'.task task).needReschedule = (vm.task task).needReschedule

theorem relinked_setTask (vm : Vm) (task : Task) {change : TaskStruct → TaskStruct}
    (needReschedule : (change (vm.task task)).needReschedule = (vm.task task).needReschedule) :
    Relinked vm (vm.setTask task change) := by
  refine ⟨⟨_, vm.nrRunning, rfl⟩, fun other => ?_⟩
  by_cases same : other = task
  · subst same
    simpa [Vm.setTask] using needReschedule
  · simp [Vm.setTask, same]

theorem Relinked.trans {vm vm' vm'' : Vm} (first : Relinked vm vm') (second : Relinked vm' vm'') :
    Relinked vm vm'' := by
  rcases first with ⟨⟨task, nrRunning, rfl⟩, firstFlags⟩
  rcases second with ⟨⟨task', nrRunning', rfl⟩, secondFlags⟩
  exact ⟨⟨task', nrRunning', rfl⟩, fun other => (secondFlags other).trans (firstFlags other)⟩

section

variable {setup : Setup} {vm : Vm} {queue : List Task}

/-! ## Putting a task in -/

theorem linkBehindHead_next (first p task : Task) (away : p ≠ vm.head) :
    ((linkBehindHead vm first p).task task).next =
      if task = vm.head then some p else if task = p then some first else (vm.task task).next := by
  simp only [linkBehindHead, Vm.setTask, Function.update_apply]
  split_ifs <;> simp_all

theorem linkBehindHead_prev (first p task : Task) :
    ((linkBehindHead vm first p).task task).prev =
      if task = first then some p else if task = p then some vm.head else (vm.task task).prev := by
  simp only [linkBehindHead, Vm.setTask, Function.update_apply]
  split_ifs <;> simp_all

theorem linkBehindHead_relinked (first p : Task) : Relinked vm (linkBehindHead vm first p) := by
  refine ⟨⟨_, vm.nrRunning, rfl⟩, fun task => ?_⟩
  simp only [linkBehindHead, Vm.setTask, Function.update_apply]
  split_ifs <;> simp_all

theorem RunQueue.linkBehindHead {behind : List Task} {p first : Task}
    (runQueue : RunQueue vm (.init :: behind)) (fresh : p ∉ Task.init :: behind)
    (isFirst : (vm.task .init).next = some first) :
    RunQueue { Vsched.linkBehindHead vm first p with nrRunning := vm.nrRunning + 1 }
      (.init :: p :: behind) := by
  have away : p ≠ .init := fun same => fresh (same ▸ List.mem_cons_self)
  have next := fun task => @linkBehindHead_next vm first p task (runQueue.head.symm ▸ away)
  have prev := fun task => @linkBehindHead_prev vm first p task
  rw [runQueue.head] at next prev
  rcases runQueue.ring (List.cons_ne_nil _ _) with ⟨behind', split, ring⟩
  cases split
  rcases runQueue.link List.mem_cons_self with ⟨⟨first', inside, isFirst', -⟩, -⟩
  rw [isFirst] at isFirst'
  cases isFirst'
  have notFirst : p ≠ first := fun same => fresh (same ▸ inside)
  constructor
  · exact runQueue.head
  · intro _
    refine ⟨p :: behind, rfl, ring.insert fresh isFirst ?_ ?_ ?_ ?_ ?_ ?_⟩
    · rw [next, if_pos rfl]
    · rw [prev, if_neg notFirst, if_pos rfl]
    · rw [next, if_neg away, if_pos rfl]
    · rw [prev, if_pos rfl]
    · intro other notHead notElement
      rw [next, if_neg notHead, if_neg notElement]
    · intro other notFirst notElement
      rw [prev, if_neg notFirst, if_neg notElement]
  · show vm.nrRunning + 1 = _
    rw [runQueue.count]
    rfl
  · intro task
    rw [next]
    have unlinked := runQueue.linked task
    split_ifs with isHead isNew
    · simp [isHead]
    · simp [isNew]
    · rw [unlinked]
      simp [isHead, isNew]

theorem RunQueue.enqueue {behind : List Task} {p : Task} (runQueue : RunQueue vm (.init :: behind))
    (fresh : p ∉ Task.init :: behind) :
    ∃ vm', Vsched.enqueue setup vm p = some vm' ∧ RunQueue vm' (.init :: p :: behind) ∧
      Relinked vm vm' := by
  rcases runQueue.link List.mem_cons_self with ⟨⟨first, -, isFirst, -⟩, -⟩
  have queued := runQueue.linkBehindHead fresh isFirst
  have relinked : Relinked vm
      { Vsched.linkBehindHead vm first p with nrRunning := vm.nrRunning + 1 } := by
    rcases linkBehindHead_relinked first p with ⟨⟨task, nrRunning, same⟩, needReschedule⟩
    refine ⟨⟨task, vm.nrRunning + 1, ?_⟩, needReschedule⟩
    rw [same]
  have count : (Vsched.linkBehindHead vm first p).nrRunning = vm.nrRunning := rfl
  rw [← runQueue.head] at isFirst
  simp only [Vsched.enqueue, isFirst, Option.bind_eq_bind, Option.bind_some, count]
  cases setup.scheduler with
  | sjf => exact ⟨_, rfl, queued, relinked⟩
  | sjfGoodness =>
      exact ⟨_, rfl, queued.same (sameLinks_setTask _ p rfl rfl),
        relinked.trans (relinked_setTask _ p rfl)⟩

/-! ## Taking a task out -/

/-- The links after `deactivate_task`. -/
def unlink (vm : Vm) (left right : Option Task) (p l r : Task) : Vm :=
  ((vm.setTask l fun t => { t with next := right }).setTask r
    fun t => { t with prev := left }).setTask p fun t => { t with next := none, prev := none }

theorem unlink_next (left right : Option Task) (p l r task : Task) :
    ((unlink vm left right p l r).task task).next =
      if task = p then none else if task = l then right else (vm.task task).next := by
  simp only [unlink, Vm.setTask, Function.update_apply]
  split_ifs <;> simp_all

theorem unlink_prev (left right : Option Task) (p l r task : Task) :
    ((unlink vm left right p l r).task task).prev =
      if task = p then none else if task = r then left else (vm.task task).prev := by
  simp only [unlink, Vm.setTask, Function.update_apply]
  split_ifs <;> simp_all

theorem unlink_relinked (left right : Option Task) (p l r : Task) (nrRunning : Nat) :
    Relinked vm { unlink vm left right p l r with nrRunning := nrRunning } := by
  refine ⟨⟨_, nrRunning, rfl⟩, fun task => ?_⟩
  simp only [unlink, Vm.setTask, Function.update_apply]
  split_ifs <;> simp_all

theorem deactivateTask_eq {p left right : Task} (isLeft : (vm.task p).prev = some left)
    (isRight : (vm.task p).next = some right) :
    deactivateTask vm p = some
      { unlink vm (some left) (some right) p left right with nrRunning := vm.nrRunning - 1 } := by
  have next : ((vm.setTask left fun t => { t with next := some right }).task p).next =
      some right := by
    simp only [Vm.setTask, Function.update_apply]
    split_ifs <;> simp_all
  have prev : ((vm.setTask left fun t => { t with next := some right }).task p).prev =
      some left := by
    simp only [Vm.setTask, Function.update_apply]
    split_ifs <;> simp_all
  simp only [Vsched.deactivateTask, isLeft, isRight, Option.bind_eq_bind, Option.bind_some, next,
    prev]
  rfl

/-- A task that is not the head is taken out, and the head when it is the only task. -/
theorem RunQueue.deactivateTask {p : Task} (runQueue : RunQueue vm queue) (member : p ∈ queue)
    (last : p = .init → queue = [.init]) :
    ∃ vm', Vsched.deactivateTask vm p = some vm' ∧ RunQueue vm' (queue.erase p) ∧
      Relinked vm vm' := by
  rcases runQueue.link member with ⟨⟨right, -, isRight, -⟩, left, inQueue, isLeft, -⟩
  refine ⟨_, deactivateTask_eq isLeft isRight, ?_, unlink_relinked _ _ _ _ _ _⟩
  have next := fun task => @unlink_next vm (some left) (some right) p left right task
  have prev := fun task => @unlink_prev vm (some left) (some right) p left right task
  constructor
  · exact runQueue.head
  · intro hasMore
    have notHead : p ≠ .init := by
      rintro rfl
      rw [last rfl] at hasMore
      exact hasMore (List.erase_cons_head ..)
    rcases runQueue.ring (List.ne_nil_of_mem member) with ⟨behind, rfl, ring⟩
    have later : p ∈ behind := (List.mem_cons.mp member).resolve_left notHead
    rcases List.append_of_mem later with ⟨before, after, rfl⟩
    have fresh : p ∉ before := by
      intro early
      have nodup := (List.nodup_cons.mp ring.nodup).2
      exact (List.nodup_append.mp nodup).2.2 p early p List.mem_cons_self rfl
    have erased : (Task.init :: (before ++ p :: after)).erase p = .init :: (before ++ after) := by
      rw [List.erase_cons_tail (by simpa using notHead.symm), List.erase_append_right _ fresh,
        List.erase_cons_head]
    rcases ring.neighbours with ⟨left', right', inLeft, inRight, isLeft', isRight', -, -⟩
    rw [isLeft] at isLeft'
    cases isLeft'
    rw [isRight] at isRight'
    cases isRight'
    have apart : ∀ other ∈ after, other ≠ p := by
      rintro other further rfl
      exact (List.nodup_cons.mp (List.nodup_append.mp (List.nodup_cons.mp ring.nodup).2).2.1).1
        further
    refine ⟨before ++ after, erased, ring.remove isLeft isRight ?_ ?_ ?_ ?_⟩
    · rw [next, if_neg, if_pos rfl]
      rintro rfl
      rcases List.mem_cons.mp inLeft with isHead | early
      · exact notHead isHead
      · exact fresh early
    · rw [prev, if_neg, if_pos rfl]
      rintro rfl
      rcases List.mem_append.mp inRight with further | isHead
      · exact apart _ further rfl
      · exact notHead (List.mem_singleton.mp isHead)
    · intro other notLeft notElement
      rw [next, if_neg notElement, if_neg notLeft]
    · intro other notRight notElement
      rw [prev, if_neg notElement, if_neg notRight]
  · show vm.nrRunning - 1 = _
    rw [runQueue.count, List.length_erase_of_mem member]
  · intro task
    rw [next, runQueue.nodup.mem_erase_iff]
    have unlinked := runQueue.linked task
    split_ifs with isElement isLeftTask
    · simp [isElement]
    · simp [isElement, isLeftTask ▸ inQueue]
    · rw [unlinked]
      simp [isElement]

end

end CE321.Vsched
