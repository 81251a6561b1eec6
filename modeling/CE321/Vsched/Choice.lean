import CE321.Vsched.RunQueue

/-! # What `schedule` chooses

`schedule` puts a task of the run queue in the place of the current one and leaves the links
alone. It gets nowhere with an empty run queue.
-/

namespace CE321.Vsched

/-- Only times of tasks change. -/
structure Timing (vm vm' : Vm) : Prop where
  rest : ∃ task, vm' = { vm with task := task }
  links : SameLinks vm vm'
  needReschedule : ∀ task, (vm'.task task).needReschedule = (vm.task task).needReschedule

theorem timing_setTask (vm : Vm) (task : Task) {change : TaskStruct → TaskStruct}
    (next : (change (vm.task task)).next = (vm.task task).next)
    (prev : (change (vm.task task)).prev = (vm.task task).prev)
    (needReschedule : (change (vm.task task)).needReschedule = (vm.task task).needReschedule) :
    Timing vm (vm.setTask task change) :=
  ⟨⟨_, rfl⟩, sameLinks_setTask vm task next prev, (relinked_setTask vm task needReschedule).2⟩

theorem Timing.trans {vm vm' vm'' : Vm} (first : Timing vm vm') (second : Timing vm' vm'') :
    Timing vm vm'' := by
  rcases first with ⟨⟨task, rfl⟩, firstLinks, firstFlags⟩
  rcases second with ⟨⟨task', rfl⟩, secondLinks, secondFlags⟩
  exact ⟨⟨task', rfl⟩, firstLinks.trans secondLinks,
    fun other => (secondFlags other).trans (firstFlags other)⟩

/-- The outgoing task gives up its flag, and another one may take its place. -/
structure Scheduled (vm vm' : Vm) : Prop where
  rest : ∃ task current intWaitTimer drawn, vm' =
    { vm with task := task, current := current, intWaitTimer := intWaitTimer, drawn := drawn }
  links : SameLinks vm vm'
  needReschedule : ∀ task, (vm'.task task).needReschedule =
    if task = vm.current then false else (vm.task task).needReschedule

section

variable {setup : Setup} {vm vm' : Vm} {queue : List Task}

theorem contextSwitch_eq (setup : Setup) (vm : Vm) (next : Task) :
    ∃ intWaitTimer drawn, contextSwitch setup vm next =
      { vm with current := next, intWaitTimer := intWaitTimer, drawn := drawn } := by
  simp only [contextSwitch]
  split_ifs
  · exact ⟨_, _, rfl⟩
  · exact ⟨vm.intWaitTimer, vm.drawn, rfl⟩

/-! ## The chosen task -/

theorem minExpBurstLoop_mem (vm : Vm) (list : List Task) :
    ∀ (minimum : Nat) (minTask : Task),
      minExpBurstLoop vm list minimum minTask ∈ minTask :: list := by
  induction list with
  | nil => exact fun _ _ => List.mem_singleton_self _
  | cons temp rest induction =>
      intro minimum minTask
      simp only [minExpBurstLoop]
      split_ifs
      · exact List.mem_cons_of_mem _ (induction _ temp)
      · rcases List.mem_cons.mp (induction minimum minTask) with same | later
        · exact List.mem_cons.mpr (.inl same)
        · exact List.mem_cons_of_mem _ (List.mem_cons_of_mem _ later)

theorem goodnessLoop_mem {currentTime maxWaiting minExpBurst : Nat} (list : List Task) :
    ∀ {minGoodness : Nat} {minTask chosen : Task},
      goodnessLoop vm currentTime maxWaiting minExpBurst list minGoodness minTask = some chosen →
      chosen ∈ minTask :: list := by
  induction list with
  | nil =>
      intro minGoodness minTask chosen found
      simp only [goodnessLoop, Option.some.injEq] at found
      exact found ▸ List.mem_singleton_self _
  | cons p rest induction =>
      intro minGoodness minTask chosen found
      simp only [goodnessLoop, Option.bind_eq_bind, Option.bind_eq_some_iff] at found
      rcases found with ⟨here, -, found⟩
      split_ifs at found
      · exact List.mem_cons_of_mem _ (induction found)
      · rcases List.mem_cons.mp (induction found) with same | later
        · exact List.mem_cons.mpr (.inl same)
        · exact List.mem_cons_of_mem _ (List.mem_cons_of_mem _ later)

theorem choose_mem {scheduler : Scheduler} {first chosen : Task} {behind : List Task}
    (found : choose scheduler vm first behind = some chosen) : chosen ∈ first :: behind := by
  cases scheduler with
  | sjf =>
      simp only [choose, Option.some.injEq] at found
      exact found ▸ minExpBurstLoop_mem vm behind _ first
  | sjfGoodness =>
      simp only [choose, calculateGoodness, Option.bind_eq_bind, Option.bind_eq_some_iff] at found
      rcases found with ⟨minGoodness, -, found⟩
      exact goodnessLoop_mem behind found

theorem calculateExpBurst_links (p : TaskStruct) :
    (calculateExpBurst p).next = p.next ∧ (calculateExpBurst p).prev = p.prev ∧
      (calculateExpBurst p).needReschedule = p.needReschedule := by
  simp only [calculateExpBurst, and_self]

theorem timing_burst (vm : Vm) (burst : Nat → Nat) :
    Timing vm (vm.setTask vm.current
      fun t => calculateExpBurst { t with burst := burst t.cpuOwned }) :=
  timing_setTask vm vm.current (calculateExpBurst_links _).1 (calculateExpBurst_links _).2.1
    (calculateExpBurst_links _).2.2

theorem putAside_timing (setup : Setup) (vm : Vm) : Timing vm (putAside setup vm) := by
  simp only [putAside]
  generalize schedClock vm = now
  cases setup.scheduler with
  | sjf => exact timing_burst vm fun cpuOwned => sub64 now cpuOwned % 2 ^ 32
  | sjfGoodness =>
      exact (timing_setTask vm vm.current rfl rfl rfl).trans
        (timing_burst _ fun cpuOwned => sub64 now cpuOwned % 2 ^ 32)

theorem takeOver_timing (vm : Vm) (saved : TaskStruct) (chosen : Task) :
    Timing vm (takeOver vm saved chosen) := by
  simp only [takeOver]
  split_ifs
  · exact timing_setTask vm vm.current rfl rfl rfl
  · exact (timing_setTask vm vm.current rfl rfl rfl).trans (timing_setTask _ chosen rfl rfl rfl)

theorem scheduleMany_spec {first : Task} {behind : List Task}
    (scheduled : scheduleMany setup vm first behind = some vm') :
    ∃ timed chosen, Timing vm timed ∧ chosen ∈ first :: behind ∧
      vm' = contextSwitch setup timed chosen := by
  unfold scheduleMany at scheduled
  rcases Option.bind_eq_some_iff.mp scheduled with ⟨chosen, found, same⟩
  exact ⟨takeOver (putAside setup vm) (vm.task vm.current) chosen, chosen,
    (putAside_timing setup vm).trans (takeOver_timing _ _ _), choose_mem found,
    (Option.some.inj same).symm⟩

/-! ## `schedule` -/

theorem RunQueue.isFirst {first : Task} {rest : List Task}
    (runQueue : RunQueue vm (.init :: first :: rest)) : (vm.task vm.head).next = some first := by
  rcases runQueue.ring (List.cons_ne_nil _ _) with ⟨behind, split, ring⟩
  cases split
  rw [runQueue.head]
  exact ring.linked.1

theorem RunQueue.printRq {behind : List Task} (runQueue : RunQueue vm (.init :: behind))
    (few : behind.length < setup.profile.processes.length + 2) :
    Vsched.printRq setup vm = some behind := by
  rcases runQueue.ring (List.cons_ne_nil _ _) with ⟨behind', split, ring⟩
  cases split
  rw [Vsched.printRq, runQueue.head]
  exact ring.walk few

theorem RunQueue.printRq_empty (runQueue : RunQueue vm []) : Vsched.printRq setup vm = none := by
  apply walkRing_none
  rw [runQueue.linked]
  exact List.not_mem_nil

theorem scheduled_contextSwitch {timed : Vm}
    (timing : Timing (vm.setTask vm.current fun t => { t with needReschedule := false }) timed)
    (chosen : Task) : Scheduled vm (contextSwitch setup timed chosen) := by
  have clear := @sameLinks_setTask vm vm.current (fun t => { t with needReschedule := false })
    rfl rfl
  have links := clear.trans timing.links
  rcases contextSwitch_eq setup timed chosen with ⟨intWaitTimer, drawn, switched⟩
  rw [switched]
  constructor
  · rcases timing.rest with ⟨task, rfl⟩
    exact ⟨task, chosen, intWaitTimer, drawn, rfl⟩
  · exact ⟨links.head, links.nrRunning, links.next, links.prev⟩
  · intro other
    refine (timing.needReschedule other).trans ?_
    by_cases same : other = vm.current
    · simp [Vm.setTask, same]
    · simp [Vm.setTask, same]

theorem RunQueue.schedule (runQueue : RunQueue vm queue)
    (few : queue.length ≤ setup.profile.processes.length + 1)
    (scheduled : Vsched.schedule setup vm = some vm') :
    vm'.current ∈ queue ∧ Scheduled vm vm' := by
  have current : ∀ (timed : Vm) (chosen : Task),
      (contextSwitch setup timed chosen).current = chosen := by
    intro timed chosen
    rcases contextSwitch_eq setup timed chosen with ⟨intWaitTimer, drawn, switched⟩
    rw [switched]
  have cleared := runQueue.same (@sameLinks_setTask vm vm.current
    (fun t => { t with needReschedule := false }) rfl rfl)
  unfold Vsched.schedule at scheduled
  rcases Option.bind_eq_some_iff.mp scheduled with ⟨behind, walked, branch⟩
  cases queue with
  | nil =>
      rw [runQueue.printRq_empty] at walked
      cases walked
  | cons head behind' =>
      rcases runQueue.ring (List.cons_ne_nil _ _) with ⟨behind'', split, ring⟩
      cases split
      rw [runQueue.printRq (by simp only [List.length_cons] at few; omega)] at walked
      cases walked
      have start : Timing (vm.setTask vm.current fun t => { t with needReschedule := false })
          (vm.setTask vm.current fun t => { t with needReschedule := false }) :=
        ⟨⟨_, rfl⟩, SameLinks.refl _, fun _ => rfl⟩
      by_cases alone : vm.nrRunning = 1
      · rw [if_pos (show (vm.setTask vm.current _).nrRunning = 1 from alone)] at branch
        cases branch
        rw [current]
        exact ⟨runQueue.head ▸ List.mem_cons_self, scheduled_contextSwitch start _⟩
      · rw [if_neg (show ¬(vm.setTask vm.current _).nrRunning = 1 from alone)] at branch
        rcases Option.bind_eq_some_iff.mp branch with ⟨first, isFirst, branch⟩
        have inQueue : first ∈ Task.init :: behind := by
          rcases cleared.link List.mem_cons_self with ⟨⟨right, inside, isRight, -⟩, -⟩
          rw [← cleared.head, isFirst] at isRight
          cases isRight
          exact inside
        split_ifs at branch with two
        · cases branch
          rw [current]
          exact ⟨inQueue, scheduled_contextSwitch
            (start.trans (timing_setTask _ first rfl rfl rfl)) first⟩
        · rcases scheduleMany_spec branch with ⟨timed, chosen, timing, member, rfl⟩
          rw [current]
          refine ⟨?_, scheduled_contextSwitch timing chosen⟩
          rcases List.mem_cons.mp member with rfl | later
          · exact inQueue
          · exact List.mem_cons_of_mem _ later

end

end CE321.Vsched
