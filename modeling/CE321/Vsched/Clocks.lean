import CE321.Vsched.Bursts
import CE321.Vsched.ListParts

/-! # The clock and the sleepers

The machine counts cycles in `clocktick`, and its timers count them down: `timer` to the next
jiffy, and `intTimer` to the "IO" event that wakes every task that sleeps.
-/

namespace CE321.Vsched

/-- The counters that follow the clock. -/
def Vm.clocks (vm : Vm) : Nat × Int × Nat × Int :=
  (vm.clocktick, vm.timer, vm.jiffies, vm.intTimer)

/-- The "IO" timer at the end of a cycle: it is set where it has run out, for a second and a bit
at most. -/
structure Armed (before now : Int) : Prop where
  kept : 0 ≤ before → now = before
  pos : before ≠ 0 → 0 < now
  bound : now ≤ max before 524500

/-- What a step does to the clock and to the tasks that sleep. -/
inductive Beats (vm next : Vm) : Prop
  | starts (pc : vm.pc = .start) (pc' : next.pc = .cycle)
      (clocks : next.clocks = (vm.clocktick, 5000, vm.jiffies, vm.intTimer))
      (asleep : next.intwaitlist = vm.intwaitlist)
  | kills (pc : vm.pc = .cycle) (pc' : next.pc = .tick) (clocks : next.clocks = vm.clocks)
      (asleep : next.intwaitlist = vm.intwaitlist)
  | cycles (pc : vm.pc = .cycle) (pc' : next.pc = .tick)
      {intTimer : Int} (armed : Armed vm.intTimer intTimer)
      (clocks : next.clocks = (vm.clocktick, vm.timer, vm.jiffies, intTimer))
      (asleep : next.intwaitlist = vm.intwaitlist ∨
        next.intwaitlist = vm.intwaitlist ++ [vm.current])
  | ticks (pc : vm.pc = .tick) (pc' : next.pc = .io ∨ next.pc = .tickSchedule)
      (clocks : next.clocks = if vm.timer ≤ 1 then (vm.clocktick, 5000, vm.jiffies + 1, vm.intTimer)
        else (vm.clocktick, vm.timer - 1, vm.jiffies, vm.intTimer))
      (asleep : next.intwaitlist = vm.intwaitlist)
  | fires (pc : vm.pc = .io) (pc' : next.pc = .reschedule) (intTimer : vm.intTimer = 1)
      (clocks : next.clocks = (vm.clocktick + 1, vm.timer, vm.jiffies, -1))
      (asleep : next.intwaitlist = [])
  | waits (pc : vm.pc = .io) (pc' : next.pc = .reschedule ∨ next.pc = .endCycle)
      (intTimer : vm.intTimer ≠ 1)
      (clocks : next.clocks = (vm.clocktick + 1, vm.timer, vm.jiffies,
        if vm.intTimer > 0 then vm.intTimer - 1 else vm.intTimer))
      (asleep : next.intwaitlist = vm.intwaitlist)
  | switches (pc : vm.pc = .tickSchedule ∧ next.pc = .io ∨ vm.pc = .reschedule ∧ next.pc = .endCycle ∨
        vm.pc = .endCycle ∧ (next.pc = .cycle ∨ next.pc = .halted))
      (clocks : next.clocks = vm.clocks) (asleep : next.intwaitlist = vm.intwaitlist)

section

variable {setup : Setup} {vm vm' vm'' : Vm}

theorem clocks_eq {clocktick jiffies : Nat} {timer intTimer : Int}
    (clocks : vm.clocks = (clocktick, timer, jiffies, intTimer)) : vm.clocktick = clocktick ∧
      vm.timer = timer ∧ vm.jiffies = jiffies ∧ vm.intTimer = intTimer := by
  simpa [Vm.clocks] using clocks

/-! ## Parts in which the clock stands still -/

theorem enqueue_clocks {p : Task} (done : enqueue setup vm p = some vm') :
    vm'.clocks = vm.clocks := by
  unfold enqueue at done
  rcases Option.bind_eq_some_iff.mp done with ⟨first, -, linked⟩
  cases scheduler : setup.scheduler with
  | sjf =>
      simp only [scheduler] at linked
      cases linked
      rfl
  | sjfGoodness =>
      simp only [scheduler] at linked
      cases linked
      rfl

theorem deactivateTask_clocks {p : Task} (done : deactivateTask vm p = some vm') :
    vm'.clocks = vm.clocks := by
  unfold deactivateTask at done
  rcases Option.bind_eq_some_iff.mp done with ⟨left, -, done⟩
  rcases Option.bind_eq_some_iff.mp done with ⟨right, -, done⟩
  cases done
  rfl

theorem schedule_clocks (done : schedule setup vm = some vm') : vm'.clocks = vm.clocks := by
  rcases schedule_rest done with ⟨intWaitTimer, drawn, same⟩
  rw [same]
  rfl

theorem forktask_clocks {child : Nat} (done : forktask setup vm child = some vm') :
    vm'.clocks = vm.clocks := by
  unfold forktask at done
  rcases Option.bind_eq_some_iff.mp done with ⟨woken, enqueued, done⟩
  rcases @newTask_rest setup vm child with ⟨task, info, made⟩
  cases done
  refine (enqueue_clocks enqueued).trans ?_
  rw [made]
  rfl

theorem spawnLoop_clocks {parent : Task} (todo : List Nat) :
    ∀ {vm vm' : Vm}, spawnLoop setup parent todo vm = some vm' → vm'.clocks = vm.clocks := by
  induction todo with
  | nil =>
      intro vm vm' done
      cases done
      rfl
  | cons child rest induction =>
      intro vm vm' done
      unfold spawnLoop at done
      split_ifs at done
      · rcases Option.bind_eq_some_iff.mp done with ⟨forked, forks, done⟩
        have forked := forktask_clocks forks
        have still := induction done
        exact still.trans forked
      · exact induction done

theorem spawnChildren_clocks {parent : Task} (done : spawnChildren setup vm parent = some vm') :
    vm'.clocks = vm.clocks := by
  unfold spawnChildren at done
  split_ifs at done
  · exact spawnLoop_clocks _ done
  · cases done
    rfl

theorem armIntTimer_clocks (setup : Setup) (vm : Vm) : ∃ intTimer, Armed vm.intTimer intTimer ∧
    (armIntTimer setup vm).clocks = (vm.clocktick, vm.timer, vm.jiffies, intTimer) := by
  unfold armIntTimer
  split_ifs with expired
  · refine ⟨_, ?_, rfl⟩
    have bound := Nat.mod_lt (setup.rand vm.drawn) (show 0 < 1000 by decide)
    constructor
    · intro running
      omega
    · intro _
      simp only [msToTicks_rand]
      omega
    · simp only [msToTicks_rand]
      omega
  · refine ⟨vm.intTimer, ?_, rfl⟩
    constructor
    · exact fun _ => rfl
    · intro armed
      omega
    · exact le_max_left _ _

theorem spawnAll_clocks (done : spawnAll setup vm = some vm') : ∃ intTimer,
    Armed vm.intTimer intTimer ∧ vm'.clocks = (vm.clocktick, vm.timer, vm.jiffies, intTimer) := by
  rcases Option.bind_eq_some_iff.mp done with ⟨middle, ofCurrent, ofInit⟩
  rcases armIntTimer_clocks setup vm with ⟨intTimer, armed, clocks⟩
  exact ⟨intTimer, armed,
    (spawnChildren_clocks ofInit).trans ((spawnChildren_clocks ofCurrent).trans clocks)⟩

theorem taskEnd_clocks {result : Bool × Vm} (done : taskEnd setup vm = some result) :
    result.2.clocks = vm.clocks := by
  simp only [taskEnd] at done
  split_ifs at done
  · rcases Option.bind_eq_some_iff.mp done with ⟨left, deactivated, done⟩
    rcases killtask_rest setup left with ⟨task, info, results, killed⟩
    have still := deactivateTask_clocks deactivated
    cases done
    refine Eq.trans ?_ still
    rw [killed]
    rfl
  · cases done
    rfl
  · cases done
    rfl

theorem work_clocks {result : Bool × Vm} (done : work setup vm = some result) :
    result.2.clocks = vm.clocks := by
  rcases workDuration_counts vm with ⟨info, worked⟩
  simp only [work, worked] at done
  split_ifs at done
  · have still := taskEnd_clocks done
    exact still
  · cases done
    rfl

theorem tickSleep_clocks (done : tickSleep vm = some vm') : vm'.clocks = vm.clocks := by
  rcases intWaitTimer_counts vm with ⟨intWaitTimer, ticked⟩
  simp only [tickSleep, ticked] at done
  split_ifs at done
  · rcases Option.bind_eq_some_iff.mp done with ⟨left, deactivated, done⟩
    have still := deactivateTask_clocks deactivated
    cases done
    exact still
  · cases done
    rfl

theorem wakeAll_clocks (asleep : List Task) :
    ∀ {vm vm' : Vm}, wakeAll setup asleep vm = some vm' → vm'.clocks = vm.clocks := by
  induction asleep with
  | nil =>
      intro vm vm' done
      cases done
      rfl
  | cons task rest induction =>
      intro vm vm' done
      rcases Option.bind_eq_some_iff.mp done with ⟨woken, enqueued, done⟩
      have woke := enqueue_clocks enqueued
      have still := induction done
      exact still.trans woke

/-! ## The sleepers -/

theorem spawnLoop_asleep {parent : Task} (todo : List Nat) :
    ∀ {vm vm' : Vm}, spawnLoop setup parent todo vm = some vm' →
      vm'.intwaitlist = vm.intwaitlist := by
  induction todo with
  | nil =>
      intro vm vm' done
      cases done
      rfl
  | cons child rest induction =>
      intro vm vm' done
      unfold spawnLoop at done
      split_ifs at done
      · rcases Option.bind_eq_some_iff.mp done with ⟨forked, forks, done⟩
        have kept := (forktask_ignoresLists child).keeps forks
        have same := induction done
        exact same.trans kept.1
      · exact induction done

theorem spawnChildren_asleep {parent : Task} (done : spawnChildren setup vm parent = some vm') :
    vm'.intwaitlist = vm.intwaitlist := by
  unfold spawnChildren at done
  split_ifs at done
  · exact spawnLoop_asleep _ done
  · cases done
    rfl

theorem spawnAll_asleep (done : spawnAll setup vm = some vm') :
    vm'.intwaitlist = vm.intwaitlist := by
  rcases Option.bind_eq_some_iff.mp done with ⟨middle, ofCurrent, ofInit⟩
  have armed : (armIntTimer setup vm).intwaitlist = vm.intwaitlist := by
    unfold armIntTimer
    split_ifs
    · rfl
    · rfl
  exact (spawnChildren_asleep ofInit).trans ((spawnChildren_asleep ofCurrent).trans armed)

theorem work_asleep {result : Bool × Vm} (done : work setup vm = some result) :
    result.2.intwaitlist = vm.intwaitlist := by
  rcases workDuration_counts vm with ⟨info, worked⟩
  simp only [work, worked] at done
  split_ifs at done
  · have kept := (taskEnd_keeps done).1
    exact kept
  · cases done
    rfl

theorem tickSleep_asleep (done : tickSleep vm = some vm') : vm'.intwaitlist = vm.intwaitlist ∨
    vm'.intwaitlist = vm.intwaitlist ++ [vm.current] := by
  rcases intWaitTimer_counts vm with ⟨intWaitTimer, ticked⟩
  simp only [tickSleep, ticked] at done
  split_ifs at done
  · rcases Option.bind_eq_some_iff.mp done with ⟨left, deactivated, done⟩
    have kept := deactivateTask_ignoresLists.keeps deactivated
    cases done
    exact .inr kept.1
  · cases done
    exact .inl rfl

theorem wakeAll_asleep (asleep : List Task) : ∀ {vm vm' : Vm},
    wakeAll setup asleep vm = some vm' → vm.intwaitlist = asleep → vm'.intwaitlist = [] := by
  induction asleep with
  | nil =>
      intro vm vm' done all
      cases done
      exact all
  | cons task rest induction =>
      intro vm vm' done all
      rcases Option.bind_eq_some_iff.mp done with ⟨woken, enqueued, done⟩
      have kept := (enqueue_ignoresLists task).keeps enqueued
      apply induction done
      show woken.intwaitlist.erase task = rest
      rw [kept.1, all, List.erase_cons_head]

/-! ## Steps -/

theorem spawnAll_beats {vm' : Vm} (pc : vm.pc = .cycle) (clocks : vm'.clocks = vm.clocks)
    (asleep : vm'.intwaitlist = vm.intwaitlist ∨
      vm'.intwaitlist = vm.intwaitlist ++ [vm.current])
    (done : spawnAll setup vm' = some vm'') : Beats vm { vm'' with pc := .tick } := by
  rcases spawnAll_clocks done with ⟨intTimer, armed, after⟩
  rcases clocks_eq clocks with ⟨clocktick, timer, jiffies, before⟩
  rw [clocktick, timer, jiffies] at after
  rw [before] at armed
  refine .cycles pc rfl armed after ?_
  have kept := spawnAll_asleep done
  exact asleep.imp kept.trans kept.trans

theorem cycle_beats (pc : vm.pc = .cycle) (done : cycle setup vm = some vm') :
    Beats vm { vm' with pc := .tick } := by
  cases cycle_parts done with
  | ends ended => exact .kills pc rfl (taskEnd_clocks ended) (taskEnd_keeps ended).1
  | inits lasts isInit spawned =>
      exact spawnAll_beats pc (taskEnd_clocks lasts) (.inl (taskEnd_keeps lasts).1) spawned
  | finishes lasts isProcess finished =>
      exact .kills pc rfl ((work_clocks finished).trans (taskEnd_clocks lasts))
        ((work_asleep finished).trans (taskEnd_keeps lasts).1)
  | @worksOn first worked asleep lasts isProcess worksOn sleeps spawned =>
      have clocks : worked.clocks = vm.clocks := (work_clocks worksOn).trans (taskEnd_clocks lasts)
      have kept : worked.intwaitlist = vm.intwaitlist :=
        (work_asleep worksOn).trans (taskEnd_keeps lasts).1
      rcases sleeps with rfl | sleeps
      · exact spawnAll_beats pc clocks (.inl kept) spawned
      · have current : worked.current = vm.current :=
          (work_goesDown lasts isProcess worksOn).timeless.passes.current
        refine spawnAll_beats pc ((tickSleep_clocks sleeps).trans clocks) ?_ spawned
        rw [← kept, ← current]
        exact tickSleep_asleep sleeps

theorem jiffy_clocks (vm : Vm) : (jiffy vm).clocks = vm.clocks := by
  unfold jiffy
  split_ifs
  · rcases schedulerTick_timing vm vm.current with ⟨⟨task, same⟩, -, -⟩
    cases result : schedulerTick vm vm.current with
    | mk ticked calls =>
        rw [result] at same
        have same : ticked = { vm with task := task } := same
        rw [same]
        rfl
  · rfl

theorem tickOver_clocks (vm : Vm) : (tickOver vm).clocks =
    if vm.timer ≤ 0 then (vm.clocktick, 5000, vm.jiffies + 1, vm.intTimer) else vm.clocks := by
  unfold tickOver
  split_ifs
  · exact jiffy_clocks _
  · rfl

theorem scheduleTick_beats (pc : vm.pc = .tick) : Beats vm (scheduleTick vm) := by
  have clocks : (scheduleTick vm).clocks =
      if vm.timer ≤ 1 then (vm.clocktick, 5000, vm.jiffies + 1, vm.intTimer)
      else (vm.clocktick, vm.timer - 1, vm.jiffies, vm.intTimer) := by
    rw [scheduleTick_eq]
    by_cases running : vm.timer > 0
    · have ends : vm.timer - 1 ≤ 0 ↔ vm.timer ≤ 1 := by omega
      rw [if_pos running, tickOver_clocks]
      simp only [ends]
      rfl
    · rw [if_neg running, tickOver_clocks, if_pos (by omega), if_pos (by omega)]
  rcases scheduleTick_spec vm with ⟨task, jiffies, timer, place, same, -, places⟩
  refine .ticks pc ?_ clocks ?_
  · rw [same]
    exact places.imp_right And.left
  · rw [same]

theorem ioEvent_beats (pc : vm.pc = .io) (armed : vm.intTimer ≠ 0)
    (done : ioEvent setup vm = some vm') : Beats vm { vm' with
      clocktick := vm'.clocktick + 1
      pc := if (vm'.task vm'.current).needReschedule then .reschedule else .endCycle } := by
  by_cases expires : vm.intTimer = 1
  · simp only [ioEvent, expires] at done
    rcases Option.bind_eq_some_iff.mp done with ⟨woken, wakes, done⟩
    have clocks := clocks_eq (wakeAll_clocks _ wakes)
    have awake := wakeAll_asleep _ wakes rfl
    cases done
    refine .fires pc ?_ expires ?_ awake
    · simp [Vm.setTask]
    · simp only [Vm.clocks, Vm.setTask, clocks.1, clocks.2.1, clocks.2.2.1, clocks.2.2.2]
      rfl
  · have places : ∀ flag : Bool, (if flag then Pc.reschedule else .endCycle) = .reschedule ∨
        (if flag then Pc.reschedule else .endCycle) = .endCycle := by decide
    rcases intTimer_counts vm with ⟨intTimer, ticked, counted⟩
    have notYet : intTimer ≠ 0 := fun isZero => (counted.mp isZero).elim armed expires
    have timer : intTimer = if vm.intTimer > 0 then vm.intTimer - 1 else vm.intTimer := by
      have same := congrArg Vm.intTimer ticked
      rw [apply_ite Vm.intTimer] at same
      exact same.symm
    simp only [ioEvent, ticked, notYet, if_false] at done
    cases done
    refine .waits pc (places _) expires ?_ rfl
    rw [← timer]
    rfl

theorem endCycle_beats (setup : Setup) (pc : vm.pc = .endCycle) : Beats vm (endCycle setup vm) := by
  have places : (endCycle setup vm).pc = .cycle ∨ (endCycle setup vm).pc = .halted := by
    simp only [endCycle]
    split_ifs
    all_goals simp
  have kept : (endCycle setup vm).clocks = vm.clocks ∧
      (endCycle setup vm).intwaitlist = vm.intwaitlist := by
    simp only [endCycle]
    split_ifs
    all_goals exact ⟨rfl, rfl⟩
  exact .switches (.inr (.inr ⟨pc, places⟩)) kept.1 kept.2

theorem step_beats (armed : vm.intTimer ≠ 0) (taken : step setup vm = some vm') :
    Beats vm vm' := by
  cases step_taken taken with
  | @start next pc scheduled =>
      have clocks := clocks_eq (schedule_clocks scheduled)
      refine .starts pc rfl ?_ (schedule_ignoresLists.keeps scheduled).1
      simp only [Vm.clocks, msToTicks_hzToMs, clocks.1, clocks.2.2.1, clocks.2.2.2]
  | cycle pc cycled => exact cycle_beats pc cycled
  | tick pc => exact scheduleTick_beats pc
  | tickSchedule pc scheduled =>
      have still := schedule_clocks scheduled
      have kept := schedule_ignoresLists.keeps scheduled
      exact .switches (.inl ⟨pc, rfl⟩) still kept.1
  | io pc event => exact ioEvent_beats pc armed event
  | reschedule pc scheduled =>
      have still := schedule_clocks scheduled
      have kept := schedule_ignoresLists.keeps scheduled
      exact .switches (.inr (.inl ⟨pc, rfl⟩)) still kept.1
  | endCycle pc => exact endCycle_beats setup pc

theorem Beats.clocktick_le (beats : Beats vm next) : vm.clocktick ≤ next.clocktick := by
  cases beats with
  | starts pc pc' clocks => exact (clocks_eq clocks).1.ge
  | kills pc pc' clocks => exact (clocks_eq clocks).1.ge
  | cycles pc pc' set clocks => exact (clocks_eq clocks).1.ge
  | ticks pc pc' clocks =>
      split_ifs at clocks
      · exact (clocks_eq clocks).1.ge
      · exact (clocks_eq clocks).1.ge
  | fires pc pc' intTimer clocks => exact (clocks_eq clocks).1 ▸ Nat.le_succ _
  | waits pc pc' intTimer clocks => exact (clocks_eq clocks).1 ▸ Nat.le_succ _
  | switches pc clocks => exact (clocks_eq clocks).1.ge

end

end CE321.Vsched
