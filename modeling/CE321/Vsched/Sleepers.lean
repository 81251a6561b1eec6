import CE321.Vsched.Clocks

/-! # Jiffies and sleep

The jiffies are the clock in steps of ten milliseconds, and a task that sleeps does so up to an
instant that is known all the time.
-/

namespace CE321.Vsched

/-- A cycle whose schedule tick is through, and which the clock does not count yet. -/
def Pc.owed : Pc → Nat
  | .tickSchedule => 1
  | .io => 1
  | _ => 0

/-- The timers of a machine that has started. -/
structure OnTime (vm : Vm) : Prop where
  started : vm.pc ≠ .start
  timer : 0 < vm.timer ∧ vm.timer ≤ 5000
  jiffies : (vm.clocktick + vm.pc.owed : Nat) + vm.timer = 5000 * (vm.jiffies + 1)

/-- The "IO" timer of a machine with sleepers. -/
structure Expected (vm : Vm) : Prop where
  bound : vm.intTimer ≤ 524500
  armed : vm.intwaitlist ≠ [] → 0 < vm.intTimer

/-- The machines that a run comes to. -/
def Later (setup : Setup) : Vm → Vm → Prop :=
  Relation.ReflTransGen fun vm next => step setup vm = some next

section

variable {setup : Setup} {vm vm' next : Vm}

/-! ## Jiffies -/

theorem onTime_of_clocks {clocktick jiffies : Nat} {timer intTimer : Int} {pc : Pc}
    (clocks : vm.clocks = (clocktick, timer, jiffies, intTimer)) (place : vm.pc = pc)
    (started : pc ≠ .start) (bounds : 0 < timer ∧ timer ≤ 5000)
    (counts : (clocktick + pc.owed : Nat) + timer = 5000 * (jiffies + 1)) : OnTime vm := by
  rcases clocks_eq clocks with ⟨rfl, rfl, rfl, -⟩
  subst place
  exact ⟨started, bounds, counts⟩

theorem Beats.onTime (beats : Beats vm next)
    (onTime : vm.pc = .start ∧ vm.clocktick = 0 ∧ vm.jiffies = 0 ∨ OnTime vm) : OnTime next := by
  have started : vm.pc ≠ .start → OnTime vm :=
    fun other => onTime.resolve_left fun start => other start.1
  -- The schedule tick takes a cycle off the timer, and the clock gets it behind the "IO" event.
  cases beats with
  | starts pc pc' clocks =>
      rcases onTime with ⟨-, zero, zero'⟩ | onTime
      · rw [zero, zero'] at clocks
        exact onTime_of_clocks clocks pc' (by decide) (by decide) (by decide)
      · exact absurd pc onTime.started
  | kills pc pc' clocks =>
      rcases started (by simp [pc]) with ⟨-, timer, counts⟩
      rw [pc] at counts
      exact onTime_of_clocks clocks pc' (by decide) timer counts
  | cycles pc pc' armed clocks =>
      rcases started (by simp [pc]) with ⟨-, timer, counts⟩
      rw [pc] at counts
      exact onTime_of_clocks clocks pc' (by decide) timer counts
  | ticks pc pc' clocks =>
      rcases started (by simp [pc]) with ⟨-, timer, counts⟩
      rw [pc] at counts
      have owed : next.pc.owed = 1 := by
        rcases pc' with pc' | pc'
        all_goals rw [pc', Pc.owed]
      have places : next.pc ≠ .start := by
        rcases pc' with pc' | pc'
        all_goals simp [pc']
      simp only [Pc.owed] at counts
      split_ifs at clocks
      · refine onTime_of_clocks clocks rfl places (by decide) ?_
        rw [owed]
        omega
      · refine onTime_of_clocks clocks rfl places (by omega) ?_
        rw [owed]
        omega
  | fires pc pc' intTimer clocks =>
      rcases started (by simp [pc]) with ⟨-, timer, counts⟩
      rw [pc] at counts
      exact onTime_of_clocks clocks pc' (by decide) timer counts
  | waits pc pc' intTimer clocks =>
      rcases started (by simp [pc]) with ⟨-, timer, counts⟩
      rw [pc] at counts
      rcases pc' with pc' | pc'
      · exact onTime_of_clocks clocks pc' (by decide) timer counts
      · exact onTime_of_clocks clocks pc' (by decide) timer counts
  | switches pc clocks =>
      have other : vm.pc ≠ .start := by
        rcases pc with ⟨pc, -⟩ | ⟨pc, -⟩ | ⟨pc, -⟩
        all_goals simp [pc]
      rcases started other with ⟨-, timer, counts⟩
      rcases pc with ⟨pc, pc'⟩ | ⟨pc, pc'⟩ | ⟨pc, pc' | pc'⟩
      all_goals
        rw [pc] at counts
        exact onTime_of_clocks clocks pc' (by decide) timer counts

theorem Reachable.onTime (reachable : Reachable setup vm) :
    vm.pc = .start ∧ vm.clocktick = 0 ∧ vm.jiffies = 0 ∨ OnTime vm := by
  induction reachable with
  | boot => exact .inl ⟨rfl, rfl, rfl⟩
  | step reachable taken induction =>
      rcases reachable.invariant with ⟨queue, invariant⟩
      exact .inr ((step_beats invariant.timer taken).onTime induction)

/-- The clock of the schedulers is the clock of the machine in steps of a jiffy, and the timer
has what is left of the jiffy. -/
theorem jiffies_of_run (reachable : Reachable setup vm) :
    vm.jiffies = (vm.clocktick + vm.pc.owed) / 5000 ∧
      schedClock vm = (vm.clocktick + vm.pc.owed) / 5000 * 10000000 % 2 ^ 64 ∧
      (vm.pc ≠ .start → vm.timer = 5000 - ((vm.clocktick + vm.pc.owed) % 5000 : Nat)) := by
  have jiffies : vm.jiffies = (vm.clocktick + vm.pc.owed) / 5000 := by
    rcases reachable.onTime with ⟨start, zero, zero'⟩ | onTime
    · rw [start, zero, zero']
      rfl
    · have timer := onTime.timer
      have counts := onTime.jiffies
      omega
  refine ⟨jiffies, by rw [schedClock, jiffies], fun started => ?_⟩
  have onTime := reachable.onTime.resolve_left fun start => started start.1
  have timer := onTime.timer
  have counts := onTime.jiffies
  omega

/-- In the middle of the second jiffy. -/
theorem jiffies_of_run_drowsy : ∃ vm, Reachable drowsy vm ∧ vm.pc = .cycle ∧ vm.clocktick = 7500 ∧
    vm.jiffies = 1 ∧ schedClock vm = 10000000 ∧ vm.timer = 2500 := by
  rcases drowsy_sleepy with ⟨vm, past, history, pc, -, -, clocktick⟩
  have reachable := reachable_of_history history
  rcases jiffies_of_run reachable with ⟨jiffies, clock, timer⟩
  have started := timer (by rw [pc]; exact Pc.noConfusion)
  rw [clocktick, pc] at jiffies clock started
  exact ⟨vm, reachable, pc, clocktick, jiffies, clock, started⟩

/-! ## Sleep -/

theorem Beats.expected (beats : Beats vm next) (expected : Expected vm) (armed : vm.intTimer ≠ 0) :
    Expected next := by
  have same : next.intTimer = vm.intTimer → next.intwaitlist = vm.intwaitlist → Expected next :=
    fun timer asleep => ⟨timer ▸ expected.bound, fun some => timer ▸ expected.armed (asleep ▸ some)⟩
  cases beats with
  | starts pc pc' clocks asleep => exact same (clocks_eq clocks).2.2.2 asleep
  | kills pc pc' clocks asleep => exact same (clocks_eq clocks).2.2.2 asleep
  | cycles pc pc' set clocks asleep =>
      rcases clocks_eq clocks with ⟨-, -, -, rfl⟩
      exact ⟨set.bound.trans (max_le expected.bound (le_refl _)), fun _ => set.pos armed⟩
  | ticks pc pc' clocks asleep =>
      split_ifs at clocks
      · exact same (clocks_eq clocks).2.2.2 asleep
      · exact same (clocks_eq clocks).2.2.2 asleep
  | fires pc pc' intTimer clocks asleep =>
      rcases clocks_eq clocks with ⟨-, -, -, timer⟩
      exact ⟨timer ▸ by decide, fun some => absurd asleep some⟩
  | waits pc pc' intTimer clocks asleep =>
      rcases clocks_eq clocks with ⟨-, -, -, timer⟩
      have bound := expected.bound
      constructor
      · rw [timer]
        split_ifs <;> omega
      · intro some
        have running := expected.armed (asleep ▸ some)
        rw [timer, if_pos running]
        omega
  | switches pc clocks asleep => exact same (clocks_eq clocks).2.2.2 asleep

theorem Reachable.expected (reachable : Reachable setup vm) : Expected vm := by
  induction reachable with
  | boot => exact ⟨show (-1 : Int) ≤ 524500 by decide, fun some => absurd rfl some⟩
  | step reachable taken induction =>
      rcases reachable.invariant with ⟨queue, invariant⟩
      exact (step_beats invariant.timer taken).expected induction invariant.timer

/-- Everybody sleeps on and the event comes nearer with the clock, or it is there. -/
inductive Sleeps (vm next : Vm) : Prop
  | on (ticks : Nat) (clocktick : next.clocktick = vm.clocktick + ticks)
      (intTimer : next.intTimer = vm.intTimer - ticks)
      (asleep : vm.intwaitlist <+: next.intwaitlist)
  | wakes (pc : vm.pc = .io) (intTimer : vm.intTimer = 1)
      (clocktick : next.clocktick = vm.clocktick + 1) (asleep : next.intwaitlist = [])

theorem Beats.sleeps (beats : Beats vm next) (running : 0 < vm.intTimer) : Sleeps vm next := by
  have same : next.clocktick = vm.clocktick → next.intTimer = vm.intTimer →
      next.intwaitlist = vm.intwaitlist → Sleeps vm next :=
    fun clocktick timer asleep => .on 0 clocktick (by simpa using timer) (asleep ▸ List.prefix_rfl)
  cases beats with
  | starts pc pc' clocks asleep => exact same (clocks_eq clocks).1 (clocks_eq clocks).2.2.2 asleep
  | kills pc pc' clocks asleep => exact same (clocks_eq clocks).1 (clocks_eq clocks).2.2.2 asleep
  | cycles pc pc' set clocks asleep =>
      rcases clocks_eq clocks with ⟨clocktick, -, -, timer⟩
      have kept := timer.trans (set.kept running.le)
      rcases asleep with asleep | asleep
      · exact same clocktick kept asleep
      · exact .on 0 clocktick (by simpa using kept) (asleep ▸ List.prefix_append _ _)
  | ticks pc pc' clocks asleep =>
      split_ifs at clocks
      · exact same (clocks_eq clocks).1 (clocks_eq clocks).2.2.2 asleep
      · exact same (clocks_eq clocks).1 (clocks_eq clocks).2.2.2 asleep
  | fires pc pc' intTimer clocks asleep => exact .wakes pc intTimer (clocks_eq clocks).1 asleep
  | waits pc pc' intTimer clocks asleep =>
      rw [if_pos running] at clocks
      exact .on 1 (clocks_eq clocks).1 (clocks_eq clocks).2.2.2 (asleep ▸ List.prefix_rfl)
  | switches pc clocks asleep => exact same (clocks_eq clocks).1 (clocks_eq clocks).2.2.2 asleep

theorem Later.reachable (later : Later setup vm vm') (reachable : Reachable setup vm) :
    Reachable setup vm' := by
  induction later with
  | refl => exact reachable
  | tail _ taken induction => exact induction.step taken

theorem Later.sleeps (later : Later setup vm vm') (reachable : Reachable setup vm)
    (asleep : vm.intwaitlist ≠ []) (early : (vm'.clocktick : Int) < vm.clocktick + vm.intTimer) :
    vm.intwaitlist <+: vm'.intwaitlist ∧
      (vm'.clocktick : Int) + vm'.intTimer = vm.clocktick + vm.intTimer := by
  induction later with
  | refl => exact ⟨List.prefix_rfl, rfl⟩
  | @tail middle last before taken induction =>
      have reached := Later.reachable before reachable
      rcases reached.invariant with ⟨queue, invariant⟩
      have beats := step_beats invariant.timer taken
      have earlier : (middle.clocktick : Int) < vm.clocktick + vm.intTimer := by
        have clock := beats.clocktick_le
        omega
      rcases induction earlier with ⟨kept, instant⟩
      have running := reached.expected.armed fun none =>
        asleep (List.prefix_nil.mp (none ▸ kept))
      cases beats.sleeps running with
      | on ticks clocktick intTimer onward =>
          refine ⟨kept.trans onward, ?_⟩
          rw [clocktick, intTimer]
          push_cast
          omega
      | wakes pc intTimer clocktick awake => omega

/-- A task that sleeps is woken in the cycle that its timer tells, at most 524500 cycles later.
Up to then it sleeps, and is not killed; then it is in the run queue and nobody sleeps. -/
theorem sleep_of_run (reachable : Reachable setup vm) {task : Task}
    (asleep : task ∈ vm.intwaitlist) : 0 < vm.intTimer ∧ vm.intTimer ≤ 524500 ∧
    ∀ vm', Later setup vm vm' → (vm'.clocktick : Int) < vm.clocktick + vm.intTimer →
      task ∈ vm'.intwaitlist ∧ task ∈ vm'.live ∧
        ∀ next, step setup vm' = some next →
          (next.clocktick : Int) = vm.clocktick + vm.intTimer → next.intwaitlist = [] ∧
            ∃ behind, printRq setup next = some behind ∧ task ∈ behind := by
  have some := List.ne_nil_of_mem asleep
  refine ⟨reachable.expected.armed some, reachable.expected.bound, ?_⟩
  intro vm' later early
  rcases later.sleeps reachable some early with ⟨kept, instant⟩
  have reached := later.reachable reachable
  have asleep' := kept.subset asleep
  rcases reached.invariant with ⟨queue, invariant⟩
  have alive : task ∈ vm'.live :=
    invariant.population.lists.perm.mem_iff.mpr (List.mem_append_right _ asleep')
  refine ⟨asleep', alive, fun next taken now => ?_⟩
  have running := reached.expected.armed (List.ne_nil_of_mem asleep')
  rcases (reached.step taken).invariant with ⟨queue', invariant'⟩
  have awake : vm'.pc = .io ∧ next.intwaitlist = [] := by
    cases (step_beats invariant.timer taken).sleeps running with
    | on ticks clocktick intTimer onward =>
        -- The timer would be at 0, where no step leaves it.
        have stopped := invariant'.timer
        rw [clocktick] at now
        push_cast at now
        omega
    | wakes pc intTimer clocktick awake => exact ⟨pc, awake⟩
  have alive' : task ∈ next.live := by
    cases step_timed taken with
    | passes places passes => exact passes.live.symm ▸ alive
    | switches schedules handover => exact handover.live.symm ▸ alive
    | spawns pc => exact absurd (awake.1.symm.trans pc) (by decide)
    | dies pc => exact absurd (awake.1.symm.trans pc) (by decide)
  have population := invariant'.population
  have queued : task ∈ queue' := by
    have listed := population.lists.perm.mem_iff.mp alive'
    rwa [awake.2, List.append_nil] at listed
  rcases population.lists.runQueue.ring (List.ne_nil_of_mem queued) with ⟨behind, rfl, -⟩
  have few := population.length_le
  rw [List.length_cons] at few
  refine ⟨awake.2, behind, population.lists.runQueue.printRq (by omega), ?_⟩
  rcases List.mem_cons.mp queued with isInit | behindHead
  · exact absurd (isInit ▸ asleep') invariant.population.lists.awake
  · exact behindHead

/-- The drowsy process sleeps after its first jiffy. -/
theorem sleep_of_run_drowsy : ∃ vm, Reachable drowsy vm ∧ .process 0 ∈ vm.intwaitlist ∧
    0 < vm.intTimer ∧ vm.intTimer ≤ 524500 ∧
    ∀ vm', Later drowsy vm vm' → (vm'.clocktick : Int) < vm.clocktick + vm.intTimer →
      .process 0 ∈ vm'.intwaitlist ∧ .process 0 ∈ vm'.live ∧
        ∀ next, step drowsy vm' = some next →
          (next.clocktick : Int) = vm.clocktick + vm.intTimer → next.intwaitlist = [] ∧
            ∃ behind, printRq drowsy next = some behind ∧ .process 0 ∈ behind := by
  rcases drowsy_asleep with ⟨vm, past, history, -, -, -, -, asleep, -⟩
  have reachable := reachable_of_history history
  have sleeps : .process 0 ∈ vm.intwaitlist := asleep ▸ List.mem_singleton_self _
  exact ⟨vm, reachable, sleeps, sleep_of_run reachable sleeps⟩

end

end CE321.Vsched
