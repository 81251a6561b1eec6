import CE321.Vsched.Accounts
import CE321.Vsched.Quiet

/-! # The timing results

The execution time that `killtask` writes is the time for which the task was really the current
one if no stay of it on the CPU was lost: to a call of `schedule` with one or two tasks in the run
queue, to the width of the burst, or to the end of the task itself.
-/

namespace CE321.Vsched

section

variable {setup : Setup} {vm next : Vm} {past : List Vm} {task : Task}

theorem absent_step (absent : task ∉ vm.live) (other : vm.current ≠ task) :
    onCpu task (next :: vm :: past) = onCpu task (vm :: past) ∧
      lifetime task (next :: vm :: past) = lifetime task (vm :: past) ∧
      ((∀ earlier ∈ vm :: past, ¬LosesTime setup task earlier) ↔
        ∀ earlier ∈ past, ¬LosesTime setup task earlier) := by
  refine ⟨onCpu_other other, lifetime_other absent, ?_⟩
  rw [forall_past]
  exact and_iff_right (innocent_of_other other)

theorem unborn_step (absent : task ∉ vm.live) (unkilled : task ∉ vm.killed)
    (neverRan : onCpu task (vm :: past) = 0) (neverLived : lifetime task (vm :: past) = 0)
    (innocent : ∀ earlier ∈ past, ¬LosesTime setup task earlier) (unwritten : linesOf task vm = [])
    (timed : Timed setup vm next) (other : vm.current ≠ task) :
    Stage setup next (vm :: past) task := by
  rcases @absent_step setup vm next past task absent other with ⟨ran, lived, still⟩
  have stays : task ∉ next.live → task ∉ next.killed → linesOf task next = [] →
      Stage setup next (vm :: past) task := fun absent' unkilled' unwritten' =>
    .unborn absent' unkilled' (ran.trans neverRan) (lived.trans neverLived) (still.mpr innocent)
      unwritten'
  cases timed with
  | passes places passes =>
      apply stays
      · exact passes.live.symm ▸ absent
      · exact passes.killed.symm ▸ unkilled
      · rw [linesOf, passes.results]
        exact unwritten
  | switches schedules handover =>
      apply stays
      · exact handover.live.symm ▸ absent
      · exact handover.killed.symm ▸ unkilled
      · rw [linesOf, handover.results]
        exact unwritten
  | @spawns pc lives born spawned =>
      have unwritten' : linesOf task next = [] := by
        rw [linesOf, spawned.results]
        exact unwritten
      by_cases isBorn : task ∈ born
      · refine .lives ?_ (balance_newborn spawned isBorn other neverRan neverLived innocent)
          unwritten'
        rw [spawned.live]
        exact List.mem_append_left _ isBorn
      · apply stays
        · rw [spawned.live, List.mem_append]
          exact fun alive => alive.elim isBorn absent
        · exact spawned.killed.symm ▸ unkilled
        · exact unwritten'
  | dies pc goes died =>
      apply stays
      · rw [died.live]
        exact fun alive => absent (List.mem_of_mem_erase alive)
      · rw [died.killed]
        exact fun dead => (List.mem_cons.mp dead).elim (fun same => other same.symm) unkilled
      · have away : (timingResult vm).1 ≠ task := other
        simp only [linesOf, died.results, List.filter_append] at unwritten ⊢
        rw [unwritten, List.nil_append]
        split_ifs
        · rfl
        · simp [away]

/-- The account of a process that is alive is kept, until the process is killed. -/
theorem lives_step {credited lost stay : Nat} (reachable : Reachable setup vm)
    (taken : step setup vm = some next) (alive : task ∈ vm.live)
    (balance : Balance setup vm past task credited lost stay) (unwritten : linesOf task vm = [])
    (notInit : task ≠ .init) (notIdle : task ≠ .idle) : Stage setup next (vm :: past) task := by
  rcases reachable.invariant with ⟨queue, invariant⟩
  cases step_timed taken with
  | passes places passes =>
      have innocent : ¬LosesTime setup task vm := by
        rintro ⟨-, -, ⟨pc | pc | pc, -⟩ | ⟨pc, -⟩⟩
        all_goals simp [pc] at places
      rcases balance.passes alive passes innocent with ⟨stay', balance'⟩
      refine .lives (passes.live.symm ▸ alive) balance' ?_
      rw [linesOf, passes.results]
      exact unwritten
  | switches schedules handover =>
      have notHead : task ≠ vm.head := by
        rw [invariant.population.lists.runQueue.head]
        exact notInit
      rcases balance.switches handover schedules notHead with ⟨_, _, _, balance'⟩
      refine .lives (handover.live.symm ▸ alive) balance' ?_
      rw [linesOf, handover.results]
      exact unwritten
  | @spawns pc lives born spawned =>
      rcases (reachable.step taken).invariant with ⟨queue', invariant'⟩
      have nodup := invariant'.population.lineage.family.nodup
      rw [spawned.live] at nodup
      have older : task ∉ born := fun isBorn =>
        (List.nodup_append.mp nodup).2.2 task isBorn task alive rfl
      refine .lives ?_ (balance.spawns spawned older lives pc) ?_
      · rw [spawned.live]
        exact List.mem_append_right _ alive
      · rw [linesOf, spawned.results]
        exact unwritten
  | dies pc goes died =>
      by_cases current : vm.current = task
      · exact balance.dies died current notInit pc goes unwritten
      · refine .lives ?_ (balance.survives died current notIdle) ?_
        · rw [died.live]
          exact (List.mem_erase_of_ne fun same => current same.symm).mpr alive
        · have away : (timingResult vm).1 ≠ task := current
          simp only [linesOf, died.results, List.filter_append] at unwritten ⊢
          rw [unwritten, List.nil_append]
          split_ifs
          · rfl
          · simp [away]

/-- Nothing is written for a process that is dead, and no time is counted for it. -/
theorem settled_step (dead : task ∈ vm.killed) (absent : task ∉ vm.live)
    (other : vm.current ≠ task) (timed : Timed setup vm next)
    (written : linesOf task vm = [trueTimes task (vm :: past)] ↔
      lifetime task (vm :: past) < 2 ^ 64 ∧ ∀ earlier ∈ past, ¬LosesTime setup task earlier) :
    Stage setup next (vm :: past) task := by
  rcases @absent_step setup vm next past task absent other with ⟨ran, lived, still⟩
  have times : trueTimes task (next :: vm :: past) = trueTimes task (vm :: past) := by
    simp only [trueTimes, ran, lived]
  have settles : task ∈ next.killed → linesOf task next = linesOf task vm →
      Stage setup next (vm :: past) task := by
    intro dead' lines
    apply Stage.settled dead'
    rw [lines, times, lived, still]
    exact written
  cases timed with
  | passes places passes =>
      apply settles (passes.killed.symm ▸ dead)
      rw [linesOf, passes.results, linesOf]
  | switches schedules handover =>
      apply settles (handover.killed.symm ▸ dead)
      rw [linesOf, handover.results, linesOf]
  | spawns pc lives spawned =>
      apply settles (spawned.killed.symm ▸ dead)
      rw [linesOf, spawned.results, linesOf]
  | dies pc goes died =>
      apply settles
      · rw [died.killed]
        exact List.mem_cons_of_mem _ dead
      · have away : (timingResult vm).1 ≠ task := other
        simp only [linesOf, died.results, List.filter_append]
        split_ifs
        · exact List.append_nil _
        · simp [away]

theorem stage_of_history (history : History (boot setup) (step setup) (vm :: past))
    (notInit : task ≠ .init) (notIdle : task ≠ .idle) : Stage setup vm past task := by
  refine history.keeps (fun vm past => Stage setup vm past task) ?_ ?_
  · refine .unborn ?_ List.not_mem_nil ?_ ?_ (fun _ none => absurd none List.not_mem_nil) rfl
    · exact fun isInit => notInit (List.mem_singleton.mp isInit)
    · simp only [onCpu, elapsed, Nat.zero_mul]
    · simp only [lifetime, elapsed, Nat.zero_mul]
  · intro vm next past history stage taken
    have reachable := reachable_of_history history
    rcases reachable.invariant with ⟨queue, invariant⟩
    have other : task ∉ vm.live → vm.current ≠ task := by
      rintro absent rfl
      exact reachable.attended.elim notIdle absent
    cases stage with
    | unborn absent unkilled neverRan neverLived innocent unwritten =>
        exact unborn_step absent unkilled neverRan neverLived innocent unwritten
          (step_timed taken) (other absent)
    | lives alive balance unwritten =>
        exact lives_step reachable taken alive balance unwritten notInit notIdle
    | settled dead written =>
        have absent : task ∉ vm.live := fun alive =>
          invariant.population.lineage.apart task alive dead
        exact settled_step dead absent (other absent) (step_timed taken) written

/-- A killed process gets a line with the times that it really had exactly if the clock can
count its life and no step lost time of it. -/
theorem timingResults_iff (history : History (boot setup) (step setup) (vm :: past))
    (killed : task ∈ vm.killed) (notInit : task ≠ .init) :
    linesOf task vm = [trueTimes task (vm :: past)] ↔
      lifetime task (vm :: past) < 2 ^ 64 ∧ ∀ earlier ∈ past, ¬LosesTime setup task earlier := by
  have reachable := reachable_of_history history
  have notIdle : task ≠ .idle := fun isIdle => reachable.idle_unkilled (isIdle ▸ killed)
  rcases reachable.invariant with ⟨queue, invariant⟩
  cases stage_of_history history notInit notIdle with
  | unborn absent unkilled => exact absurd killed unkilled
  | lives alive => exact absurd killed (invariant.population.lineage.apart task alive)
  | settled dead written => exact written

theorem Lingers.onCpu {run run' : List Vm} (lingers : Lingers run run') :
    Vsched.onCpu task run' = Vsched.onCpu task run := by
  induction lingers with
  | refl => rfl
  | step _ _ still induction => rw [onCpu_still still, induction]

end

/-! ## A process that is alone -/

/-- One noninteractive process that lives from 0 to 10 ms, in the scheduler `sjf`. -/
def tenMs : Setup where
  profile :=
    { processes := [⟨0, 10, -1, .noninteractive, false, none⟩]
      endtime := 100
      parentsFirst := by
        intro index parent process found isParent
        cases index with
        | zero =>
            cases found
            cases isParent
        | succ index => simp at found
      typed := by
        intro process member
        rw [List.mem_singleton.mp member]
        exact fun same => ThreadType.noConfusion same }
  scheduler := .sjf
  ticksToMs := fun ticks => (ticks / 500 : Nat)
  rand := fun _ => 0
  malloced := fun _ => ⟨0, false, none, none, 0, 0, 0, 0, 0, 0, 0⟩

/-- The process when it has the CPU since the first iteration. -/
def HasCpu (vm : Vm) : Prop :=
  vm.pc = .cycle ∧ vm.current = .process 0 ∧ vm.clocktick = 1 ∧ vm.timer = 4999 ∧
    vm.intTimer = 24999 ∧ vm.jiffies = 0 ∧ vm.nrRunning = 2 ∧ vm.head = .init ∧ vm.results = [] ∧
    (vm.info .init).kill = false ∧ (vm.info .init).list = [] ∧
    (vm.info (.process 0)).children = 0 ∧ (vm.info (.process 0)).kill = false ∧
    (vm.info (.process 0)).workDuration = -1 ∧ (vm.info (.process 0)).list = [] ∧
    (vm.task (.process 0)).timeSlice = 50 ∧ (vm.task (.process 0)).needReschedule = false ∧
    (vm.task (.process 0)).next = some .init ∧ (vm.task (.process 0)).times = (0, 0, 0, 0, 0)

instance (vm : Vm) : Decidable (HasCpu vm) := inferInstanceAs (Decidable (_ ∧ _))

theorem tenMs_first : ∃ vm past, History (boot tenMs) (step tenMs) (vm :: past) ∧ HasCpu vm := by
  have run : (after (step tenMs) 6 (boot tenMs)).any (fun vm => HasCpu vm) = true := by
    decide +kernel
  rcases (Option.any_eq_true _ _).mp run with ⟨vm, taken, viewed⟩
  rcases History.start.after 6 taken with ⟨past, history⟩
  exact ⟨vm, past, history, of_decide_eq_true viewed⟩

theorem tenMs_goesOn {vm : Vm} (hasCpu : HasCpu vm) (ticks : Nat) (early : ticks < 4999) :
    GoesOn tenMs (waitedFor tenMs vm ticks) := by
  rcases hasCpu with ⟨pc, current, clocktick, timer, intTimer, jiffies, nrRunning, head, results,
    initKill, initList, children, kill, endless, list, slice, flag, linked, times⟩
  have kind : tenMs.profile.threadType (.process 0) = .noninteractive := rfl
  have notYet : ¬(10 : Int) ≤ (1 + (ticks : Int)) / 500 := by omega
  refine ⟨?_, ?_, ?_, ?_, ?_, ?_, ?_⟩
  · simpa [isEnding, waitedFor, current, kill, endless, clocktick, Profile.parent, Profile.killTime,
      Profile.process, tenMs, initKill] using notYet
  · simp [waitedFor, current, kind]
  · simpa [waitedFor, current] using endless
  · simpa [waitedFor, current] using list
  · simp [waitedFor, initList]
  · simp only [waitedFor, intTimer]
    omega
  · simp [waitedFor, current, kind]

/-- The process runs for a jiffy before its last cycle. -/
theorem tenMs_lastCycle : ∃ vm past, History (boot tenMs) (step tenMs) (vm :: past) ∧
    vm.pc = .cycle ∧ vm.current = .process 0 ∧ vm.jiffies = 1 ∧ vm.results = [] ∧
    (vm.task (.process 0)).times = (0, 0, 0, 0, 0) ∧ goesDown tenMs vm = true ∧
    onCpu (.process 0) (vm :: past) = 10000000 := by
  rcases tenMs_first with ⟨vm, past, history, hasCpu⟩
  have goesOn := tenMs_goesOn hasCpu
  have ran : onCpu (.process 0) (vm :: past) = 0 := by
    have bound := @elapsed_le Vm (boot tenMs) vm (step tenMs) past Vm.jiffies
      (fun vm => vm.current = .process 0) _ history jiffies_le
    rw [hasCpu.2.2.2.2.2.1] at bound
    rw [onCpu, Nat.le_zero.mp bound]
  rcases hasCpu with ⟨pc, current, clocktick, timer, intTimer, jiffies, nrRunning, head, results,
    initKill, initList, children, kill, endless, list, slice, flag, linked, times⟩
  have early : ∀ ticks < 5000, tenMs.ticksToMs (vm.clocktick + ticks) < tenMs.profile.endtime := by
    intro ticks lower
    show (((vm.clocktick + ticks) / 500 : Nat) : Int) < 100
    omega
  rcases wait 4998 (fun before lower => goesOn before (by omega)) pc (by omega) (by omega)
    (current ▸ flag) (by omega) (fun before lower => early (before + 1) (by omega)) history with
    ⟨past', lingers, history'⟩
  -- The jiffy in which the process runs, up to its last cycle.
  rcases (goesOn 4998 (by omega)).jiffy pc (by simp [waitedFor, timer])
    (by simp [waitedFor, intTimer]) (by simp [waitedFor, current, linked])
    (by simp [waitedFor, current, head]) (by simp [waitedFor, current, slice])
    (by simp [waitedFor, current, slice]) (by simp [waitedFor, current, flag])
    (by simp [waitedFor, nrRunning]) (early 4999 (by omega)) history' with
    ⟨before, ticked, past₁, past₂, lingers₁, lingers₂, same, still, -, later, history''⟩
  have ran' : onCpu (.process 0) (jiffyOver tenMs (waitedFor tenMs vm 4998) :: past₂) =
      10000000 := by
    rw [lingers₂.onCpu, onCpu_current (same.trans current), lingers₁.onCpu, lingers.onCpu, ran,
      later, still]
    simp
  refine ⟨_, _, history'', pc, current, congrArg (· + 1) jiffies, results, ?_, ?_, ran'⟩
  · simpa [jiffyOver, waitedFor, Vm.setTask, current, TaskStruct.times] using times
  · simp [goesDown, isEnding, jiffyOver, waitedFor, current, children, clocktick,
      Profile.killTime, Profile.process, tenMs]

/-- The process is killed after its first jiffy, and that jiffy is lost. -/
theorem tenMs_killed : ∃ vm past, History (boot tenMs) (step tenMs) (vm :: past) ∧
    .process 0 ∈ vm.killed ∧ linesOf (.process 0) vm = [(.process 0, 0, 10, 10)] ∧
    onCpu (.process 0) (vm :: past) = 10000000 := by
  rcases tenMs_lastCycle with ⟨vm, past, history, pc, current, jiffies, results, times, goes, ran⟩
  rcases (reachable_of_history history).invariant with ⟨queue, invariant⟩
  have member : vm.current ∈ queue := by
    simpa [Placed, pc] using invariant.place
  rcases invariant.population.cycle member with ⟨cycled, done, -⟩
  have taken : step tenMs vm = some { cycled with pc := .tick } := by
    simp only [step, pc, done, Option.bind_eq_bind, Option.bind_some]
    rfl
  have died : Died vm { cycled with pc := .tick } := by
    cases step_timed taken with
    | passes places => simp [pc] at places
    | switches schedules => exact absurd schedules (not_schedules_cycle pc)
    | spawns _ lives =>
        rw [goes] at lives
        cases lives
    | dies _ _ died => exact died
  refine ⟨_, _, history.step taken, ?_, ?_, ?_⟩
  · rw [died.killed, current]
    exact List.mem_cons_self
  · have notInit : vm.current ≠ .init := by
      rw [current]
      exact fun same => Task.noConfusion same
    simp only [TaskStruct.times, Prod.mk.injEq] at times
    have written : timingResult vm = (.process 0, 0, 10, 10) := by
      simp [timingResult, current, times, schedClock, jiffies, sub64]
    rw [linesOf, died.results, results, if_neg notInit, written]
    rfl
  · rw [onCpu_still died.jiffies, ran]

/-- The process was current for 10 ms, and the execution time that is written is 0. -/
theorem executionTime_lost : ∃ vm past, History (boot tenMs) (step tenMs) (vm :: past) ∧
    .process 0 ∈ vm.killed ∧ linesOf (.process 0) vm ≠ [trueTimes (.process 0) (vm :: past)] := by
  rcases tenMs_killed with ⟨vm, past, history, killed, lines, ran⟩
  refine ⟨vm, past, history, killed, ?_⟩
  rw [lines]
  intro same
  have execution := congrArg (fun line => line.2.1) (List.singleton_inj.mp same)
  simp [trueTimes, ran] at execution

/-- The life of a process to which the theorem applies. -/
theorem timingResults_iff_tenMs : ∃ vm past, History (boot tenMs) (step tenMs) (vm :: past) ∧
    .process 0 ∈ vm.killed ∧ Task.process 0 ≠ .init ∧
    (linesOf (.process 0) vm = [trueTimes (.process 0) (vm :: past)] ↔
      lifetime (.process 0) (vm :: past) < 2 ^ 64 ∧
        ∀ earlier ∈ past, ¬LosesTime tenMs (.process 0) earlier) := by
  rcases tenMs_killed with ⟨vm, past, history, killed, -, -⟩
  have notInit : Task.process 0 ≠ .init := fun same => Task.noConfusion same
  exact ⟨vm, past, history, killed, notInit, timingResults_iff history killed notInit⟩

end CE321.Vsched
