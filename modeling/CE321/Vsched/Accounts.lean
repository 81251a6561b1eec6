import CE321.Vsched.Lifetime
import CE321.Vsched.Times

/-! # The accounts of the tasks

The execution time of a task against the time for which it was really the current one. What
`schedule` and `killtask` forget of a stay on the CPU is kept as lost time.
-/

namespace CE321.Vsched

/-- The time for which a task was the current one in a run. -/
def onCpu (task : Task) (run : List Vm) : Nat :=
  elapsed Vm.jiffies (fun vm => vm.current = task) run * 10000000

/-- The time for which a task was alive in a run. -/
def lifetime (task : Task) (run : List Vm) : Nat :=
  elapsed Vm.jiffies (fun vm => task ∈ vm.live) run * 10000000

/-- The line of the timing results that a task should get: the times of a run in milliseconds. -/
def trueTimes (task : Task) (run : List Vm) : Task × Nat × Nat × Nat :=
  (task, onCpu task run / 1000000, lifetime task run / 1000000,
    (lifetime task run - onCpu task run) / 1000000)

/-- The lines of the timing results that a task got. -/
def linesOf (task : Task) (vm : Vm) : List (Task × Nat × Nat × Nat) :=
  vm.results.filter fun line => line.1 = task

/-- The current task leaves the CPU, or the machine starts to count its stay anew, although
some time or more time than a burst can hold has not been added to its execution time. -/
def LosesTime (setup : Setup) (task : Task) (vm : Vm) : Prop :=
  vm.current = task ∧ stayed vm ≠ 0 ∧
    (Schedules vm ∧ (vm.nrRunning = 1 ∨ vm.nrRunning = 2 ∨ 2 ^ 32 ≤ stayed vm) ∨
      vm.pc = .cycle ∧ goesDown setup vm = true)

/-- The account of a task that is alive: what was added to its execution time, what was lost,
and the stay that goes on. -/
structure Balance (setup : Setup) (vm : Vm) (past : List Vm) (task : Task)
    (credited lost stay : Nat) : Prop where
  xe : (vm.task task).xe = credited % 2 ^ 64
  xd : schedClock vm = ((vm.task task).xd + lifetime task (vm :: past)) % 2 ^ 64
  total : credited + lost + stay = onCpu task (vm :: past)
  within : onCpu task (vm :: past) ≤ lifetime task (vm :: past)
  owned : vm.current = task → schedClock vm = ((vm.task task).cpuOwned + stay) % 2 ^ 64
  away : vm.current ≠ task → stay = 0
  kept : lifetime task (vm :: past) < 2 ^ 64 →
    (∀ earlier ∈ past, ¬LosesTime setup task earlier) → lost = 0
  doomed : lifetime task (vm :: past) < 2 ^ 64 →
    (∃ earlier ∈ past, LosesTime setup task earlier) → 0 < lost ∨ 2 ^ 32 ≤ stay

/-- What is known of a process before its fork, in its life and after its death. -/
inductive Stage (setup : Setup) (vm : Vm) (past : List Vm) (task : Task) : Prop
  | unborn (absent : task ∉ vm.live) (unkilled : task ∉ vm.killed)
      (neverRan : onCpu task (vm :: past) = 0) (neverLived : lifetime task (vm :: past) = 0)
      (innocent : ∀ earlier ∈ past, ¬LosesTime setup task earlier) (unwritten : linesOf task vm = [])
  | lives (alive : task ∈ vm.live) {credited lost stay : Nat}
      (balance : Balance setup vm past task credited lost stay) (unwritten : linesOf task vm = [])
  | settled (dead : task ∈ vm.killed)
      (written : linesOf task vm = [trueTimes task (vm :: past)] ↔
        lifetime task (vm :: past) < 2 ^ 64 ∧ ∀ earlier ∈ past, ¬LosesTime setup task earlier)

section

variable {setup : Setup} {vm next : Vm} {past : List Vm} {task : Task} {credited lost stay : Nat}

/-! ## Time -/

theorem jiffies_le (taken : step setup vm = some next) : vm.jiffies ≤ next.jiffies := by
  cases step_timed taken with
  | passes _ passes => exact passes.jiffies
  | switches _ handover => exact handover.jiffies.ge
  | spawns _ _ spawned => exact spawned.jiffies.ge
  | dies _ _ died => exact died.jiffies.ge

theorem sub64_clock {start now : Nat} (early : start ≤ now) :
    sub64 (now * 10000000 % 2 ^ 64) (start * 10000000 % 2 ^ 64) =
      (now - start) * 10000000 % 2 ^ 64 := by
  simp only [sub64]
  omega

theorem sub64_add (owned stay : Nat) : sub64 ((owned + stay) % 2 ^ 64) owned = stay % 2 ^ 64 := by
  simp only [sub64]
  omega

theorem onCpu_current (current : vm.current = task) : onCpu task (next :: vm :: past) =
    (next.jiffies - vm.jiffies) * 10000000 + onCpu task (vm :: past) := by
  simp only [onCpu]
  rw [elapsed_of Vm.jiffies (fun vm => vm.current = task) current, Nat.add_mul]

theorem onCpu_other (other : vm.current ≠ task) :
    onCpu task (next :: vm :: past) = onCpu task (vm :: past) := by
  rw [onCpu, elapsed_of_not Vm.jiffies (fun vm => vm.current = task) other, onCpu]

theorem lifetime_live (alive : task ∈ vm.live) : lifetime task (next :: vm :: past) =
    (next.jiffies - vm.jiffies) * 10000000 + lifetime task (vm :: past) := by
  simp only [lifetime]
  rw [elapsed_of Vm.jiffies (fun vm => task ∈ vm.live) alive, Nat.add_mul]

theorem lifetime_other (other : task ∉ vm.live) :
    lifetime task (next :: vm :: past) = lifetime task (vm :: past) := by
  rw [lifetime, elapsed_of_not Vm.jiffies (fun vm => task ∈ vm.live) other, lifetime]

theorem onCpu_still (still : next.jiffies = vm.jiffies) :
    onCpu task (next :: vm :: past) = onCpu task (vm :: past) := by
  rw [onCpu, elapsed_still still, onCpu]

theorem lifetime_still (still : next.jiffies = vm.jiffies) :
    lifetime task (next :: vm :: past) = lifetime task (vm :: past) := by
  rw [lifetime, elapsed_still still, lifetime]

theorem schedClock_later (later : vm.jiffies ≤ next.jiffies) : schedClock next =
    (schedClock vm + (next.jiffies - vm.jiffies) * 10000000) % 2 ^ 64 := by
  simp only [schedClock]
  omega

/-! ## The stay of a task -/

theorem Balance.stayed (balance : Balance setup vm past task credited lost stay)
    (current : vm.current = task) : Vsched.stayed vm = stay % 2 ^ 64 := by
  rw [Vsched.stayed, current, balance.owned current, sub64_add]

/-- In a life that the clock can count every stay is what the machine takes it for. -/
theorem Balance.stayed_exact (balance : Balance setup vm past task credited lost stay)
    (current : vm.current = task) (short : lifetime task (vm :: past) < 2 ^ 64) :
    Vsched.stayed vm = stay := by
  have total := balance.total
  have within := balance.within
  rw [balance.stayed current]
  exact Nat.mod_eq_of_lt (by omega)

theorem forall_past {holds : Vm → Prop} :
    (∀ earlier ∈ vm :: past, ¬holds earlier) ↔ ¬holds vm ∧ ∀ earlier ∈ past, ¬holds earlier := by
  simp

theorem exists_past {holds : Vm → Prop} :
    (∃ earlier ∈ vm :: past, holds earlier) ↔ holds vm ∨ ∃ earlier ∈ past, holds earlier := by
  simp

/-! ## Steps of a task that is alive -/

theorem Balance.passes (balance : Balance setup vm past task credited lost stay)
    (alive : task ∈ vm.live) (passes : Passes vm next) (innocent : ¬LosesTime setup task vm) :
    ∃ stay', Balance setup next (vm :: past) task credited lost stay' := by
  rcases times_eq (passes.times task) with ⟨xe, xd, cpuOwned, -⟩
  have later := schedClock_later passes.jiffies
  have life := @lifetime_live vm next past task alive
  have total := balance.total
  have within := balance.within
  have birth := balance.xd
  by_cases current : vm.current = task
  · have owned := balance.owned current
    have ran := @onCpu_current vm next past task current
    generalize (next.jiffies - vm.jiffies) * 10000000 = spent at later life ran
    refine ⟨stay + spent, ⟨xe.trans balance.xe, ?_, ?_, ?_, ?_, ?_, ?_, ?_⟩⟩
    · omega
    · omega
    · omega
    · intro _
      omega
    · intro other
      exact absurd (passes.current.trans current) other
    · intro short nothing
      exact balance.kept (by omega) (forall_past.mp nothing).2
    · intro short something
      have lost := balance.doomed (by omega) ((exists_past.mp something).resolve_left innocent)
      omega
  · have ran := @onCpu_other vm next past task current
    generalize (next.jiffies - vm.jiffies) * 10000000 = spent at later life
    refine ⟨stay, ⟨xe.trans balance.xe, ?_, ?_, ?_, ?_, fun _ => balance.away current, ?_, ?_⟩⟩
    · omega
    · omega
    · omega
    · intro current'
      exact absurd (passes.current.symm.trans current') current
    · intro short nothing
      exact balance.kept (by omega) (forall_past.mp nothing).2
    · intro short something
      exact balance.doomed (by omega) ((exists_past.mp something).resolve_left innocent)

theorem Balance.still (balance : Balance setup vm past task credited lost stay)
    (jiffies : next.jiffies = vm.jiffies)
    (times : (next.task task).times = (vm.task task).times)
    (current : next.current = task ↔ vm.current = task)
    (long : lifetime task (vm :: past) < 2 ^ 64 → LosesTime setup task vm → 2 ^ 32 ≤ stay) :
    Balance setup next (vm :: past) task credited lost stay := by
  rcases times_eq times with ⟨xe, xd, cpuOwned, -⟩
  have clock := schedClock_congr jiffies
  have ran := @onCpu_still vm next past task jiffies
  have life := @lifetime_still vm next past task jiffies
  refine ⟨xe.trans balance.xe, ?_, ran.symm ▸ balance.total, ?_, ?_, ?_, ?_, ?_⟩
  · rw [clock, xd, life]
    exact balance.xd
  · rw [ran, life]
    exact balance.within
  · intro isCurrent
    rw [clock, cpuOwned]
    exact balance.owned (current.mp isCurrent)
  · exact fun other => balance.away fun isCurrent => other (current.mpr isCurrent)
  · intro short nothing
    exact balance.kept (life ▸ short) (forall_past.mp nothing).2
  · intro short something
    rw [life] at short
    rcases exists_past.mp something with loses | before
    · exact .inr (long short loses)
    · exact balance.doomed short before

/-- The task gets the CPU or loses it, and the stay that was is over. -/
theorem Balance.restart {credited' lost' : Nat}
    (balance : Balance setup vm past task credited lost stay)
    (handover : Handover vm next) (xe : (next.task task).xe = credited' % 2 ^ 64)
    (total : credited' + lost' = credited + lost + stay)
    (owned : next.current = task → (next.task task).cpuOwned = schedClock vm)
    (kept : lifetime task (vm :: past) < 2 ^ 64 → lost = 0 → ¬LosesTime setup task vm → lost' = 0)
    (doomed : lifetime task (vm :: past) < 2 ^ 64 →
      LosesTime setup task vm ∨ 0 < lost ∨ 2 ^ 32 ≤ stay → 0 < lost') :
    Balance setup next (vm :: past) task credited' lost' 0 := by
  have clock := schedClock_congr handover.jiffies
  have ran := @onCpu_still vm next past task handover.jiffies
  have life := @lifetime_still vm next past task handover.jiffies
  refine ⟨xe, ?_, ?_, ?_, ?_, fun _ => rfl, ?_, ?_⟩
  · rw [clock, handover.xd, life]
    exact balance.xd
  · rw [ran, ← balance.total]
    exact total
  · rw [ran, life]
    exact balance.within
  · intro isCurrent
    have reads : schedClock vm < 2 ^ 64 := Nat.mod_lt _ (by decide)
    rw [clock, owned isCurrent, Nat.add_zero, Nat.mod_eq_of_lt reads]
  · intro short nothing
    rcases forall_past.mp nothing with ⟨innocent, before⟩
    rw [life] at short
    exact kept short (balance.kept short before) innocent
  · intro short something
    rw [life] at short
    refine .inl (doomed short ?_)
    rcases exists_past.mp something with loses | before
    · exact .inl loses
    · exact .inr (balance.doomed short before)

theorem innocent_of_other (other : vm.current ≠ task) : ¬LosesTime setup task vm := fun loses =>
  other loses.1

theorem not_schedules_cycle (pc : vm.pc = .cycle) : ¬Schedules vm := by
  simp [Schedules, pc]

theorem Balance.again (balance : Balance setup vm past task credited lost stay)
    (handover : Handover vm next) (schedules : Schedules vm)
    (current : next.current = vm.current)
    (times : (next.task task).times = (vm.task task).times)
    (many : vm.nrRunning ≠ 1 ∧ vm.nrRunning ≠ 2) :
    Balance setup next (vm :: past) task credited lost stay := by
  apply balance.still handover.jiffies times
  · rw [current]
  · rintro short ⟨isCurrent, -, ⟨-, one | two | long⟩ | ⟨pc, -⟩⟩
    · exact absurd one many.1
    · exact absurd two many.2
    · exact balance.stayed_exact isCurrent short ▸ long
    · exact absurd schedules (not_schedules_cycle pc)

/-- With one or two tasks in the run queue a stay is lost. -/
theorem Balance.forget (balance : Balance setup vm past task credited lost stay)
    (handover : Handover vm next) (schedules : Schedules vm)
    (few : vm.nrRunning = 1 ∨ vm.nrRunning = 2) (xe : (next.task task).xe = (vm.task task).xe)
    (owned : next.current = task → (next.task task).cpuOwned = schedClock vm) :
    Balance setup next (vm :: past) task credited (lost + stay) 0 := by
  apply balance.restart handover (xe.trans balance.xe) (by omega) owned
  · intro short nothing innocent
    by_cases current : vm.current = task
    · have exact := balance.stayed_exact current short
      have stood : Vsched.stayed vm = 0 := by
        by_contra moved
        exact innocent ⟨current, moved, .inl ⟨schedules, few.imp_right .inl⟩⟩
      omega
    · have away := balance.away current
      omega
  · rintro short (⟨current, moved, -⟩ | before)
    · have exact := balance.stayed_exact current short
      omega
    · omega

/-- With three tasks and more a stay is added to the execution time as far as it fits. -/
theorem Balance.credit (balance : Balance setup vm past task credited lost stay)
    (handover : Handover vm next) (schedules : Schedules vm)
    (many : vm.nrRunning ≠ 1 ∧ vm.nrRunning ≠ 2) (current : vm.current = task)
    (xe : (next.task task).xe =
      ((vm.task task).xe + Vsched.stayed vm % 2 ^ 32) % 2 ^ 64)
    (leaves : next.current ≠ task) :
    Balance setup next (vm :: past) task (credited + stay % 2 ^ 32)
      (lost + (stay - stay % 2 ^ 32)) 0 := by
  have counted := balance.stayed current
  apply balance.restart handover
  · rw [xe, balance.xe, counted]
    omega
  · omega
  · exact fun isCurrent => absurd isCurrent leaves
  · intro short nothing innocent
    have exact := balance.stayed_exact current short
    have fits : Vsched.stayed vm < 2 ^ 32 := by
      by_contra long
      have moved : Vsched.stayed vm ≠ 0 := by omega
      exact innocent ⟨current, moved, .inl ⟨schedules, .inr (.inr (not_lt.mp long))⟩⟩
    omega
  · rintro short (⟨-, -, ⟨-, one | two | long⟩ | ⟨pc, -⟩⟩ | before)
    · exact absurd one many.1
    · exact absurd two many.2
    · have exact := balance.stayed_exact current short
      omega
    · exact absurd schedules (not_schedules_cycle pc)
    · omega

theorem Balance.switches (balance : Balance setup vm past task credited lost stay)
    (handover : Handover vm next) (schedules : Schedules vm) (notHead : task ≠ vm.head) :
    ∃ credited' lost' stay', Balance setup next (vm :: past) task credited' lost' stay' := by
  cases handover.switch with
  | keeps current times many =>
      exact ⟨_, _, _, balance.again handover schedules current (times task) many⟩
  | forgets few xe owned =>
      refine ⟨_, _, _, balance.forget handover schedules few (xe task) fun isCurrent => ?_⟩
      rcases owned with isHead | owned
      · exact absurd (isCurrent.symm.trans isHead) notHead
      · exact isCurrent ▸ owned
  | credits leaves xe owned many =>
      have credited := xe task
      by_cases current : vm.current = task
      · rw [if_pos current.symm] at credited
        exact ⟨_, _, _, balance.credit handover schedules many current credited
          fun isCurrent => leaves (isCurrent.trans current.symm)⟩
      · rw [if_neg fun same => current same.symm] at credited
        have away := balance.away current
        refine ⟨_, _, _, balance.restart handover (credited.trans balance.xe) (by omega)
          (fun isCurrent => isCurrent ▸ owned) (fun _ nothing _ => nothing) ?_⟩
        rintro - (loses | before)
        · exact absurd loses (innocent_of_other current)
        · omega

theorem Balance.spawns (balance : Balance setup vm past task credited lost stay) {born : List Task}
    (spawned : Spawned vm next born) (older : task ∉ born) (lives : goesDown setup vm = false)
    (pc : vm.pc = .cycle) : Balance setup next (vm :: past) task credited lost stay := by
  apply balance.still spawned.jiffies (spawned.older task older)
  · rw [spawned.current]
  · rintro - ⟨-, -, ⟨schedules, -⟩ | ⟨-, goes⟩⟩
    · exact absurd schedules (not_schedules_cycle pc)
    · rw [lives] at goes
      cases goes

theorem Balance.survives (balance : Balance setup vm past task credited lost stay)
    (died : Died vm next) (other : vm.current ≠ task) (notIdle : task ≠ .idle) :
    Balance setup next (vm :: past) task credited lost stay := by
  apply balance.still died.jiffies (died.times task other.symm)
  · rw [died.current]
    exact ⟨fun same => absurd same.symm notIdle, fun same => absurd same other⟩
  · exact fun _ loses => absurd loses (innocent_of_other other)

/-! ## Birth and death -/

theorem balance_newborn {born : List Task} (spawned : Spawned vm next born) (isBorn : task ∈ born)
    (other : vm.current ≠ task) (neverRan : onCpu task (vm :: past) = 0)
    (neverLived : lifetime task (vm :: past) = 0)
    (innocent : ∀ earlier ∈ past, ¬LosesTime setup task earlier) :
    Balance setup next (vm :: past) task 0 0 0 := by
  have newborn := spawned.newborn task isBorn
  simp only [TaskStruct.times, Prod.mk.injEq] at newborn
  have clock := schedClock_congr spawned.jiffies
  have ran := @onCpu_still vm next past task spawned.jiffies
  have life := @lifetime_still vm next past task spawned.jiffies
  rw [neverRan] at ran
  rw [neverLived] at life
  have reads : schedClock vm < 2 ^ 64 := Nat.mod_lt _ (by decide)
  refine ⟨newborn.1.trans (Nat.zero_mod _).symm, ?_, ran.symm, ?_, ?_, fun _ => rfl,
    fun _ _ => rfl, ?_⟩
  · rw [clock, newborn.2.1, life, Nat.add_zero, Nat.mod_eq_of_lt reads]
  · rw [ran, life]
  · exact fun current => absurd (spawned.current.symm.trans current) other
  · intro _ something
    rcases exists_past.mp something with loses | ⟨earlier, member, loses⟩
    · exact absurd loses (innocent_of_other other)
    · exact absurd loses (innocent earlier member)

theorem Balance.timingResult_iff (balance : Balance setup vm past task credited lost stay)
    (current : vm.current = task) : timingResult vm = trueTimes task (vm :: past) ↔
      lifetime task (vm :: past) < 2 ^ 64 ∧ lost = 0 ∧ stay = 0 := by
  have xe := balance.xe
  have total := balance.total
  have within := balance.within
  have age : sub64 (schedClock vm) (vm.task task).xd = lifetime task (vm :: past) % 2 ^ 64 := by
    rw [balance.xd, sub64_add]
  simp only [timingResult, trueTimes, current, Prod.mk.injEq, true_and, age, xe]
  simp only [sub64, onCpu, lifetime] at total within ⊢
  generalize elapsed Vm.jiffies (fun vm => vm.current = task) (vm :: past) = ran at total within ⊢
  generalize elapsed Vm.jiffies (fun vm => task ∈ vm.live) (vm :: past) = lived at within ⊢
  constructor
  · rintro ⟨sameXe, sameXd, -⟩
    have short : lived * 10000000 < 2 ^ 64 := by omega
    refine ⟨short, ?_, ?_⟩
    · omega
    · omega
  · rintro ⟨short, noneLost, noStay⟩
    refine ⟨?_, ?_, ?_⟩
    · omega
    · omega
    · omega

/-- A task that is killed gets a line, which is right if no time was lost. -/
theorem Balance.dies (balance : Balance setup vm past task credited lost stay)
    (died : Died vm next) (current : vm.current = task) (notInit : task ≠ .init)
    (pc : vm.pc = .cycle) (goes : goesDown setup vm = true) (unwritten : linesOf task vm = []) :
    Stage setup next (vm :: past) task := by
  apply Stage.settled
  · rw [died.killed, current]
    exact List.mem_cons_self
  · have ran := @onCpu_still vm next past task died.jiffies
    have life := @lifetime_still vm next past task died.jiffies
    have true : trueTimes task (next :: vm :: past) = trueTimes task (vm :: past) := by
      simp only [trueTimes, ran, life]
    have isLine : (timingResult vm).1 = task := current
    have lines : linesOf task next = [timingResult vm] := by
      simp only [linesOf, died.results, List.filter_append] at unwritten ⊢
      rw [unwritten, if_neg (current.symm ▸ notInit)]
      simp [isLine]
    rw [lines, true, life, List.singleton_inj, balance.timingResult_iff current]
    refine and_congr_right fun short => ?_
    have exact := balance.stayed_exact current short
    rw [forall_past]
    constructor
    · rintro ⟨noneLost, noStay⟩
      refine ⟨fun loses => loses.2.1 (exact.trans noStay), fun earlier member loses => ?_⟩
      rcases balance.doomed short ⟨earlier, member, loses⟩ with some | long
      · omega
      · omega
    · rintro ⟨innocent, before⟩
      refine ⟨balance.kept short before, ?_⟩
      rw [← exact]
      by_contra moved
      exact innocent ⟨current, moved, .inr ⟨pc, goes⟩⟩

end

end CE321.Vsched
