import CE321.Vsched.Bursts
import CE321.Vsched.ListParts

/-! # Runs on linked lists

The machine that follows the links of its lists takes the steps of the machine that has
sequences in their place, and its links always hold these sequences.
-/

namespace CE321.Vsched

open CE321.Lists

section

variable {setup : Setup} {memory : Memory} {profile : Profile} {machine : Machine} {vm vm' : Vm}

/-! ## Steps -/

theorem held_init (vm : Vm) : Held profile vm .init :=
  ⟨by simp [Profile.tasks], .inl rfl⟩

theorem Represents.spawnAll (represents : Represents setup.profile machine vm)
    (held : Held setup.profile vm vm.current) :
    Option.Rel (Represents setup.profile) (Linked.spawnAll setup machine)
      (Vsched.spawnAll setup vm) := by
  have timeless := armIntTimer_timeless setup vm
  have ignores : IgnoresLists fun vm => some (armIntTimer setup vm) :=
    IgnoresLists.pure fun _ _ _ => armIntTimer_withLists
  have represents' : Represents setup.profile
      { machine with vm := armIntTimer setup machine.vm } (armIntTimer setup vm) := by
    have part := represents.part ignores fun vm' done => by
      rw [← Option.some.inj done]
      exact timeless.passes.killed
    simp only [Option.map_some, Option.rel_some_some] at part
    exact part
  have current : (armIntTimer setup machine.vm).current = (armIntTimer setup vm).current := by
    rw [represents.blank, armIntTimer_withLists]
    rfl
  have held' : Held setup.profile (armIntTimer setup vm) (armIntTimer setup vm).current := by
    rw [timeless.passes.current]
    exact ⟨held.1, timeless.passes.killed ▸ held.2⟩
  simp only [Linked.spawnAll, Vsched.spawnAll, current]
  exact rel_bind (represents'.spawnChildren held') fun machine' vm' represents'' _ =>
    represents''.spawnChildren (held_init vm')

theorem Represents.cycle (represents : Represents setup.profile machine vm)
    (running : Running setup.profile vm) :
    Option.Rel (Represents setup.profile) (Linked.cycle setup memory machine)
      (Vsched.cycle setup vm) := by
  unfold Linked.cycle Vsched.cycle
  apply rel_bind (represents.taskEnd running)
  rintro ⟨ended, machine'⟩ ⟨ended', vm'⟩ ⟨rfl, represents'⟩ lasts
  cases ended with
  | true => exact .some represents'
  | false =>
      have timeless := (taskEnd_ends lasts).1.timeless
      have running' : Running setup.profile vm' :=
        running.frame timeless.passes.current (taskEnd_keeps lasts).2 timeless.passes.killed
      have current : machine'.vm.current = vm'.current := by
        rw [represents'.blank]
        rfl
      simp only [Bool.false_eq_true, if_false, current]
      cases setup.profile.threadType vm'.current with
      | init => exact represents'.spawnAll running'.held
      | interactive =>
          apply rel_bind (represents'.work running')
          rintro ⟨ended, machine''⟩ ⟨ended', vm''⟩ ⟨rfl, represents''⟩ works
          cases ended with
          | true => exact .some represents''
          | false =>
              rcases work_outcome works with ⟨ends, outcome⟩
              have worked := outcome.timeless
              apply rel_bind represents''.tickSleep
              intro machine₃ vm₃ represents₃ ticks
              have ticked := tickSleep_timeless ticks
              apply represents₃.spawnAll
              rw [ticked.passes.current, worked.passes.current]
              refine ⟨running'.held.1, ?_⟩
              rw [ticked.passes.killed, worked.passes.killed]
              exact running'.held.2
      | noninteractive =>
          apply rel_bind (represents'.work running')
          rintro ⟨ended, machine''⟩ ⟨ended', vm''⟩ ⟨rfl, represents''⟩ works
          cases ended with
          | true => exact .some represents''
          | false =>
              rcases work_outcome works with ⟨ends, outcome⟩
              have worked := outcome.timeless
              apply represents''.spawnAll
              rw [worked.passes.current]
              exact ⟨running'.held.1, worked.passes.killed ▸ running'.held.2⟩

theorem step_ignoresLists (notCycle : vm.pc ≠ .cycle) (notIo : vm.pc ≠ .io)
    (asleep : List Task) (list : Task → List Nat) : Vsched.step setup (vm.withLists asleep list) =
      (Vsched.step setup vm).map fun vm => vm.withLists asleep list := by
  have pc : (vm.withLists asleep list).pc = vm.pc := rfl
  have scheduled := @schedule_ignoresLists setup vm asleep list
  cases place : vm.pc with
  | cycle => exact absurd place notCycle
  | io => exact absurd place notIo
  | tick => simp only [Vsched.step, pc, place, scheduleTick_withLists, Option.map_some]
  | endCycle => simp only [Vsched.step, pc, place, endCycle_withLists, Option.map_some]
  | halted => simp only [Vsched.step, pc, place, Option.map_none]
  | start =>
      simp only [Vsched.step, pc, place, scheduled]
      cases schedule setup vm <;> rfl
  | tickSchedule =>
      simp only [Vsched.step, pc, place, scheduled]
      cases schedule setup vm <;> rfl
  | reschedule =>
      simp only [Vsched.step, pc, place, scheduled]
      cases schedule setup vm <;> rfl

theorem Reachable.running (reachable : Reachable setup vm) (pc : vm.pc = .cycle) :
    Running setup.profile vm := by
  rcases reachable.invariant with ⟨queue, invariant⟩
  have population := invariant.population
  have member : vm.current ∈ queue := by
    have place := invariant.place
    rwa [Placed, pc] at place
  have alive := population.queued member
  refine ⟨⟨population.lineage.known _ alive, .inr (population.lineage.apart _ alive)⟩, ?_⟩
  intro index task isCurrent pending
  have unborn := (population.lineage.pending task index pending).2.2.1
  exact unborn (isCurrent ▸ alive)

theorem Represents.step (represents : Represents setup.profile machine vm)
    (reachable : Reachable setup vm) :
    Option.Rel (Represents setup.profile) (Linked.step setup memory machine)
      (Vsched.step setup vm) := by
  have pc : machine.vm.pc = vm.pc := by
    rw [represents.blank]
    rfl
  by_cases isCycle : vm.pc = .cycle
  · simp only [Linked.step, Vsched.step, pc, isCycle]
    apply rel_bind (represents.cycle (reachable.running isCycle))
    intro machine' vm' represents' _
    apply Option.Rel.some
    rw [represents'.blank]
    exact @Represents.frame _ _ _ { vm' with pc := .tick } represents' rfl (fun _ => rfl) rfl
  · by_cases isIo : vm.pc = .io
    · simp only [Linked.step, Vsched.step, pc, isIo]
      apply rel_bind represents.ioEvent
      intro machine' vm' represents' _
      apply Option.Rel.some
      rw [represents'.blank]
      exact @Represents.frame _ _ _ { vm' with
        clocktick := vm'.clocktick + 1
        pc := if (vm'.task vm'.current).needReschedule then .reschedule else .endCycle }
        represents' rfl (fun _ => rfl) rfl
    · have other : Linked.step setup memory machine =
          (Vsched.step setup machine.vm).map fun vm => { machine with vm := vm } := by
        unfold Linked.step
        split
        · exact absurd (pc ▸ ‹_›) isCycle
        · exact absurd (pc ▸ ‹_›) isIo
        · cases Vsched.step setup machine.vm <;> rfl
      rw [other, represents.blank, step_ignoresLists isCycle isIo]
      cases taken : Vsched.step setup vm with
      | none => exact .none
      | some next =>
          have same := @step_ignoresLists setup vm isCycle isIo vm.intwaitlist fun task =>
            (vm.info task).list
          rw [withLists_self, taken, Option.map_some, Option.some.injEq] at same
          rcases lists_of_withLists same with ⟨asleep, list⟩
          have killed : next.killed = vm.killed := by
            cases step_timed taken with
            | passes places passes => exact passes.killed
            | switches schedules handover => exact handover.killed
            | spawns pc => exact absurd pc isCycle
            | dies pc => exact absurd pc isCycle
          exact .some (represents.frame asleep list killed)

/-! ## The start -/

/-- The lists when the first processes of the profile are linked. -/
def listsAt (profile : Profile) (count : Nat) : Contents Entry
  | .intwaitlist => some []
  | .list task =>
      if task ≠ .idle ∧ task.rank ≤ count then
        some (((List.range count).filter fun child =>
          profile.parent (.process child) = some task).map .clist)
      else none
  | _ => none

theorem listed_listsAt {count : Nat} {entry : Entry} (listed : Listed (listsAt profile count) entry) :
    ∃ child < count, entry = .clist child := by
  rcases listed with ⟨head, behind, isList, inside⟩
  cases head with
  | intwaitlist =>
      cases isList
      cases inside
  | waitlist address => cases isList
  | clist process => cases isList
  | list task =>
      simp only [listsAt] at isList
      split_ifs at isList
      cases isList
      rcases List.mem_map.mp inside with ⟨child, member, same⟩
      exact ⟨child, List.mem_range.mp (List.mem_filter.mp member).1, same.symm⟩

theorem listsAt_parent {count : Nat} {parent : Task}
    (isParent : profile.parent (.process count) = some parent) :
    parent ≠ .idle ∧ parent.rank ≤ count ∧
      Function.update (listsAt profile count) (.list (.process count)) (some []) (.list parent) =
        some (((List.range count).filter fun child =>
          profile.parent (.process child) = some parent).map .clist) := by
  have below := profile.descends (.process count) parent isParent
  have notIdle : parent ≠ .idle := by
    rintro rfl
    simp only [Profile.parent] at isParent
    split at isParent <;> cases isParent
  have different : parent ≠ .process count := fun same => by
    rw [same] at below
    exact Nat.lt_irrefl _ below
  have place : parent.rank ≤ count := Nat.le_of_lt_succ below
  refine ⟨notIdle, place, ?_⟩
  rw [Function.update_of_ne (by simpa using different)]
  simp only [listsAt, if_pos (And.intro notIdle place)]

theorem listsAt_succ {count : Nat} {parent : Task}
    (isParent : profile.parent (.process count) = some parent) :
    withEntry (Function.update (listsAt profile count) (.list (.process count)) (some []))
      (.clist count) (.list parent) (· ++ [.clist count]) = listsAt profile (count + 1) := by
  rcases listsAt_parent isParent with ⟨notIdle, place, isList⟩
  have childless : ∀ child < count + 1, profile.parent (.process child) ≠ some (.process count) := by
    intro child early isChild
    have above := profile.descends (.process child) (.process count) isChild
    simp only [Task.rank] at above
    omega
  have grown : ∀ task, ((List.range (count + 1)).filter fun child =>
      profile.parent (.process child) = some task) = ((List.range count).filter fun child =>
        profile.parent (.process child) = some task) ++ if parent = task then [count] else [] := by
    intro task
    rw [List.range_succ, List.filter_append]
    by_cases isTask : parent = task
    · simp [isParent, isTask]
    · simp [isParent, isTask]
  rw [withEntry, isList]
  funext head
  cases head with
  | intwaitlist => simp [listsAt]
  | waitlist address => simp [listsAt]
  | clist process => simp [Function.update_apply, listsAt]
  | list task =>
      by_cases isTask : task = parent
      · subst isTask
        simp only [Function.update_self, listsAt, grown, if_true, Option.map_some, List.map_append]
        rw [if_pos ⟨notIdle, Nat.le_succ_of_le place⟩]
        rfl
      · rw [Function.update_of_ne (by simpa using isTask), Function.update_of_ne (by simp)]
        by_cases isNew : task = .process count
        · subst isNew
          have none : ((List.range (count + 1)).filter fun child =>
              profile.parent (.process child) = some (.process count)) = [] := by
            apply List.filter_eq_nil_iff.mpr
            intro child early
            simpa using childless child (List.mem_range.mp early)
          simp [listsAt, none, Task.rank]
        · rw [Function.update_of_ne (by simpa using isNew)]
          have sameRank : task.rank ≤ count + 1 ↔ task.rank ≤ count := by
            cases task with
            | idle => simp [Task.rank]
            | init => simp [Task.rank]
            | process index =>
                have other : index ≠ count := fun same => isNew (by rw [same])
                simp only [Task.rank]
                omega
          simp only [listsAt, grown, if_neg (Ne.symm isTask), List.append_nil, sameRank]

theorem linkProcesses_rings (count : Nat) {links : Links Entry}
    (rings : Rings links.next links.prev (listsAt profile 0)) :
    ∃ links', Linked.linkProcesses profile count links = some links' ∧
      Rings links'.next links'.prev (listsAt profile count) := by
  induction count with
  | zero => exact ⟨links, rfl, rings⟩
  | succ count induction =>
      rcases induction with ⟨links', linked, rings'⟩
      have isProcess : ∃ parent, profile.parent (.process count) = some parent := by
        simp only [Profile.parent]
        split
        · exact ⟨_, rfl⟩
        · exact ⟨_, rfl⟩
      rcases isProcess with ⟨parent, isParent⟩
      have notListed : ¬ Listed (listsAt profile count) (.list (.process count)) := by
        intro listed
        rcases listed_listsAt listed with ⟨child, -, same⟩
        cases same
      have notListed' : ¬ Listed (Function.update (listsAt profile count) (.list (.process count))
          (some [])) (.clist count) := by
        rintro ⟨head, behind, isList, inside⟩
        by_cases isNew : head = .list (.process count)
        · rw [isNew, Function.update_self, Option.some.injEq] at isList
          rw [← isList] at inside
          cases inside
        · rw [Function.update_of_ne isNew] at isList
          rcases listed_listsAt ⟨head, behind, isList, inside⟩ with ⟨child, early, same⟩
          exact Nat.ne_of_lt early (clist_injective same).symm
      have initialized := initListHead_rings rings' notListed
      rcases listAddTail_rings initialized (listsAt_parent isParent).2.2 notListed' (by simp) with
        ⟨links'', added, rings''⟩
      rw [listsAt_succ isParent] at rings''
      refine ⟨links'', ?_, rings''⟩
      simp only [Linked.linkProcesses, linked, isParent, Option.bind_eq_bind, Option.bind_some, added]

theorem boot_represents (setup : Setup) (memory : Memory) :
    ∃ machine, Linked.boot setup memory = some machine ∧
      Represents setup.profile machine (boot setup) := by
  have nothing := rings_none memory.links.next memory.links.prev
  have notListed : ∀ entry, ¬ Listed (fun _ => none : Contents Entry) entry := by
    rintro entry ⟨head, behind, isList, -⟩
    cases isList
  have first := initListHead_rings nothing (notListed (.list .init))
  have notListed' : ¬ Listed (Function.update (fun _ => none : Contents Entry) (.list .init)
      (some [])) .intwaitlist := by
    rintro ⟨head, behind, isList, inside⟩
    by_cases isInit : head = .list .init
    · rw [isInit, Function.update_self, Option.some.injEq] at isList
      rw [← isList] at inside
      cases inside
    · rw [Function.update_of_ne isInit] at isList
      cases isList
  have second := initListHead_rings first notListed'
  have start : Function.update (Function.update (fun _ => none : Contents Entry) (.list .init)
      (some [])) .intwaitlist (some []) = listsAt setup.profile 0 := by
    funext head
    cases head with
    | intwaitlist => rfl
    | waitlist address => rfl
    | clist process => rfl
    | list task =>
        cases task with
        | idle => simp [listsAt]
        | init => simp [listsAt, Task.rank]
        | process index => simp [listsAt, Task.rank]
  rw [start] at second
  rcases linkProcesses_rings setup.profile.processes.length second with ⟨links, linked, rings⟩
  refine ⟨_, by rw [Linked.boot, linked]; rfl, rfl, [], _, rings, rfl, rfl, .refl _, ?_, ?_, ?_⟩
  · intro task held
    have known := held.1
    cases task with
    | idle => simp [Profile.tasks] at known
    | init => simp [listsAt, Task.rank, boot, Profile.children]
    | process index =>
        have bound : index < setup.profile.processes.length := by
          simpa [Profile.tasks] using known
        simp [listsAt, Task.rank, boot, Profile.children, Nat.succ_le_of_lt bound]
  · intro head behind isList
    cases head with
    | intwaitlist => exact .inl rfl
    | waitlist address => cases isList
    | clist process => cases isList
    | list task =>
        refine .inr ⟨task, ⟨?_, .inr List.not_mem_nil⟩, rfl⟩
        simp only [listsAt] at isList
        split_ifs at isList with place
        cases task with
        | idle => exact absurd rfl place.1
        | init => simp [Profile.tasks]
        | process index => simpa [Profile.tasks, Task.rank] using place.2
  · intro task child member
    have listed : child ∈ setup.profile.children task := member
    exact List.mem_range.mp (List.mem_filter.mp listed).1

/-! ## Runs -/

theorem run_represents (setup : Setup) (memory : Memory) :
    ∃ machine, Linked.boot setup memory = some machine ∧ ∀ count,
      Option.Rel (fun machine vm => Represents setup.profile machine vm ∧ Reachable setup vm)
        (after (Linked.step setup memory) count machine)
        (after (Vsched.step setup) count (boot setup)) := by
  rcases boot_represents setup memory with ⟨machine, booted, represents⟩
  refine ⟨machine, booted, fun count => ?_⟩
  apply after_rel
  · rintro machine vm ⟨represents, reachable⟩
    have stepped := @Represents.step setup memory machine vm represents reachable
    cases taken : Vsched.step setup vm with
    | none =>
        rw [taken] at stepped
        cases here : Linked.step setup memory machine with
        | none => exact .none
        | some machine' =>
            rw [here] at stepped
            cases stepped
    | some vm' =>
        rw [taken] at stepped
        rcases some_rel stepped with ⟨machine', here, represents'⟩
        rw [here]
        exact .some ⟨represents', reachable.step taken⟩
  · exact ⟨represents, .boot⟩

/-- The machine that follows its links gets just as far as the one with sequences, never
follows a NULL that the other one does not, and is at each step in the same state. Its links
then hold the sleeping tasks, each in a structure of its own, and the children that each task
that is not killed has not forked. No structure is left when it stops. -/
theorem lists_of_machine (setup : Setup) (memory : Memory) :
    ∃ machine, Linked.boot setup memory = some machine ∧ ∀ count,
      (after (Vsched.step setup) count (boot setup) = none →
        after (Linked.step setup memory) count machine = none) ∧
      ∀ vm, after (Vsched.step setup) count (boot setup) = some vm →
        ∃ machine' addresses, after (Linked.step setup memory) count machine = some machine' ∧
          machine'.vm = vm.withLists [] (fun _ => []) ∧
          (∀ fuel, addresses.length < fuel →
            listForEach machine'.links .intwaitlist fuel = some (addresses.map .waitlist)) ∧
          addresses.map machine'.waits = vm.intwaitlist ∧
          machine'.waitlists.Perm addresses ∧
          (∀ task ∈ setup.profile.tasks, task ∉ vm.killed → ∀ fuel,
            (vm.info task).list.length < fuel →
            listForEach machine'.links (.list task) fuel = some ((vm.info task).list.map .clist)) ∧
          (vm.pc = .halted → machine'.waitlists = []) := by
  rcases run_represents setup memory with ⟨machine, booted, run⟩
  refine ⟨machine, booted, fun count => ⟨fun stops => ?_, fun vm reached => ?_⟩⟩
  · have rel := run count
    rw [stops] at rel
    cases here : after (Linked.step setup memory) count machine with
    | none => rfl
    | some machine' =>
        rw [here] at rel
        cases rel
  · have rel := run count
    rw [reached] at rel
    rcases some_rel rel with ⟨machine', here, ⟨blank, addresses, lists, threads⟩, reachable⟩
    refine ⟨machine', addresses, here, blank, ?_, threads.asleep, threads.allocated, ?_, ?_⟩
    · intro fuel enough
      exact (threads.rings.ring threads.sleepers).walk (by rwa [List.length_map])
    · intro task known alive fuel enough
      exact (threads.rings.ring (threads.children ⟨known, .inr alive⟩)).walk
        (by rwa [List.length_map])
    · intro halted
      rcases reachable.invariant with ⟨queue, invariant⟩
      have place := invariant.place
      simp only [Placed, halted] at place
      subst place
      have population := invariant.population
      have perm := population.lists.perm
      rw [population.extinct, List.nil_append] at perm
      have nobody : vm.intwaitlist = [] := perm.symm.eq_nil
      have noAddress : addresses = [] := by
        rw [← threads.asleep] at nobody
        exact List.map_eq_nil_iff.mp nobody
      exact (noAddress ▸ threads.allocated).eq_nil

end

theorem le_foldr_max (least : Nat) (used : List Nat) :
    ∀ address ∈ used, address ≤ used.foldr max least := by
  induction used with
  | nil => simp
  | cons first rest induction =>
      intro address member
      rcases List.mem_cons.mp member with rfl | later
      · exact Nat.le_max_left ..
      · exact (induction address later).trans (Nat.le_max_right ..)

/-- A memory that gives out addresses above all that are in use, farther above in later cycles. -/
def growing : Memory where
  malloc := fun clocktick used => used.foldr max clocktick + 1
  fresh := fun clocktick used member =>
    Nat.not_succ_le_self _ (le_foldr_max clocktick used _ member)
  links := ⟨fun _ => none, fun _ => none⟩

/-- The drowsy process sleeps after its first jiffy, in the one structure on the wait list. -/
theorem lists_of_machine_drowsy : ∃ machine count machine' address,
    Linked.boot drowsy growing = some machine ∧
    after (Linked.step drowsy growing) count machine = some machine' ∧
    machine'.waitlists = [address] ∧ machine'.waits address = .process 0 ∧
    listForEach machine'.links .intwaitlist 2 = some [.waitlist address] := by
  rcases drowsy_asleep with ⟨vm, past, history, -, -, -, -, asleep, -⟩
  rcases lists_of_machine drowsy growing with ⟨machine, booted, run⟩
  rcases (run past.length).2 vm history.after_eq with
    ⟨machine', addresses, ran, -, sleepers, tasks, allocated, -⟩
  rw [asleep] at tasks
  rcases List.map_eq_singleton_iff.mp tasks with ⟨address, rfl, isTask⟩
  exact ⟨machine, past.length, machine', address, booted, ran, List.perm_singleton.mp allocated,
    isTask, sleepers 2 (Nat.lt_succ_self _)⟩

end CE321.Vsched
