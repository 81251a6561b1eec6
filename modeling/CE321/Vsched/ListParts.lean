import CE321.Foundation.Lockstep
import CE321.Vsched.Linked
import CE321.Vsched.Sequences
import CE321.Vsched.Times

/-! # The parts of a cycle on linked lists

The links of a machine represent the sequences of another one, and each part of `cycle` and
`interrupt` that uses a list does the same to both.
-/

namespace CE321.Vsched

open CE321.Lists

/-- The `thread_info` of the task is in memory. That of init is never freed. -/
def Held (profile : Profile) (vm : Vm) (task : Task) : Prop :=
  task ∈ profile.tasks ∧ (task = .init ∨ task ∉ vm.killed)

/-- The sequences of a machine in the links of another one: the `waitlist` structures of the
tasks that sleep, and the `thread_info`s of the children that are not forked yet. -/
structure Threads (profile : Profile) (vm : Vm) (machine : Machine) (addresses : List Nat)
    (lists : Contents Entry) : Prop where
  rings : Rings machine.links.next machine.links.prev lists
  sleepers : lists .intwaitlist = some (addresses.map .waitlist)
  asleep : addresses.map machine.waits = vm.intwaitlist
  allocated : machine.waitlists.Perm addresses
  children : ∀ {task : Task}, Held profile vm task →
    lists (.list task) = some ((vm.info task).list.map .clist)
  heads : ∀ {head : Entry} {behind : List Entry}, lists head = some behind →
    head = .intwaitlist ∨ ∃ task, Held profile vm task ∧ head = .list task
  known : ∀ task, ∀ child ∈ (vm.info task).list, child < profile.processes.length

/-- The machine on linked lists stands for the one with sequences. -/
structure Represents (profile : Profile) (machine : Machine) (vm : Vm) : Prop where
  blank : machine.vm = vm.withLists [] fun _ => []
  threads : ∃ addresses lists, Threads profile vm machine addresses lists

section

variable {setup : Setup} {memory : Memory} {profile : Profile} {machine : Machine} {vm vm' : Vm}
  {addresses : List Nat} {lists : Contents Entry}

theorem clist_injective : Function.Injective Entry.clist := fun _ _ same => Entry.clist.inj same

theorem waitlist_injective : Function.Injective Entry.waitlist :=
  fun _ _ same => Entry.waitlist.inj same

/-- An entry of a list is the `waitlist` of a task that sleeps or a child that is not forked
yet. -/
theorem Threads.listed (threads : Threads profile vm machine addresses lists) {entry : Entry}
    (listed : Listed lists entry) : (∃ address ∈ addresses, entry = .waitlist address) ∨
      ∃ task, Held profile vm task ∧ ∃ child ∈ (vm.info task).list, entry = .clist child := by
  rcases listed with ⟨head, behind, isList, inside⟩
  rcases threads.heads isList with rfl | ⟨task, held, rfl⟩
  · rw [threads.sleepers, Option.some.injEq] at isList
    subst isList
    rcases List.mem_map.mp inside with ⟨address, member, same⟩
    exact .inl ⟨address, member, same.symm⟩
  · rw [threads.children held, Option.some.injEq] at isList
    subst isList
    rcases List.mem_map.mp inside with ⟨child, member, same⟩
    exact .inr ⟨task, held, child, member, same.symm⟩

theorem Threads.frame {machine' : Machine} (threads : Threads profile vm machine addresses lists)
    (links : machine'.links = machine.links) (waits : machine'.waits = machine.waits)
    (waitlists : machine'.waitlists = machine.waitlists)
    (asleep : vm'.intwaitlist = vm.intwaitlist)
    (list : ∀ task, (vm'.info task).list = (vm.info task).list) (killed : vm'.killed = vm.killed) :
    Threads profile vm' machine' addresses lists where
  rings := links ▸ threads.rings
  sleepers := threads.sleepers
  asleep := by rw [waits, asleep, threads.asleep]
  allocated := waitlists ▸ threads.allocated
  children := by
    intro task held
    rw [list]
    exact threads.children ⟨held.1, killed ▸ held.2⟩
  heads := by
    intro head behind isList
    rcases threads.heads isList with isWait | ⟨task, held, isTask⟩
    · exact .inl isWait
    · exact .inr ⟨task, ⟨held.1, killed ▸ held.2⟩, isTask⟩
  known := fun task child member => threads.known task child (list task ▸ member)

theorem Represents.frame (represents : Represents profile machine vm)
    (asleep : vm'.intwaitlist = vm.intwaitlist)
    (list : ∀ task, (vm'.info task).list = (vm.info task).list) (killed : vm'.killed = vm.killed) :
    Represents profile { machine with vm := vm'.withLists [] fun _ => [] } vm' := by
  rcases represents.threads with ⟨addresses, lists, threads⟩
  exact ⟨rfl, addresses, lists, threads.frame rfl rfl rfl asleep list killed⟩

theorem Represents.part {part : Vm → Option Vm} (represents : Represents profile machine vm)
    (ignores : IgnoresLists part) (killed : ∀ vm', part vm = some vm' → vm'.killed = vm.killed) :
    Option.Rel (Represents profile)
      ((part machine.vm).map fun vm => { machine with vm := vm }) (part vm) := by
  rw [represents.blank, ignores]
  cases done : part vm with
  | none => exact .none
  | some vm' =>
      rcases ignores.keeps done with ⟨asleep, list⟩
      exact .some (represents.frame asleep list (killed vm' done))

/-! ## Children -/

theorem setInfo_list_withLists (vm : Vm) (task : Task) (list : List Nat) :
    (vm.setInfo task fun info => { info with list := list }).withLists [] (fun _ => []) =
      vm.withLists [] fun _ => [] := by
  have info : (fun other => { (vm.setInfo task fun info =>
      { info with list := list }).info other with list := [] }) =
        fun other => { vm.info other with list := ([] : List Nat) } := by
    funext other
    by_cases isTask : other = task
    · subst isTask
      simp [Vm.setInfo]
    · simp [Vm.setInfo, Function.update_of_ne isTask]
  simp only [Vm.withLists, info]
  rfl

theorem Threads.unlist (threads : Threads profile vm machine addresses lists) {parent : Task}
    (held : Held profile vm parent) {child : Nat} (member : child ∈ (vm.info parent).list) :
    ∃ links, listDel machine.links (.clist child) = some links ∧
      Threads profile
        (vm.setInfo parent fun info => { info with list := info.list.erase child })
        { machine with links := links } addresses (without lists (.clist child)) := by
  have isList := threads.children held
  have inside : Entry.clist child ∈ (vm.info parent).list.map .clist := List.mem_map_of_mem member
  rcases listDel_rings threads.rings ⟨_, _, isList, inside⟩ with ⟨links, deleted, rings⟩
  refine ⟨links, deleted, rings, ?_, threads.asleep, threads.allocated, ?_, ?_, ?_⟩
  · rw [without, threads.sleepers, Option.map_some, List.erase_of_not_mem (by simp)]
  · intro task held'
    have held'' : Held profile vm task := held'
    rw [without, threads.children held'', Option.map_some, ← List.map_erase clist_injective]
    by_cases isParent : task = parent
    · subst isParent
      simp [Vm.setInfo]
    · have away : child ∉ (vm.info task).list := by
        intro member'
        apply threads.rings.only isList inside (threads.children held'') (by simpa using isParent)
        exact List.mem_cons_of_mem _ (List.mem_map_of_mem member')
      simp [Vm.setInfo, Function.update_of_ne isParent, List.erase_of_not_mem away]
  · intro head behind isList'
    rcases Option.map_eq_some_iff.mp isList' with ⟨behind', isList'', -⟩
    exact threads.heads isList''
  · intro task other member'
    apply threads.known task
    by_cases isParent : task = parent
    · subst isParent
      have erased : other ∈ (vm.info task).list.erase child := by
        simpa [Vm.setInfo] using member'
      exact List.mem_of_mem_erase erased
    · simpa [Vm.setInfo, Function.update_of_ne isParent] using member'

theorem Represents.unlist (represents : Represents profile machine vm) {parent : Task}
    (held : Held profile vm parent) {child : Nat} (member : child ∈ (vm.info parent).list) :
    ∃ links, listDel machine.links (.clist child) = some links ∧
      Represents profile { machine with links := links }
        (vm.setInfo parent fun info => { info with list := info.list.erase child }) := by
  rcases represents.threads with ⟨addresses, lists, threads⟩
  rcases threads.unlist held member with ⟨links, deleted, threads'⟩
  refine ⟨links, deleted, ?_, addresses, _, threads'⟩
  exact represents.blank.trans (setInfo_list_withLists vm parent _).symm

/-- A child links to the one behind it, or to the head of the list, and is on it once. -/
theorem Represents.nextChild (represents : Represents profile machine vm) {parent : Task}
    (held : Held profile vm parent) {kept rest : List Nat} {child : Nat}
    (split : (vm.info parent).list = kept ++ child :: rest) :
    machine.links.next (.clist child) = some ((rest.map Entry.clist).headD (.list parent)) ∧
      child ∉ kept := by
  rcases represents.threads with ⟨addresses, lists, threads⟩
  have ring := threads.rings.ring (threads.children held)
  have nodup : ((vm.info parent).list).Nodup :=
    List.Nodup.of_map _ (List.nodup_cons.mp ring.nodup).2
  rw [split] at nodup
  rw [split, List.map_append, List.map_cons] at ring
  refine ⟨ring.next_eq, fun early => ?_⟩
  exact (List.nodup_append.mp nodup).2.2 child early child List.mem_cons_self rfl

theorem Represents.spawnLoop {parent : Task} (todo : List Nat) :
    ∀ {kept : List Nat} {fuel : Nat} {machine : Machine} {vm : Vm},
      Represents setup.profile machine vm → Held setup.profile vm parent →
      (vm.info parent).list = kept ++ todo → todo.length < fuel →
      Option.Rel (Represents setup.profile)
        (Linked.spawnLoop setup parent fuel (some ((todo.map Entry.clist).headD (.list parent)))
          machine) (Vsched.spawnLoop setup parent todo vm) := by
  induction todo with
  | nil =>
      intro kept fuel machine vm represents held split enough
      rcases Nat.exists_eq_add_one_of_ne_zero (Nat.ne_of_gt enough) with ⟨fuel, rfl⟩
      simp only [Linked.spawnLoop, List.map_nil, List.headD_nil, if_true]
      exact .some represents
  | cons child rest induction =>
      intro kept fuel machine vm represents held split enough
      rcases Nat.exists_eq_add_one_of_ne_zero (Nat.ne_of_gt (Nat.zero_lt_of_lt enough)) with
        ⟨fuel, rfl⟩
      have enough' : rest.length < fuel := Nat.lt_of_succ_lt_succ enough
      rcases represents.nextChild held split with ⟨following, away⟩
      have clocktick : machine.vm.clocktick = vm.clocktick := by
        rw [represents.blank]
        rfl
      have notEnd : ¬ some (Entry.clist child) = some (Entry.list parent) := by simp
      simp only [Linked.spawnLoop, Vsched.spawnLoop, List.map_cons, List.headD_cons, notEnd,
        if_false, clocktick]
      split_ifs with due
      · have ignores : forktask setup (vm.withLists [] fun _ => []) child =
            (forktask setup vm child).map fun vm => vm.withLists [] fun _ => [] :=
          forktask_ignoresLists child vm [] _
        rw [represents.blank, ignores]
        cases forks : forktask setup vm child with
        | none => exact .none
        | some forked =>
            have spawned := forktask_spawned forks
            rcases (forktask_ignoresLists child).keeps forks with ⟨asleep, list⟩
            have held' : Held setup.profile forked parent := ⟨held.1, spawned.killed ▸ held.2⟩
            have split' : (forked.info parent).list = kept ++ child :: rest :=
              (list parent).trans split
            have inside : child ∈ (forked.info parent).list := by
              rw [split']
              exact List.mem_append_right kept List.mem_cons_self
            rcases (represents.frame asleep list spawned.killed).unlist held' inside with
              ⟨links, deleted, represents'⟩
            simp only [Option.map_some, Option.bind_eq_bind, Option.bind_some, following]
            rw [deleted, Option.bind_some]
            refine @induction kept _ _ _ represents' held' ?_ enough'
            have erased : ((forked.setInfo parent fun info =>
                { info with list := info.list.erase child }).info parent).list =
                  (forked.info parent).list.erase child := by simp [Vm.setInfo]
            rw [erased, split', List.erase_append_right _ away, List.erase_cons_head]
      · rw [following]
        have split' : (vm.info parent).list = kept ++ [child] ++ rest := by
          rw [split, List.append_assoc, List.singleton_append]
        exact induction represents held split' enough'

theorem Represents.spawnChildren (represents : Represents setup.profile machine vm) {parent : Task}
    (held : Held setup.profile vm parent) :
    Option.Rel (Represents setup.profile) (Linked.spawnChildren setup machine parent)
      (Vsched.spawnChildren setup vm parent) := by
  unfold Linked.spawnChildren Vsched.spawnChildren
  split_ifs
  · rcases represents.threads with ⟨addresses, lists, threads⟩
    have ring := threads.rings.ring (threads.children held)
    rw [ring.first_eq]
    apply @Represents.spawnLoop setup parent (vm.info parent).list [] _ machine vm represents held rfl
    have nodup : ((vm.info parent).list).Nodup :=
      List.Nodup.of_map _ (List.nodup_cons.mp ring.nodup).2
    have subset : (vm.info parent).list ⊆ List.range setup.profile.processes.length :=
      fun child member => List.mem_range.mpr (threads.known parent child member)
    have bound := (List.Nodup.subperm nodup subset).length_le
    rw [List.length_range] at bound
    exact Nat.lt_succ_of_le bound
  · exact .some represents

/-! ## Sleeping and waking up -/

theorem Threads.enlist (threads : Threads profile vm machine addresses lists) (task : Task)
    {address : Nat} (fresh : address ∉ addresses) :
    ∃ links, listAddTail (initListHead machine.links (.waitlist address)) (.waitlist address)
        .intwaitlist = some links ∧
      ∃ lists, Threads profile { vm with intwaitlist := vm.intwaitlist ++ [task] }
        { machine with
          links := links
          waits := Function.update machine.waits address task
          waitlists := address :: machine.waitlists }
        (addresses ++ [address]) lists := by
  have notListed : ¬ Listed lists (.waitlist address) := by
    intro listed
    rcases threads.listed listed with ⟨other, member, same⟩ | ⟨_, _, _, _, same⟩
    · exact fresh (waitlist_injective same ▸ member)
    · cases same
  have initialized := initListHead_rings threads.rings notListed
  have isList : Function.update lists (.waitlist address) (some []) Entry.intwaitlist =
      some (addresses.map .waitlist) := by
    rw [Function.update_of_ne (by simp), threads.sleepers]
  have notListed' : ¬ Listed (Function.update lists (.waitlist address) (some []))
      (.waitlist address) := by
    rintro ⟨head, behind, isList', inside⟩
    by_cases isNew : head = .waitlist address
    · rw [isNew, Function.update_self, Option.some.injEq] at isList'
      rw [← isList'] at inside
      cases inside
    · rw [Function.update_of_ne isNew] at isList'
      exact notListed ⟨head, behind, isList', inside⟩
  rcases listAddTail_rings initialized isList notListed' (by simp) with ⟨links, added, rings⟩
  refine ⟨links, added, _, rings, ?_, ?_, ?_, ?_, ?_, threads.known⟩
  · rw [withEntry, Function.update_self, isList, Option.map_some, List.map_append, List.map_singleton]
  · have others : addresses.map (Function.update machine.waits address task) =
        addresses.map machine.waits := by
      apply List.map_congr_left
      intro other member
      apply Function.update_of_ne
      rintro rfl
      exact fresh member
    change (addresses ++ [address]).map (Function.update machine.waits address task) =
      vm.intwaitlist ++ [task]
    rw [List.map_append, others, threads.asleep, List.map_singleton, Function.update_self]
  · exact (threads.allocated.cons address).trans (List.perm_append_singleton address addresses).symm
  · intro other held
    rw [withEntry, Function.update_of_ne (by simp), Function.update_of_ne (by simp),
      Function.update_of_ne (by simp)]
    exact threads.children held
  · intro head behind isList'
    by_cases isWait : head = .intwaitlist
    · exact .inl isWait
    · rw [withEntry, Function.update_of_ne isWait] at isList'
      by_cases isNew : head = .waitlist address
      · rw [isNew, Function.update_self] at isList'
        cases isList'
      · rw [Function.update_of_ne isNew, Function.update_of_ne isNew] at isList'
        exact threads.heads isList'

theorem Represents.goToSleep (represents : Represents profile machine vm) :
    Option.Rel (Represents profile) (Linked.goToSleep memory machine) (Vsched.goToSleep vm) := by
  rcases represents.threads with ⟨addresses, lists, threads⟩
  obtain ⟨address, isAddress⟩ : ∃ address,
    address = memory.malloc machine.vm.clocktick machine.waitlists := ⟨_, rfl⟩
  have fresh : address ∉ addresses := fun member =>
    memory.fresh _ machine.waitlists (isAddress ▸ threads.allocated.mem_iff.mpr member)
  rcases threads.enlist vm.current fresh with ⟨links, added, lists', threads'⟩
  obtain ⟨ticked, isTicked⟩ : ∃ ticked, ticked = ({ vm with
    intWaitTimer := vm.intWaitTimer - 1
    intwaitlist := vm.intwaitlist ++ [vm.current] } : Vm) := ⟨_, rfl⟩
  have there : Vsched.goToSleep vm = (deactivateTask ticked ticked.current).bind fun left =>
      some (left.setTask left.current fun t => { t with needReschedule := true }) := by
    rw [isTicked]
    rfl
  have here : Linked.goToSleep memory machine =
      (deactivateTask (ticked.withLists [] fun _ => []) ticked.current).bind fun left =>
        some {
          vm := left.setTask ticked.current fun t => { t with needReschedule := true }
          links := links
          waits := Function.update machine.waits address vm.current
          waitlists := address :: machine.waitlists } := by
    rw [Linked.goToSleep, ← isAddress, added, represents.blank, isTicked]
    rfl
  have ignores : deactivateTask (ticked.withLists [] fun _ => []) ticked.current =
      (deactivateTask ticked ticked.current).map fun vm => vm.withLists [] fun _ => [] :=
    deactivateTask_ignoresLists ticked [] _
  rw [here, there, ignores]
  cases done : deactivateTask ticked ticked.current with
  | none => exact .none
  | some left =>
      have timeless := deactivateTask_timeless done
      rcases deactivateTask_ignoresLists.keeps done with ⟨asleep, list⟩
      apply Option.Rel.some
      rw [← timeless.passes.current]
      refine ⟨rfl, _, lists', threads'.frame rfl rfl rfl ?_ ?_ ?_⟩
      · exact asleep.trans (by rw [isTicked])
      · exact fun task => (list task).trans (by rw [isTicked])
      · exact timeless.passes.killed.trans (by rw [isTicked])

theorem Represents.tickSleep (represents : Represents profile machine vm) :
    Option.Rel (Represents profile) (Linked.tickSleep memory machine) (Vsched.tickSleep vm) := by
  rcases intWaitTimer_counts vm with ⟨intWaitTimer, ticked⟩
  have ticked' : (if machine.vm.intWaitTimer > 0 then
      { machine.vm with intWaitTimer := machine.vm.intWaitTimer - 1 } else machine.vm) =
        ({ vm with intWaitTimer := intWaitTimer } : Vm).withLists [] fun _ => [] := by
    rw [← ticked, represents.blank]
    by_cases running : vm.intWaitTimer > 0
    · have running' : (vm.withLists [] fun _ => []).intWaitTimer > 0 := running
      rw [if_pos running, if_pos running']
      rfl
    · have expired : ¬ (vm.withLists [] fun _ => []).intWaitTimer > 0 := running
      rw [if_neg running, if_neg expired]
  have represents' := @Represents.frame profile machine vm { vm with intWaitTimer := intWaitTimer }
    represents rfl (fun _ => rfl) rfl
  have timer : (({ vm with intWaitTimer := intWaitTimer } : Vm).withLists [] fun _ => []).intWaitTimer =
      intWaitTimer := rfl
  simp only [Linked.tickSleep, Vsched.tickSleep, ticked, ticked', timer]
  split_ifs
  · exact represents'.goToSleep
  · exact .some represents'

theorem free_rings {links : Links Entry} {entry : Entry} (rings : Rings links.next links.prev lists)
    (notListed : ¬ Listed lists entry) (notHead : lists entry = none) :
    Rings (Linked.free links entry).next (Linked.free links entry).prev lists := by
  apply rings.elsewhere
  intro head behind isList element inside
  have away : element ≠ entry := by
    rintro rfl
    rcases List.mem_cons.mp inside with rfl | later
    · rw [notHead] at isList
      cases isList
    · exact notListed ⟨head, behind, isList, later⟩
  exact ⟨Function.update_of_ne away .., Function.update_of_ne away ..⟩

theorem Threads.delist {address : Nat} {rest : List Nat}
    (threads : Threads profile vm machine (address :: rest) lists) :
    ∃ links, listDel machine.links (.waitlist address) = some links ∧
      Threads profile { vm with intwaitlist := vm.intwaitlist.erase (machine.waits address) }
        { machine with
          links := Linked.free links (.waitlist address)
          waitlists := machine.waitlists.erase address }
        rest (without lists (.waitlist address)) := by
  have inside : Entry.waitlist address ∈ (address :: rest).map Entry.waitlist := by simp
  have listed : Listed lists (.waitlist address) := ⟨_, _, threads.sleepers, inside⟩
  rcases listDel_rings threads.rings listed with ⟨links, deleted, rings⟩
  have notHead : without lists (.waitlist address) (.waitlist address) = none := by
    cases isList : lists (.waitlist address) with
    | none => rw [without, isList, Option.map_none]
    | some behind => exact absurd rfl (threads.rings.ne_head threads.sleepers inside isList)
  refine ⟨links, deleted, free_rings rings (not_listed_without threads.rings listed) notHead,
    ?_, ?_, ?_, ?_, ?_, threads.known⟩
  · rw [without, threads.sleepers, Option.map_some, List.map_cons, List.erase_cons_head]
  · change rest.map machine.waits = vm.intwaitlist.erase (machine.waits address)
    rw [← threads.asleep, List.map_cons, List.erase_cons_head]
  · have erased := threads.allocated.erase address
    rwa [List.erase_cons_head] at erased
  · intro task held
    have held' : Held profile vm task := held
    rw [without, threads.children held', Option.map_some, List.erase_of_not_mem (by simp)]
  · intro head behind isList
    rcases Option.map_eq_some_iff.mp isList with ⟨behind', isList', -⟩
    exact threads.heads isList'

theorem Threads.wakeLoop (addresses : List Nat) :
    ∀ {fuel : Nat} {machine : Machine} {vm : Vm} {lists : Contents Entry},
      machine.vm = vm.withLists [] (fun _ => []) → Threads profile vm machine addresses lists →
      addresses.length < fuel →
      Option.Rel (Represents profile)
        (Linked.wakeLoop setup fuel (some ((addresses.map Entry.waitlist).headD .intwaitlist)) machine)
        (wakeAll setup (addresses.map machine.waits) vm) := by
  induction addresses with
  | nil =>
      intro fuel machine vm lists blank threads enough
      rcases Nat.exists_eq_add_one_of_ne_zero (Nat.ne_of_gt enough) with ⟨fuel, rfl⟩
      simp only [Linked.wakeLoop, List.map_nil, List.headD_nil, if_true]
      exact .some ⟨blank, [], lists, threads⟩
  | cons address rest induction =>
      intro fuel machine vm lists blank threads enough
      rcases Nat.exists_eq_add_one_of_ne_zero (Nat.ne_of_gt (Nat.zero_lt_of_lt enough)) with
        ⟨fuel, rfl⟩
      have isList := threads.sleepers
      have ring := threads.rings.ring isList
      have following : machine.links.next (.waitlist address) =
          some ((rest.map Entry.waitlist).headD .intwaitlist) :=
        @Ring.next_eq _ _ _ Entry.intwaitlist (.waitlist address) [] (rest.map .waitlist) ring
      have ignores : activateTask setup (vm.withLists [] fun _ => []) (machine.waits address) =
          (activateTask setup vm (machine.waits address)).map fun vm => vm.withLists [] fun _ => [] :=
        enqueue_ignoresLists (machine.waits address) vm [] _
      have notEnd : ¬ some (Entry.waitlist address) = some Entry.intwaitlist := by simp
      simp only [Linked.wakeLoop, wakeAll, List.map_cons, List.headD_cons, notEnd, if_false, blank,
        ignores]
      cases woken : activateTask setup vm (machine.waits address) with
      | none => exact .none
      | some next =>
          rcases (enqueue_ignoresLists (machine.waits address)).keeps woken with ⟨asleep, list⟩
          have threads' : Threads profile next
              { machine with vm := next.withLists [] fun _ => [] } (address :: rest) lists :=
            threads.frame rfl rfl rfl asleep list (enqueue_timeless woken).passes.killed
          rcases threads'.delist with ⟨links, deleted, threads''⟩
          simp only [Option.map_some, Option.bind_eq_bind, Option.bind_some, following]
          rw [deleted, Option.bind_some]
          exact induction rfl threads'' (Nat.lt_of_succ_lt_succ enough)

theorem Represents.ioEvent (represents : Represents profile machine vm) :
    Option.Rel (Represents profile) (Linked.ioEvent setup machine) (Vsched.ioEvent setup vm) := by
  rcases intTimer_counts vm with ⟨intTimer, ticked, -⟩
  have ticked' : (if machine.vm.intTimer > 0 then
      { machine.vm with intTimer := machine.vm.intTimer - 1 } else machine.vm) =
        ({ vm with intTimer := intTimer } : Vm).withLists [] fun _ => [] := by
    rw [← ticked, represents.blank]
    by_cases running : vm.intTimer > 0
    · have running' : (vm.withLists [] fun _ => []).intTimer > 0 := running
      rw [if_pos running, if_pos running']
      rfl
    · have expired : ¬ (vm.withLists [] fun _ => []).intTimer > 0 := running
      rw [if_neg running, if_neg expired]
  have timer : (({ vm with intTimer := intTimer } : Vm).withLists [] fun _ => []).intTimer =
      intTimer := rfl
  simp only [Linked.ioEvent, Vsched.ioEvent, ticked, ticked', timer]
  split_ifs
  · rcases represents.threads with ⟨addresses, lists, threads⟩
    have threads' : Threads profile { vm with intTimer := intTimer - 1 }
        { machine with vm := ({ vm with intTimer := intTimer - 1 } : Vm).withLists [] fun _ => [] }
        addresses lists := threads.frame rfl rfl rfl rfl (fun _ => rfl) rfl
    have first := (threads.rings.ring threads.sleepers).first_eq
    have enough : addresses.length < machine.waitlists.length + 1 := by
      rw [threads.allocated.length_eq]
      exact Nat.lt_succ_self _
    have woken := @Threads.wakeLoop setup profile addresses _ _ _ _ rfl threads' enough
    change Option.Rel _ _ (wakeAll setup (addresses.map machine.waits) _) at woken
    rw [threads.asleep] at woken
    rw [first]
    apply rel_bind woken
    intro machine' vm' represents' _
    have current : machine'.vm.current = vm'.current := by
      rw [represents'.blank]
      rfl
    apply Option.Rel.some
    rw [current, represents'.blank, setTask_withLists]
    exact represents'.frame rfl (fun _ => rfl) rfl
  · exact .some (represents.frame rfl (fun _ => rfl) rfl)

/-! ## A cycle -/

/-- The current task is in memory, and was forked long ago. -/
structure Running (profile : Profile) (vm : Vm) : Prop where
  held : Held profile vm vm.current
  forked : ∀ index task, vm.current = .process index → index ∉ (vm.info task).list

theorem Running.frame (running : Running profile vm) (current : vm'.current = vm.current)
    (list : ∀ task, (vm'.info task).list = (vm.info task).list) (killed : vm'.killed = vm.killed) :
    Running profile vm' where
  held := ⟨current ▸ running.held.1, by rw [current, killed]; exact running.held.2⟩
  forked := by
    intro index task isCurrent
    rw [list]
    exact running.forked index task (current ▸ isCurrent)

theorem Threads.bury (threads : Threads profile vm machine addresses lists) {index : Nat}
    (forked : ∀ task, index ∉ (vm.info task).list) (asleep : vm'.intwaitlist = vm.intwaitlist)
    (list : ∀ task, (vm'.info task).list = (vm.info task).list)
    (killed : vm'.killed = .process index :: vm.killed) :
    Threads profile vm'
      { machine with
        vm := vm'.withLists [] fun _ => []
        links := Linked.free (Linked.free machine.links (.list (.process index))) (.clist index) }
      addresses (Function.update lists (.list (.process index)) none) := by
  have listed : ∀ {entry : Entry},
      Listed (Function.update lists (.list (.process index)) none) entry → Listed lists entry := by
    rintro entry ⟨head, behind, isList, inside⟩
    by_cases isGone : head = .list (.process index)
    · rw [isGone, Function.update_self] at isList
      cases isList
    · rw [Function.update_of_ne isGone] at isList
      exact ⟨head, behind, isList, inside⟩
  have given := threads.rings.giveUp (.list (.process index))
  refine ⟨free_rings (free_rings given ?_ (Function.update_self ..)) ?_ ?_, ?_, ?_,
    threads.allocated, ?_, ?_, ?_⟩
  · intro isListed
    rcases threads.listed (listed isListed) with ⟨_, _, same⟩ | ⟨_, _, _, _, same⟩
    · cases same
    · cases same
  · intro isListed
    rcases threads.listed (listed isListed) with ⟨_, _, same⟩ | ⟨task, _, child, member, same⟩
    · cases same
    · exact forked task (clist_injective same ▸ member)
  · rw [Function.update_of_ne (by simp)]
    cases isList : lists (.clist index) with
    | none => rfl
    | some behind =>
        rcases threads.heads isList with same | ⟨task, -, same⟩
        · cases same
        · cases same
  · rw [Function.update_of_ne (by simp), threads.sleepers]
  · exact threads.asleep.trans asleep.symm
  · intro task held
    have away : task ≠ .process index := by
      rintro rfl
      rcases held.2 with isInit | alive
      · cases isInit
      · exact alive (killed ▸ List.mem_cons_self)
    have held' : Held profile vm task :=
      ⟨held.1, held.2.imp_right fun alive member => alive (killed ▸ List.mem_cons_of_mem _ member)⟩
    rw [Function.update_of_ne (by simpa using away), list, threads.children held']
  · intro head behind isList
    by_cases isGone : head = .list (.process index)
    · rw [isGone, Function.update_self] at isList
      cases isList
    · rw [Function.update_of_ne isGone] at isList
      rcases threads.heads isList with isWait | ⟨task, held, isTask⟩
      · exact .inl isWait
      · refine .inr ⟨task, ⟨held.1, held.2.imp_right fun alive => ?_⟩, isTask⟩
        rw [killed, List.mem_cons, not_or]
        exact ⟨fun same => isGone (by rw [isTask, same]), alive⟩
  · exact fun task child member => threads.known task child (list task ▸ member)

/-- Init keeps its `thread_info` when it is killed. -/
theorem Threads.retire (threads : Threads profile vm machine addresses lists)
    (asleep : vm'.intwaitlist = vm.intwaitlist)
    (list : ∀ task, (vm'.info task).list = (vm.info task).list)
    (killed : vm'.killed = .init :: vm.killed) :
    Threads profile vm' { machine with vm := vm'.withLists [] fun _ => [] } addresses lists := by
  have same : ∀ task, Held profile vm' task ↔ Held profile vm task := by
    intro task
    by_cases isInit : task = .init
    · simp [Held, isInit]
    · simp [Held, isInit, killed]
  refine ⟨threads.rings, threads.sleepers, threads.asleep.trans asleep.symm, threads.allocated,
    ?_, ?_, ?_⟩
  · intro task held
    rw [list, threads.children ((same task).mp held)]
  · intro head behind isList
    rcases threads.heads isList with isWait | ⟨task, held, isTask⟩
    · exact .inl isWait
    · exact .inr ⟨task, (same task).mpr held, isTask⟩
  · exact fun task child member => threads.known task child (list task ▸ member)

theorem taskEnd_keeps {result : Bool × Vm} (done : Vsched.taskEnd setup vm = some result) :
    result.2.intwaitlist = vm.intwaitlist ∧
      ∀ task, (result.2.info task).list = (vm.info task).list := by
  have same := @taskEnd_withLists setup vm vm.intwaitlist fun task => (vm.info task).list
  rw [withLists_self, done, Option.map_some, Option.some.injEq] at same
  exact lists_of_withLists (congrArg Prod.snd same)

/-- A task that ends, or goes on. -/
def Same (profile : Profile) (result : Bool × Machine) (result' : Bool × Vm) : Prop :=
  result.1 = result'.1 ∧ Represents profile result.2 result'.2

theorem Represents.taskEnd (represents : Represents setup.profile machine vm)
    (running : Running setup.profile vm) :
    Option.Rel (Same setup.profile) (Linked.taskEnd setup machine) (Vsched.taskEnd setup vm) := by
  have ends := @taskEnd_withLists setup vm [] fun _ => []
  simp only [Linked.taskEnd, represents.blank, withLists_current]
  rw [ends]
  cases done : Vsched.taskEnd setup vm with
  | none => exact .none
  | some result =>
      have outcome := (taskEnd_ends done).1
      rcases taskEnd_keeps done with ⟨asleep, list⟩
      rcases result with ⟨ended, vm'⟩
      simp only [Option.map_some, Option.bind_eq_bind, Option.bind_some]
      cases ended with
      | false =>
          exact .some ⟨rfl, represents.frame asleep list outcome.timeless.passes.killed⟩
      | true =>
          have killed := outcome.died.killed
          rcases represents.threads with ⟨addresses, lists, threads⟩
          cases isTask : vm.current with
          | idle =>
              have known := running.held.1
              rw [isTask] at known
              simp [Profile.tasks] at known
          | init =>
              rw [isTask] at killed
              exact .some ⟨rfl, rfl, addresses, lists, threads.retire asleep list killed⟩
          | process index =>
              rw [isTask] at killed
              exact .some ⟨rfl, rfl, addresses, _, threads.bury
                (fun task => running.forked index task isTask) asleep list killed⟩

theorem Represents.work (represents : Represents setup.profile machine vm)
    (running : Running setup.profile vm) :
    Option.Rel (Same setup.profile) (Linked.work setup machine) (Vsched.work setup vm) := by
  have there : Vsched.work setup vm =
      if ((worked vm).info (worked vm).current).workDuration = 0 then
        Vsched.taskEnd setup (worked vm)
      else some (false, worked vm) := rfl
  have here : Linked.work setup machine =
      if ((worked machine.vm).info (worked machine.vm).current).workDuration = 0 then
        Linked.taskEnd setup { machine with vm := worked machine.vm }
      else some (false, { machine with vm := worked machine.vm }) := rfl
  have current : (worked vm).current = vm.current := by
    unfold worked
    split_ifs <;> rfl
  have killed : (worked vm).killed = vm.killed := by
    unfold worked
    split_ifs <;> rfl
  have same := @worked_withLists vm vm.intwaitlist fun task => (vm.info task).list
  rw [withLists_self] at same
  rcases lists_of_withLists same with ⟨asleep, list⟩
  have represents' := represents.frame asleep list killed
  have duration : (((worked vm).withLists [] fun _ => []).info
      ((worked vm).withLists [] fun _ => []).current).workDuration =
        ((worked vm).info (worked vm).current).workDuration := rfl
  rw [here, there, represents.blank, worked_withLists, duration]
  split_ifs
  · exact represents'.taskEnd (running.frame current list killed)
  · exact .some ⟨rfl, represents'⟩

end

end CE321.Vsched
