import CE321.Lists.ListHead

/-! # Runs of list operations

Any operations of `list.h` one after the other, and the loops over a list that delete some of
its entries.
-/

namespace CE321.Lists

variable {Node : Type} [DecidableEq Node]

inductive Operation (Node : Type) where
  | initListHead (ptr : Node)
  | listAdd (new head : Node)
  | listAddTail (new head : Node)
  | listDel (entry : Node)
  | listDelInit (entry : Node)
  | listMove (list head : Node)
  | listMoveTail (list head : Node)
  | listSplice (list head : Node)
  | listSpliceInit (list head : Node)

def perform (links : Links Node) : Operation Node → Option (Links Node)
  | .initListHead ptr => some (initListHead links ptr)
  | .listAdd new head => listAdd links new head
  | .listAddTail new head => listAddTail links new head
  | .listDel entry => listDel links entry
  | .listDelInit entry => listDelInit links entry
  | .listMove list head => listMove links list head
  | .listMoveTail list head => listMoveTail links list head
  | .listSplice list head => listSplice links list head
  | .listSpliceInit list head => listSpliceInit links list head

/-- What an operation is meant to do to the lists. -/
def effect (lists : Contents Node) : Operation Node → Contents Node
  | .initListHead ptr => Function.update lists ptr (some [])
  | .listAdd new head => withEntry lists new head (new :: ·)
  | .listAddTail new head => withEntry lists new head (· ++ [new])
  | .listDel entry => without lists entry
  | .listDelInit entry => Function.update (without lists entry) entry (some [])
  | .listMove list head => withEntry (without lists list) list head (list :: ·)
  | .listMoveTail list head => withEntry (without lists list) list head (· ++ [list])
  | .listSplice list head =>
      if lists list = some [] then lists
      else Function.update (Function.update lists list none) head
        ((lists head).map fun behind => (lists list).getD [] ++ behind)
  | .listSpliceInit list head =>
      Function.update (Function.update lists list (some [])) head
        ((lists head).map fun behind => (lists list).getD [] ++ behind)

/-- What the callers of an operation see to. -/
def Legal (lists : Contents Node) : Operation Node → Prop
  | .initListHead ptr => ¬ Listed lists ptr
  | .listAdd new head => lists head ≠ none ∧ ¬ Listed lists new ∧ new ≠ head
  | .listAddTail new head => lists head ≠ none ∧ ¬ Listed lists new ∧ new ≠ head
  | .listDel entry => Listed lists entry
  | .listDelInit entry => Listed lists entry
  | .listMove list head => lists head ≠ none ∧ Listed lists list
  | .listMoveTail list head => lists head ≠ none ∧ Listed lists list
  | .listSplice list head => lists head ≠ none ∧ lists list ≠ none ∧ list ≠ head
  | .listSpliceInit list head => lists head ≠ none ∧ lists list ≠ none ∧ list ≠ head

theorem perform_rings {links : Links Node} {lists : Contents Node}
    (rings : Rings links.next links.prev lists) (operation : Operation Node)
    (legal : Legal lists operation) :
    ∃ links', perform links operation = some links' ∧
      Rings links'.next links'.prev (effect lists operation) := by
  cases operation with
  | initListHead ptr => exact ⟨_, rfl, initListHead_rings rings legal⟩
  | listAdd new head =>
      rcases legal with ⟨isHead, free, different⟩
      rcases Option.ne_none_iff_exists'.mp isHead with ⟨behind, isList⟩
      exact listAdd_rings rings isList free different
  | listAddTail new head =>
      rcases legal with ⟨isHead, free, different⟩
      rcases Option.ne_none_iff_exists'.mp isHead with ⟨behind, isList⟩
      exact listAddTail_rings rings isList free different
  | listDel entry => exact listDel_rings rings legal
  | listDelInit entry => exact listDelInit_rings rings legal
  | listMove list head =>
      rcases Option.ne_none_iff_exists'.mp legal.1 with ⟨behind, isList⟩
      exact listMove_rings rings legal.2 isList
  | listMoveTail list head =>
      rcases Option.ne_none_iff_exists'.mp legal.1 with ⟨behind, isList⟩
      exact listMoveTail_rings rings legal.2 isList
  | listSplice list head =>
      rcases legal with ⟨isHead, isHead', different⟩
      rcases Option.ne_none_iff_exists'.mp isHead with ⟨behind, isList⟩
      rcases Option.ne_none_iff_exists'.mp isHead' with ⟨inner, isInner⟩
      simp only [perform, effect, listSplice, listEmpty_iff rings isInner, isInner, isList,
        Option.some.injEq]
      split
      · exact ⟨links, rfl, rings⟩
      · exact listSplice_between rings isInner ‹_› isList different
  | listSpliceInit list head =>
      rcases legal with ⟨isHead, isHead', different⟩
      rcases Option.ne_none_iff_exists'.mp isHead with ⟨behind, isList⟩
      rcases Option.ne_none_iff_exists'.mp isHead' with ⟨inner, isInner⟩
      simp only [effect, isInner, isList]
      exact listSpliceInit_rings rings isInner isList different

/-! ## Runs -/

def performAll (links : Links Node) : List (Operation Node) → Option (Links Node)
  | [] => some links
  | operation :: rest => do
      let links ← perform links operation
      performAll links rest

def effects (lists : Contents Node) : List (Operation Node) → Contents Node
  | [] => lists
  | operation :: rest => effects (effect lists operation) rest

def AllLegal (lists : Contents Node) : List (Operation Node) → Prop
  | [] => True
  | operation :: rest => Legal lists operation ∧ AllLegal (effect lists operation) rest

theorem performAll_rings (operations : List (Operation Node)) :
    ∀ {links : Links Node} {lists : Contents Node}, Rings links.next links.prev lists →
      AllLegal lists operations → ∃ links', performAll links operations = some links' ∧
        Rings links'.next links'.prev (effects lists operations) := by
  induction operations with
  | nil => exact fun rings _ => ⟨_, rfl, rings⟩
  | cons operation rest induction =>
      intro links lists rings legal
      rcases perform_rings rings operation legal.1 with ⟨links', performed, rings'⟩
      rcases induction rings' legal.2 with ⟨links'', performed', rings''⟩
      exact ⟨links'', by rw [performAll, performed]; exact performed', rings''⟩

/-- Whatever the links hold at first, legal operations never dereference NULL, and the lists
can be read off the links afterwards, from both ends. -/
theorem lists_of_run (links : Links Node) (operations : List (Operation Node))
    (legal : AllLegal (fun _ => none) operations) :
    ∃ links', performAll links operations = some links' ∧
      ∀ head behind, effects (fun _ => none) operations head = some behind →
        (listEmpty links' head = true ↔ behind = []) ∧
        ∀ fuel, behind.length < fuel → listForEach links' head fuel = some behind ∧
          listForEachPrev links' head fuel = some behind.reverse := by
  rcases performAll_rings operations (rings_none links.next links.prev) legal with
    ⟨links', performed, rings⟩
  refine ⟨links', performed, fun head behind isList => ⟨listEmpty_iff rings isList, ?_⟩⟩
  intro fuel enough
  have ring := rings.ring isList
  exact ⟨ring.walk enough, ring.reverse.walk (by rwa [List.length_reverse])⟩

/-- Two lists, of which one is put behind the other's head, and an entry that is taken out. -/
theorem lists_of_run_small :
    ∃ links' : Links Nat,
      performAll ⟨fun _ => none, fun _ => none⟩ [.initListHead 0, .initListHead 1, .listAddTail 2 0,
        .listAdd 3 0, .listAdd 4 1, .listSpliceInit 0 1, .listDel 2] = some links' ∧
      listForEach links' 1 3 = some [3, 4] ∧ listForEachPrev links' 1 3 = some [4, 3] ∧
      listEmpty links' 0 = true := by
  have legal : AllLegal (fun _ => none) [.initListHead 0, .initListHead 1, .listAddTail 2 0,
      .listAdd 3 0, .listAdd 4 1, .listSpliceInit 0 1, .listDel 2] := by
    simp [AllLegal, Legal, Listed, effect, withEntry, Function.update_apply]
    exact ⟨by grind, by grind, by grind, 1, _, rfl, by simp⟩
  rcases lists_of_run ⟨fun _ => none, fun _ => none⟩ _ legal with ⟨links', performed, lists⟩
  refine ⟨links', performed, ?_, ?_, ?_⟩
  · exact ((lists 1 [3, 4] rfl).2 3 (by decide)).1
  · exact ((lists 1 [3, 4] rfl).2 3 (by decide)).2
  · exact (lists 0 [] rfl).1.mpr rfl

/-! ## Loops -/

section

variable {State : Type}

/-- `list_for_each` with its body, from the entry `pos` on. -/
def listForEachDo (links : State → Links Node) (body : State → Node → Option State) (head : Node) :
    (fuel : Nat) → (pos : Option Node) → State → Option State
  | 0, _, _ => none
  | fuel + 1, pos, state =>
      if pos = some head then some state
      else do
        let entry ← pos
        let state ← body state entry
        listForEachDo links body head fuel ((links state).next entry) state

/-- `list_for_each_safe` with its body, from the entry `pos` on. The entry behind it is read
before the body runs. -/
def listForEachSafeDo (links : State → Links Node) (body : State → Node → Option State)
    (head : Node) : (fuel : Nat) → (pos : Option Node) → State → Option State
  | 0, _, _ => none
  | fuel + 1, pos, state => do
      let entry ← pos
      let n := (links state).next entry
      if entry = head then pure state
      else
        let state ← body state entry
        listForEachSafeDo links body head fuel n state

/-- The body of a loop that deletes the entries of a kind and notes down those that it is
run on. -/
def deleting (kind : Node → Bool) (state : Links Node × List Node) (entry : Node) :
    Option (Links Node × List Node) := do
  let links ← if kind entry then listDel state.1 entry else some state.1
  pure (links, state.2 ++ [entry])

/-- The safe loop is at an entry, the list has the entries before it that are kept. -/
theorem listForEachSafeDo_deleting (kind : Node → Bool) {lists : Contents Node} {head : Node}
    (behind : List Node) :
    ∀ (fuel : Nat) (links : Links Node) (kept visited : List Node),
      Rings links.next links.prev (Function.update lists head (some (kept ++ behind))) →
      behind.length < fuel →
      ∃ links', listForEachSafeDo Prod.fst (deleting kind) head fuel (some (behind.headD head))
          (links, visited) = some (links', visited ++ behind) ∧
        Rings links'.next links'.prev
          (Function.update lists head (some (kept ++ behind.filter (!kind ·)))) := by
  induction behind with
  | nil =>
      intro fuel links kept visited rings enough
      rcases Nat.exists_eq_add_one_of_ne_zero (Nat.ne_of_gt enough) with ⟨fuel, rfl⟩
      refine ⟨links, ?_, rings⟩
      simp [listForEachSafeDo]
  | cons entry behind induction =>
      intro fuel links kept visited rings enough
      rcases Nat.exists_eq_add_one_of_ne_zero (Nat.ne_of_gt (Nat.zero_lt_of_lt enough)) with
        ⟨fuel, rfl⟩
      have isList := Function.update_self head (some (kept ++ entry :: behind)) lists
      have inside : entry ∈ kept ++ entry :: behind := by simp
      have notHead : entry ≠ head := rings.ne_head isList inside isList
      have following := (rings.ring isList).next_eq
      have enough' : behind.length < fuel := Nat.lt_of_succ_lt_succ enough
      cases isKind : kind entry with
      | false =>
          rcases induction fuel links (kept ++ [entry]) (visited ++ [entry])
            (by rwa [List.append_assoc]) enough' with ⟨links', looped, rings'⟩
          refine ⟨links', ?_, ?_⟩
          · simp only [listForEachSafeDo, List.headD_cons, following, Option.bind_eq_bind,
              Option.bind_some, if_neg notHead, deleting, isKind, Bool.false_eq_true, if_false]
            rw [Option.pure_def, Option.bind_some, looped, List.append_assoc]
            rfl
          · rw [List.filter_cons_of_pos (by simp [isKind])]
            rwa [List.append_assoc] at rings'
      | true =>
          have listed : Listed (Function.update lists head (some (kept ++ entry :: behind))) entry :=
            ⟨head, _, isList, inside⟩
          rcases listDel_rings rings listed with ⟨links₁, deleted, rings₁⟩
          have away : entry ∉ kept := fun early =>
            (List.nodup_append.mp (List.nodup_cons.mp (rings.ring isList).nodup).2).2.2 entry early
              entry List.mem_cons_self rfl
          rw [without_eq rings isList inside, List.erase_append_right _ away, List.erase_cons_head,
            Function.update_idem] at rings₁
          rcases induction fuel links₁ kept (visited ++ [entry]) rings₁ enough' with
            ⟨links', looped, rings'⟩
          refine ⟨links', ?_, ?_⟩
          · simp only [listForEachSafeDo, List.headD_cons, following, Option.bind_eq_bind,
              Option.bind_some, if_neg notHead, deleting, isKind, if_true, deleted]
            rw [Option.pure_def, Option.bind_some, looped, List.append_assoc]
            rfl
          · rwa [List.filter_cons_of_neg (by simp [isKind])]

/-- The plain loop gets through a list only if its body deletes nothing. -/
theorem listForEachDo_deleting (kind : Node → Bool) {links : Links Node} {lists : Contents Node}
    {head : Node} (behind : List Node) :
    ∀ (fuel : Nat) (kept visited : List Node), Rings links.next links.prev lists →
      lists head = some (kept ++ behind) → behind.length < fuel →
      listForEachDo Prod.fst (deleting kind) head fuel (some (behind.headD head))
          (links, visited) =
        if ∀ entry ∈ behind, kind entry = false then some (links, visited ++ behind) else none := by
  induction behind with
  | nil =>
      intro fuel kept visited rings isList enough
      rcases Nat.exists_eq_add_one_of_ne_zero (Nat.ne_of_gt enough) with ⟨fuel, rfl⟩
      simp [listForEachDo]
  | cons entry behind induction =>
      intro fuel kept visited rings isList enough
      rcases Nat.exists_eq_add_one_of_ne_zero (Nat.ne_of_gt (Nat.zero_lt_of_lt enough)) with
        ⟨fuel, rfl⟩
      have inside : entry ∈ kept ++ entry :: behind := by simp
      have notHead : entry ≠ head := rings.ne_head isList inside isList
      have following := (rings.ring isList).next_eq
      have enough' : behind.length < fuel := Nat.lt_of_succ_lt_succ enough
      cases isKind : kind entry with
      | false =>
          have rest := induction fuel (kept ++ [entry]) (visited ++ [entry]) rings
            (by rwa [List.append_assoc]) enough'
          simp only [listForEachDo, List.headD_cons, Option.some.injEq, if_neg notHead,
            Option.bind_eq_bind, Option.bind_some, deleting, isKind, Bool.false_eq_true, if_false]
          rw [Option.pure_def, Option.bind_some]
          change listForEachDo Prod.fst (deleting kind) head fuel (links.next entry) _ = _
          rw [following, rest]
          simp [isKind]
      | true =>
          rcases listDel_rings rings ⟨head, _, isList, inside⟩ with ⟨links', deleted, -⟩
          have cleared : links'.next entry = none := by
            rcases Option.bind_eq_some_iff.mp deleted with ⟨between, -, done⟩
            rw [← Option.some.inj done]
            exact Function.update_self ..
          have stuck : listForEachDo Prod.fst (deleting kind) head fuel none
              (links', visited ++ [entry]) = none := by
            cases fuel with
            | zero => rfl
            | succ fuel => rfl
          simp only [listForEachDo, List.headD_cons, Option.some.injEq, if_neg notHead,
            Option.bind_eq_bind, Option.bind_some, deleting, isKind, if_true, deleted]
          rw [Option.pure_def, Option.bind_some, cleared, stuck]
          simp [isKind]

end

/-- `list_for_each_safe` is safe against the deletion of entries: it comes to every entry once
and in order, those that are not deleted stay, and so do the other lists. `list_for_each` is
not: it gets through exactly the lists of which it deletes nothing. -/
theorem loops_of_run (links : Links Node) (operations : List (Operation Node))
    (legal : AllLegal (fun _ => none) operations) (kind : Node → Bool) :
    ∃ links', performAll links operations = some links' ∧
      ∀ head behind, effects (fun _ => none) operations head = some behind →
        ∀ fuel, behind.length < fuel →
          (∃ links'', listForEachSafeDo Prod.fst (deleting kind) head fuel (links'.next head)
              (links', []) = some (links'', behind) ∧
            ∀ second behind', effects (fun _ => none) operations second = some behind' →
              ∀ fuel', behind'.length < fuel' → listForEach links'' second fuel' =
                some (if second = head then behind.filter (!kind ·) else behind')) ∧
          ((listForEachDo Prod.fst (deleting kind) head fuel (links'.next head)
              (links', [])).isSome ↔ ∀ entry ∈ behind, kind entry = false) := by
  rcases performAll_rings operations (rings_none links.next links.prev) legal with
    ⟨links', performed, rings⟩
  refine ⟨links', performed, fun head behind isList fuel enough => ⟨?_, ?_⟩⟩
  · rcases listForEachSafeDo_deleting kind behind fuel links' [] []
      (by rwa [List.nil_append, ← isList, Function.update_eq_self]) enough with
      ⟨links'', looped, rings'⟩
    refine ⟨links'', by rw [(rings.ring isList).first_eq, looped, List.nil_append], ?_⟩
    intro second behind' isList' fuel' enough'
    by_cases isHead : second = head
    · subst isHead
      rw [isList, Option.some.injEq] at isList'
      subst isList'
      rw [if_pos rfl]
      apply (rings'.ring (Function.update_self ..)).walk
      exact Nat.lt_of_le_of_lt (List.length_filter_le ..) enough'
    · rw [if_neg isHead]
      apply (rings'.ring _).walk enough'
      rwa [Function.update_of_ne isHead]
  · rw [(rings.ring isList).first_eq, listForEachDo_deleting kind behind fuel [] [] rings isList enough]
    split_ifs with none
    · simpa using none
    · simpa using none

/-- The odd entries of three are deleted. -/
theorem loops_of_run_odd :
    ∃ links' links'' : Links Nat,
      performAll ⟨fun _ => none, fun _ => none⟩ [.initListHead 0, .listAddTail 1 0,
        .listAddTail 2 0, .listAddTail 3 0] = some links' ∧
      listForEachSafeDo Prod.fst (deleting fun entry => entry % 2 == 1) 0 4 (links'.next 0)
        (links', []) = some (links'', [1, 2, 3]) ∧
      listForEach links'' 0 4 = some [2] ∧
      ¬ (listForEachDo Prod.fst (deleting fun entry => entry % 2 == 1) 0 4 (links'.next 0)
        (links', [])).isSome := by
  have legal : AllLegal (fun _ => none) [.initListHead 0, .listAddTail 1 0, .listAddTail 2 0,
      .listAddTail 3 0] := by
    simp [AllLegal, Legal, Listed, effect, withEntry, Function.update_apply]
    exact ⟨by grind, by grind⟩
  rcases loops_of_run ⟨fun _ => none, fun _ => none⟩ _ legal fun entry => entry % 2 == 1 with
    ⟨links', performed, loops⟩
  rcases loops 0 [1, 2, 3] rfl 4 (by decide) with ⟨⟨links'', looped, lists⟩, plain⟩
  refine ⟨links', links'', performed, looped, lists 0 [1, 2, 3] rfl 4 (by decide), ?_⟩
  rw [plain]
  decide

end CE321.Lists
