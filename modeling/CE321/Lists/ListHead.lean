import CE321.Foundation.Rings

/-! # The lists of `list.h`

The operations of `list.h` on the links of `struct list_head`s, and what each of them does to
the lists in them. A link `none` is NULL, and a result `none` stands for NULL dereferenced.
-/

namespace CE321.Lists

variable {Node : Type} [DecidableEq Node]

/-- The fields of every `struct list_head`, by its address. -/
structure Links (Node : Type) where
  next : Node → Option Node
  prev : Node → Option Node

def Links.setNext (links : Links Node) (ptr : Node) (value : Option Node) : Links Node :=
  { links with next := Function.update links.next ptr value }

def Links.setPrev (links : Links Node) (ptr : Node) (value : Option Node) : Links Node :=
  { links with prev := Function.update links.prev ptr value }

/-- `INIT_LIST_HEAD`. -/
def initListHead (links : Links Node) (ptr : Node) : Links Node :=
  (links.setNext ptr (some ptr)).setPrev ptr (some ptr)

/-- Inserts a new entry between two known consecutive entries. -/
def _listAdd (links : Links Node) (new : Node) (prev next : Option Node) :
    Option (Links Node) := do
  let nextEntry ← next
  let links := links.setPrev nextEntry (some new)
  let links := links.setNext new next
  let links := links.setPrev new prev
  let prevEntry ← prev
  pure (links.setNext prevEntry (some new))

def listAdd (links : Links Node) (new head : Node) : Option (Links Node) :=
  _listAdd links new (some head) (links.next head)

def listAddTail (links : Links Node) (new head : Node) : Option (Links Node) :=
  _listAdd links new (links.prev head) (some head)

/-- Makes the neighbours of an entry point to each other. -/
def _listDel (links : Links Node) (prev next : Option Node) : Option (Links Node) := do
  let nextEntry ← next
  let links := links.setPrev nextEntry prev
  let prevEntry ← prev
  pure (links.setNext prevEntry next)

def listDel (links : Links Node) (entry : Node) : Option (Links Node) := do
  let links ← _listDel links (links.prev entry) (links.next entry)
  pure ((links.setNext entry none).setPrev entry none)

def listDelInit (links : Links Node) (entry : Node) : Option (Links Node) := do
  let links ← _listDel links (links.prev entry) (links.next entry)
  pure (initListHead links entry)

def listMove (links : Links Node) (list head : Node) : Option (Links Node) := do
  let links ← _listDel links (links.prev list) (links.next list)
  listAdd links list head

def listMoveTail (links : Links Node) (list head : Node) : Option (Links Node) := do
  let links ← _listDel links (links.prev list) (links.next list)
  listAddTail links list head

def listEmpty (links : Links Node) (head : Node) : Bool := links.next head == some head

/-- Puts the entries of a list behind another head. -/
def _listSplice (links : Links Node) (list head : Node) : Option (Links Node) := do
  let first := links.next list
  let last := links.prev list
  let at' := links.next head
  let firstEntry ← first
  let links := links.setPrev firstEntry (some head)
  let links := links.setNext head first
  let lastEntry ← last
  let links := links.setNext lastEntry at'
  let atEntry ← at'
  pure (links.setPrev atEntry last)

def listSplice (links : Links Node) (list head : Node) : Option (Links Node) :=
  if listEmpty links list then some links else _listSplice links list head

def listSpliceInit (links : Links Node) (list head : Node) : Option (Links Node) :=
  if listEmpty links list then some links
  else do
    let links ← _listSplice links list head
    pure (initListHead links list)

/-- The entries that `list_for_each` visits. The list has fewer of them than `fuel`. -/
def listForEach (links : Links Node) (head : Node) (fuel : Nat) : Option (List Node) :=
  walkRing links.next head fuel head

/-- The entries that `list_for_each_prev` visits. -/
def listForEachPrev (links : Links Node) (head : Node) (fuel : Nat) : Option (List Node) :=
  walkRing links.prev head fuel head

/-! ## The lists in the links -/

/-- The lists that are in the links, by their heads. -/
abbrev Contents (Node : Type) := Node → Option (List Node)

/-- An entry of one of the lists. -/
def Listed (lists : Contents Node) (entry : Node) : Prop :=
  ∃ head behind, lists head = some behind ∧ entry ∈ behind

/-- The lists without an entry. -/
def without (lists : Contents Node) (entry : Node) : Contents Node :=
  fun head => (lists head).map (·.erase entry)

/-- The list of a head is changed. What was the list of its new entry is none. -/
def withEntry (lists : Contents Node) (new head : Node) (change : List Node → List Node) :
    Contents Node :=
  Function.update (Function.update lists new none) head ((lists head).map change)

theorem without_eq {next prev : Node → Option Node} {lists : Contents Node} {head entry : Node}
    {behind : List Node} (rings : Rings next prev lists) (isList : lists head = some behind)
    (inside : entry ∈ behind) :
    without lists entry = Function.update lists head (some (behind.erase entry)) := by
  funext second
  by_cases isHead : second = head
  · subst isHead
    simp [without, isList]
  · rw [Function.update_of_ne isHead, without]
    cases isList' : lists second with
    | none => rfl
    | some behind' =>
        have away := rings.only isList inside isList' isHead
        rw [Option.map_some, List.erase_of_not_mem fun later => away (List.mem_cons_of_mem _ later)]

theorem not_listed_without {next prev : Node → Option Node} {lists : Contents Node} {entry : Node}
    (rings : Rings next prev lists) (listed : Listed lists entry) :
    ¬ Listed (without lists entry) entry := by
  rcases listed with ⟨head, behind, isList, inside⟩
  rintro ⟨second, behind', isList', inside'⟩
  rw [without_eq rings isList inside] at isList'
  by_cases isHead : second = head
  · subst isHead
    rw [Function.update_self, Option.some.injEq] at isList'
    subst isList'
    exact ((List.nodup_cons.mp (rings.ring isList).nodup).2.mem_erase_iff.mp inside').1 rfl
  · rw [Function.update_of_ne isHead] at isList'
    exact rings.only isList inside isList' isHead (List.mem_cons_of_mem _ inside')

/-! ## What the operations do -/

section

variable {links : Links Node} {lists : Contents Node} {head entry : Node} {behind : List Node}

theorem initListHead_rings (rings : Rings links.next links.prev lists)
    (free : ¬ Listed lists entry) :
    Rings (initListHead links entry).next (initListHead links entry).prev
      (Function.update lists entry (some [])) := by
  have nextSelf : (initListHead links entry).next entry = some entry := Function.update_self ..
  have prevSelf : (initListHead links entry).prev entry = some entry := Function.update_self ..
  apply rings.change (ring_nil.mpr ⟨nextSelf, prevSelf⟩)
  · intro second behind' isList' different element member inside
    rw [List.mem_singleton.mp member] at inside
    rcases List.mem_cons.mp inside with isHead | later
    · exact different isHead.symm
    · exact free ⟨second, behind', isList', later⟩
  · intro second behind' isList' different element inside
    have away : element ≠ entry := by
      rintro rfl
      rcases List.mem_cons.mp inside with isHead | later
      · exact different isHead.symm
      · exact free ⟨second, behind', isList', later⟩
    exact ⟨Function.update_of_ne away .., Function.update_of_ne away ..⟩

theorem listAdd_between {left right : Node} {before after front back : List Node}
    (rings : Rings links.next links.prev lists) (isList : lists head = some (before ++ after))
    (isLeft : head :: before = front ++ [left]) (isRight : after ++ [head] = right :: back)
    (free : ¬ Listed lists entry) (different : entry ≠ head) :
    ∃ links', _listAdd links entry (some left) (some right) = some links' ∧
      Rings links'.next links'.prev (Function.update (Function.update lists entry none) head
        (some (before ++ [entry] ++ after))) := by
  have away : ∀ other ∈ head :: (before ++ after), entry ≠ other := by
    rintro other member rfl
    rcases List.mem_cons.mp member with isHead | later
    · exact different isHead
    · exact free ⟨head, _, isList, later⟩
  have notLeft : entry ≠ left := by
    apply away
    exact List.mem_append_left after (isLeft ▸ List.mem_append_right front
      (List.mem_singleton_self left))
  have notRight : entry ≠ right := by
    apply away
    exact ((List.sublist_append_right before after).cons_cons head).subset
      (mem_closed.mp (isRight ▸ List.mem_cons_self))
  refine ⟨_, rfl, ?_⟩
  apply @Rings.splice _ _ _ _ _ _ _ head left right entry entry before after front back [] []
    (rings.giveUp entry)
  · rwa [Function.update_of_ne different.symm]
  · exact isLeft
  · exact isRight
  · trivial
  · rfl
  · intro element member second behind' isList' inside
    rw [List.mem_singleton.mp member] at inside
    have notEntry : second ≠ entry := by
      rintro rfl
      rw [Function.update_self] at isList'
      cases isList'
    rw [Function.update_of_ne notEntry] at isList'
    rcases List.mem_cons.mp inside with isHead | later
    · exact notEntry isHead.symm
    · exact free ⟨second, behind', isList', later⟩
  · exact List.nodup_singleton entry
  · exact Function.update_self ..
  · exact Function.update_self ..
  · change Function.update (Function.update links.next entry (some right)) left (some entry) entry =
      some right
    rw [Function.update_of_ne notLeft, Function.update_self]
  · change Function.update (Function.update links.prev right (some entry)) entry (some left) right =
      some entry
    rw [Function.update_of_ne notRight.symm, Function.update_self]
  · intro other notLeft' notEntry
    change Function.update (Function.update links.next entry (some right)) left (some entry) other =
      links.next other
    rw [Function.update_of_ne notLeft', Function.update_of_ne notEntry]
  · intro other notRight' notEntry
    change Function.update (Function.update links.prev right (some entry)) entry (some left) other =
      links.prev other
    rw [Function.update_of_ne notEntry, Function.update_of_ne notRight']

theorem listAdd_rings (rings : Rings links.next links.prev lists)
    (isList : lists head = some behind) (free : ¬ Listed lists entry) (different : entry ≠ head) :
    ∃ links', listAdd links entry head = some links' ∧
      Rings links'.next links'.prev (withEntry lists entry head (entry :: ·)) := by
  rcases (rings.ring isList).nextHead with ⟨right, back, split, isRight⟩
  rw [listAdd, isRight, withEntry, isList]
  exact @listAdd_between _ _ links lists head entry head right [] behind [] back rings isList rfl
    split free different

theorem listAddTail_rings (rings : Rings links.next links.prev lists)
    (isList : lists head = some behind) (free : ¬ Listed lists entry) (different : entry ≠ head) :
    ∃ links', listAddTail links entry head = some links' ∧
      Rings links'.next links'.prev (withEntry lists entry head (· ++ [entry])) := by
  rcases (rings.ring isList).prevHead with ⟨front, left, split, isLeft⟩
  rw [listAddTail, isLeft, withEntry, isList, Option.map_some, ← List.append_nil (behind ++ [entry])]
  exact listAdd_between rings (by rw [isList, List.append_nil]) split rfl free different

theorem listDel_between (rings : Rings links.next links.prev lists) (listed : Listed lists entry) :
    ∃ links', _listDel links (links.prev entry) (links.next entry) = some links' ∧
      Rings links'.next links'.prev (without lists entry) := by
  rcases listed with ⟨head, behind, isList, inside⟩
  have nodup := (List.nodup_cons.mp (rings.ring isList).nodup).2
  rw [without_eq rings isList inside]
  rcases List.append_of_mem inside with ⟨before, after, rfl⟩
  rcases (rings.ring isList).neighbours with ⟨left, right, -, -, isLeft, isRight, -, -⟩
  have erased : (before ++ entry :: after).erase entry = before ++ after := by
    have away : entry ∉ before := fun early =>
      (List.nodup_append.mp nodup).2.2 entry early entry List.mem_cons_self rfl
    rw [List.erase_append_right _ away, List.erase_cons_head]
  rw [isLeft, isRight, erased]
  refine ⟨_, rfl, ?_⟩
  apply rings.remove isList isLeft isRight
  · exact Function.update_self ..
  · exact Function.update_self ..
  · exact fun other notLeft _ => Function.update_of_ne notLeft ..
  · exact fun other notRight _ => Function.update_of_ne notRight ..

theorem listDel_rings (rings : Rings links.next links.prev lists) (listed : Listed lists entry) :
    ∃ links', listDel links entry = some links' ∧
      Rings links'.next links'.prev (without lists entry) := by
  rcases listDel_between rings listed with ⟨links', deleted, rings'⟩
  have free := not_listed_without rings listed
  have notHead : without lists entry entry = none := by
    rcases listed with ⟨head, behind, isList, inside⟩
    cases isList' : lists entry with
    | none => simp [without, isList']
    | some behind' => exact absurd rfl (rings.ne_head isList inside isList')
  refine ⟨_, by simp only [listDel, deleted, Option.bind_eq_bind, Option.bind_some]; rfl, ?_⟩
  apply rings'.elsewhere
  intro second behind' isList' element inside
  have away : element ≠ entry := by
    rintro rfl
    rcases List.mem_cons.mp inside with rfl | later
    · rw [notHead] at isList'
      cases isList'
    · exact free ⟨second, behind', isList', later⟩
  exact ⟨Function.update_of_ne away .., Function.update_of_ne away ..⟩

theorem listDelInit_rings (rings : Rings links.next links.prev lists)
    (listed : Listed lists entry) :
    ∃ links', listDelInit links entry = some links' ∧
      Rings links'.next links'.prev (Function.update (without lists entry) entry (some [])) := by
  rcases listDel_between rings listed with ⟨links', deleted, rings'⟩
  refine ⟨_, by simp only [listDelInit, deleted, Option.bind_eq_bind, Option.bind_some]; rfl, ?_⟩
  exact initListHead_rings rings' (not_listed_without rings listed)

theorem without_head (rings : Rings links.next links.prev lists) (listed : Listed lists entry)
    (isList : lists head = some behind) :
    without lists entry head = some (behind.erase entry) ∧ entry ≠ head := by
  rcases listed with ⟨second, behind', isList', inside⟩
  exact ⟨by rw [without, isList, Option.map_some], rings.ne_head isList' inside isList⟩

theorem listMove_rings (rings : Rings links.next links.prev lists) (listed : Listed lists entry)
    (isList : lists head = some behind) :
    ∃ links', listMove links entry head = some links' ∧
      Rings links'.next links'.prev (withEntry (without lists entry) entry head (entry :: ·)) := by
  rcases listDel_between rings listed with ⟨links', deleted, rings'⟩
  rcases without_head rings listed isList with ⟨isList', different⟩
  rw [listMove, deleted]
  exact listAdd_rings rings' isList' (not_listed_without rings listed) different

theorem listMoveTail_rings (rings : Rings links.next links.prev lists) (listed : Listed lists entry)
    (isList : lists head = some behind) :
    ∃ links', listMoveTail links entry head = some links' ∧
      Rings links'.next links'.prev (withEntry (without lists entry) entry head (· ++ [entry])) := by
  rcases listDel_between rings listed with ⟨links', deleted, rings'⟩
  rcases without_head rings listed isList with ⟨isList', different⟩
  rw [listMoveTail, deleted]
  exact listAddTail_rings rings' isList' (not_listed_without rings listed) different

theorem listEmpty_iff (rings : Rings links.next links.prev lists)
    (isList : lists head = some behind) : listEmpty links head = true ↔ behind = [] := by
  rw [listEmpty, beq_iff_eq]
  exact (rings.ring isList).empty_iff

/-- The entries of a list are put behind another head, and the list is given up. -/
theorem listSplice_between {list : Node} {inner : List Node}
    (rings : Rings links.next links.prev lists) (isInner : lists list = some inner)
    (nonempty : inner ≠ []) (isList : lists head = some behind) (different : list ≠ head) :
    ∃ links', _listSplice links list head = some links' ∧
      Rings links'.next links'.prev (Function.update (Function.update lists list none) head
        (some (inner ++ behind))) := by
  have ring := rings.ring isInner
  rcases List.exists_cons_of_ne_nil nonempty with ⟨first, tail, rfl⟩
  have isFirst : links.next list = some first := ring.linked.1
  rcases ring.prevHead with ⟨front, last, split, isLast⟩
  have ends : ∃ body, first :: tail = body ++ [last] := by
    cases front with
    | nil => cases split
    | cons same front => exact ⟨front, (List.cons.inj split).2⟩
  rcases ends with ⟨body, ends⟩
  rcases (rings.ring isList).nextHead with ⟨right, back, split', isRight⟩
  have inLast : last ∈ first :: tail := ends ▸ by simp
  have away : ∀ element ∈ first :: tail, element ∉ head :: behind := fun element member inside =>
    rings.apart isInner isList different (List.mem_cons_of_mem _ member) inside
  have rightIn : right ∈ head :: behind := mem_closed.mp (split' ▸ List.mem_cons_self)
  have notHead : last ≠ head := fun same => away last inLast (same ▸ List.mem_cons_self)
  have notRight : first ≠ right := fun same => away first List.mem_cons_self (same ▸ rightIn)
  refine ⟨_, by simp only [_listSplice, isFirst, isLast, isRight, Option.bind_eq_bind,
    Option.bind_some]; rfl, ?_⟩
  apply @Rings.splice _ _ _ _ _ _ _ head head right first last [] behind [] back tail body
    (rings.giveUp list)
  · rwa [Function.update_of_ne different.symm]
  · rfl
  · exact split'
  · exact ring.inner
  · exact ends
  · intro element member second behind' isList' inside
    have stays : second ≠ list := by
      rintro rfl
      rw [Function.update_self] at isList'
      cases isList'
    rw [Function.update_of_ne stays] at isList'
    exact rings.apart isInner isList' stays.symm (List.mem_cons_of_mem _ member) inside
  · exact (List.nodup_cons.mp ring.nodup).2
  · change Function.update (Function.update links.next head (some first)) last (some right) head =
      some first
    rw [Function.update_of_ne notHead.symm, Function.update_self]
  · change Function.update (Function.update links.prev first (some head)) right (some last) first =
      some head
    rw [Function.update_of_ne notRight, Function.update_self]
  · exact Function.update_self ..
  · exact Function.update_self ..
  · intro other notHead' notLast
    change Function.update (Function.update links.next head (some first)) last (some right) other =
      links.next other
    rw [Function.update_of_ne notLast, Function.update_of_ne notHead']
  · intro other notRight' notFirst
    change Function.update (Function.update links.prev first (some head)) right (some last) other =
      links.prev other
    rw [Function.update_of_ne notRight', Function.update_of_ne notFirst]

theorem not_listed_spliced {list : Node} {inner : List Node}
    (rings : Rings links.next links.prev lists) (isInner : lists list = some inner)
    (isList : lists head = some behind) :
    ¬ Listed (Function.update (Function.update lists list none) head (some (inner ++ behind)))
      list := by
  rintro ⟨second, behind', isList', inside⟩
  by_cases isSecond : second = head
  · rw [isSecond, Function.update_self, Option.some.injEq] at isList'
    subst isList'
    rcases List.mem_append.mp inside with old | old
    · exact rings.ne_head isInner old isInner rfl
    · exact rings.ne_head isList old isInner rfl
  · rw [Function.update_of_ne isSecond] at isList'
    by_cases isGone : second = list
    · rw [isGone, Function.update_self] at isList'
      cases isList'
    · rw [Function.update_of_ne isGone] at isList'
      exact rings.ne_head isList' inside isInner rfl

theorem listSpliceInit_rings {list : Node} {inner : List Node}
    (rings : Rings links.next links.prev lists) (isInner : lists list = some inner)
    (isList : lists head = some behind) (different : list ≠ head) :
    ∃ links', listSpliceInit links list head = some links' ∧
      Rings links'.next links'.prev (Function.update (Function.update lists list (some [])) head
        (some (inner ++ behind))) := by
  by_cases nothing : inner = []
  · subst nothing
    have same : Function.update (Function.update lists list (some [])) head (some ([] ++ behind)) =
        lists := by
      rw [← isInner, Function.update_eq_self, List.nil_append, ← isList, Function.update_eq_self]
    rw [same]
    exact ⟨links, by rw [listSpliceInit, if_pos ((listEmpty_iff rings isInner).mpr rfl)], rings⟩
  · rcases listSplice_between rings isInner nothing isList different with ⟨links', spliced, rings'⟩
    have notEmpty : ¬ listEmpty links list = true := fun empty =>
      nothing ((listEmpty_iff rings isInner).mp empty)
    refine ⟨initListHead links' list, by rw [listSpliceInit, if_neg notEmpty, spliced]; rfl, ?_⟩
    have emptied := initListHead_rings rings' (not_listed_spliced rings isInner isList)
    rwa [Function.update_comm different.symm, Function.update_idem] at emptied

end

end CE321.Lists
