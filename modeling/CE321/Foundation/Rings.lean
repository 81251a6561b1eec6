import CE321.Foundation.Ring

/-! # Circular lists that share their links

Several rings in the same two tables of links, each with its own head. What putting a chain
of elements into one of them does, and which changes leave the others alone.
-/

namespace CE321

variable {α : Type*} {next prev next' prev' : α → Option α}

/-! ## One ring -/

theorem mem_closed {head element : α} {behind : List α} :
    element ∈ behind ++ [head] ↔ element ∈ head :: behind := by
  rw [List.mem_append, List.mem_singleton, List.mem_cons, or_comm]

theorem Ring.frame {head : α} {behind : List α} (ring : Ring next prev head behind)
    (sameNext : ∀ element ∈ head :: behind, next' element = next element)
    (samePrev : ∀ element ∈ head :: behind, prev' element = prev element) :
    Ring next' prev' head behind := by
  refine ⟨ring.linked.frame ?_ ?_, ring.nodup⟩
  · intro element member
    have shape : (head :: (behind ++ [head])).dropLast = head :: behind :=
      @List.dropLast_concat _ (head :: behind) head
    exact sameNext element (shape ▸ member)
  · exact fun element member => samePrev element (mem_closed.mp member)

theorem ring_nil {head : α} :
    Ring next prev head [] ↔ next head = some head ∧ prev head = some head := by
  constructor
  · intro ring
    exact ⟨ring.linked.1, ring.linked.2.1⟩
  · intro links
    exact ⟨⟨links.1, links.2, trivial⟩, List.nodup_singleton head⟩

theorem Ring.nextHead {head : α} {behind : List α} (ring : Ring next prev head behind) :
    ∃ right back, behind ++ [head] = right :: back ∧ next head = some right := by
  have linked := ring.linked
  rcases List.exists_cons_of_ne_nil (List.append_ne_nil_of_right_ne_nil behind
    (List.cons_ne_nil head [])) with ⟨right, back, split⟩
  rw [split] at linked
  exact ⟨right, back, split, linked.1⟩

theorem Ring.prevHead {head : α} {behind : List α} (ring : Ring next prev head behind) :
    ∃ front left, head :: behind = front ++ [left] ∧ prev head = some left := by
  have linked := ring.linked
  rcases List.eq_nil_or_concat (head :: behind) with none | ⟨front, left, split⟩
  · cases none
  rw [List.concat_eq_append] at split
  rw [← List.cons_append, split, List.append_assoc, List.singleton_append, linked_append] at linked
  exact ⟨front, left, split, linked.2.2.1⟩

theorem Ring.next_eq {head element : α} {before after : List α}
    (ring : Ring next prev head (before ++ element :: after)) :
    next element = some (after.headD head) := by
  have linked := ring.linked
  rw [List.append_assoc, List.cons_append, ← List.cons_append, linked_append] at linked
  cases after with
  | nil => exact linked.2.1
  | cons second after => exact linked.2.1

theorem Ring.first_eq {head : α} {behind : List α} (ring : Ring next prev head behind) :
    next head = some (behind.headD head) := by
  have linked := ring.linked
  cases behind with
  | nil => exact linked.1
  | cons first behind => exact linked.1

theorem Ring.empty_iff {head : α} {behind : List α} (ring : Ring next prev head behind) :
    next head = some head ↔ behind = [] := by
  rcases ring.nextHead with ⟨right, back, split, isRight⟩
  rw [isRight, Option.some.injEq]
  constructor
  · rintro rfl
    cases behind with
    | nil => rfl
    | cons first behind =>
        have same : first = right := (List.cons.inj split).1
        exact absurd (same ▸ List.mem_cons_self) (List.nodup_cons.mp ring.nodup).1
  · rintro rfl
    exact (List.cons.inj split).1.symm

theorem Ring.inner {head : α} {behind : List α} (ring : Ring next prev head behind) :
    Linked next prev behind := by
  rcases List.eq_nil_or_concat behind with rfl | ⟨body, last, rfl⟩
  · trivial
  · have linked := ring.linked
    rw [List.concat_eq_append] at linked ⊢
    rw [List.append_assoc, List.singleton_append, ← List.cons_append, linked_append] at linked
    cases body with
    | nil => trivial
    | cons first body => exact linked.1.2.2

theorem Linked.reverse {list : List α} (linked : Linked next prev list) :
    Linked prev next list.reverse := by
  induction list with
  | nil => trivial
  | cons first list induction =>
      cases list with
      | nil => trivial
      | cons second list =>
          have rest := induction linked.2.2
          rw [List.reverse_cons] at rest ⊢
          rw [List.reverse_cons, List.append_assoc, List.singleton_append, linked_append]
          exact ⟨rest, linked.2.1, linked.1, trivial⟩

theorem Ring.reverse {head : α} {behind : List α} (ring : Ring next prev head behind) :
    Ring prev next head behind.reverse := by
  refine ⟨?_, ?_⟩
  · have reversed := ring.linked.reverse
    rwa [List.reverse_cons, List.reverse_append, List.reverse_singleton, List.singleton_append,
      List.cons_append] at reversed
  · rw [List.nodup_cons, List.mem_reverse, List.nodup_reverse]
    exact List.nodup_cons.mp ring.nodup

theorem ne_of_concat {front : List α} {last other : α} (once : (front ++ [last]).Nodup)
    (member : other ∈ front) : other ≠ last :=
  (List.nodup_append.mp once).2.2 other member last (List.mem_singleton_self last)

/-- Each element whose links change is the last one, or the first one, of its part of a ring. -/
theorem splice_apart {head left right first last : α} {before after front back tail body : List α}
    (isLeft : head :: before = front ++ [left]) (isRight : after ++ [head] = right :: back)
    (isLast : first :: tail = body ++ [last]) (nodup : (head :: (before ++ after)).Nodup)
    (distinct : (first :: tail).Nodup)
    (fresh : ∀ element ∈ first :: tail, element ∉ head :: (before ++ after)) :
    ((∀ other ∈ front, other ≠ left ∧ other ≠ last) ∧
      (∀ other ∈ body, other ≠ left ∧ other ≠ last) ∧
      (∀ other ∈ after, other ≠ left ∧ other ≠ last)) ∧
    (∀ other ∈ before, other ≠ right ∧ other ≠ first) ∧
      (∀ other ∈ tail, other ≠ right ∧ other ≠ first) ∧
      (∀ other ∈ back, other ≠ right ∧ other ≠ first) := by
  have leftEarly : left ∈ head :: before := isLeft ▸ by simp
  have leftIn : left ∈ head :: (before ++ after) := List.mem_append_left after leftEarly
  have rightLate : right ∈ head :: after := mem_closed.mp (isRight ▸ List.mem_cons_self)
  have widen : head :: after ⊆ head :: (before ++ after) :=
    ((List.sublist_append_right before after).cons_cons head).subset
  have rightIn : right ∈ head :: (before ++ after) := widen rightLate
  -- The head is at the end of the ring as well.
  have moved : (before ++ head :: after).Nodup := nodup.perm List.perm_middle.symm
  have inner : ∀ other ∈ first :: tail, other ≠ left ∧ other ≠ right := by
    intro other member
    constructor
    · rintro rfl
      exact fresh other member leftIn
    · rintro rfl
      exact fresh other member rightIn
  have outer : ∀ other ∈ head :: (before ++ after), other ≠ last ∧ other ≠ first := by
    intro other member
    constructor
    · rintro rfl
      exact fresh other (isLast ▸ by simp) member
    · rintro rfl
      exact fresh other List.mem_cons_self member
  refine ⟨⟨?_, ?_, ?_⟩, ?_, ?_, ?_⟩
  · intro other member
    have inside : other ∈ head :: before := isLeft ▸ List.mem_append_left _ member
    have once : (front ++ [left]).Nodup := isLeft ▸ nodup.sublist (by simp)
    exact ⟨ne_of_concat once member, (outer other (List.mem_append_left after inside)).1⟩
  · intro other member
    have inside : other ∈ first :: tail := isLast ▸ List.mem_append_left _ member
    exact ⟨(inner other inside).1, ne_of_concat (isLast ▸ distinct) member⟩
  · intro other member
    have inside : other ∈ head :: (before ++ after) := by simp [member]
    have parts : (head :: before ++ after).Nodup := nodup
    have apart := (List.nodup_append.mp parts).2.2 left leftEarly other member
    exact ⟨apart.symm, (outer other inside).1⟩
  · intro other member
    have inside : other ∈ head :: (before ++ after) := by simp [member]
    have apart := (List.nodup_append.mp moved).2.2 other member right rightLate
    exact ⟨apart, (outer other inside).2⟩
  · intro other member
    exact ⟨(inner other (List.mem_cons_of_mem _ member)).2, fun same =>
      (List.nodup_cons.mp distinct).1 (same ▸ member)⟩
  · intro other member
    have once : (right :: back).Nodup :=
      isRight ▸ (List.nodup_append.mp moved).2.1.perm (List.perm_append_singleton head after).symm
    have late : other ∈ after ++ [head] := isRight ▸ List.mem_cons_of_mem right member
    have inside : other ∈ head :: (before ++ after) := widen (mem_closed.mp late)
    exact ⟨fun same => (List.nodup_cons.mp once).1 (same ▸ member), (outer other inside).2⟩

theorem Ring.splice {head left right first last : α} {before after front back tail body : List α}
    (ring : Ring next prev head (before ++ after)) (isLeft : head :: before = front ++ [left])
    (isRight : after ++ [head] = right :: back) (chain : Linked next prev (first :: tail))
    (isLast : first :: tail = body ++ [last])
    (fresh : ∀ element ∈ first :: tail, element ∉ head :: (before ++ after))
    (distinct : (first :: tail).Nodup)
    (nextLeft : next' left = some first) (prevFirst : prev' first = some left)
    (nextLast : next' last = some right) (prevRight : prev' right = some last)
    (nextSame : ∀ other, other ≠ left → other ≠ last → next' other = next other)
    (prevSame : ∀ other, other ≠ right → other ≠ first → prev' other = prev other) :
    Ring next' prev' head (before ++ (first :: tail) ++ after) := by
  rcases splice_apart isLeft isRight isLast ring.nodup distinct fresh with
    ⟨⟨inFront, inBody, inAfter⟩, inBefore, inTail, inBack⟩
  have keptNext : ∀ {part : List α}, (∀ other ∈ part, other ≠ left ∧ other ≠ last) →
      ∀ other ∈ part, next' other = next other :=
    fun apart other member => nextSame other (apart other member).1 (apart other member).2
  have keptPrev : ∀ {part : List α}, (∀ other ∈ part, other ≠ right ∧ other ≠ first) →
      ∀ other ∈ part, prev' other = prev other :=
    fun apart other member => prevSame other (apart other member).1 (apart other member).2
  -- The old ring and the new one, cut at the two neighbours.
  have old : head :: (before ++ after ++ [head]) = front ++ left :: right :: back := by
    rw [List.append_assoc, isRight, ← List.cons_append, isLeft, List.append_assoc]
    rfl
  have new : head :: (before ++ (first :: tail) ++ after ++ [head]) =
      front ++ left :: (first :: tail ++ right :: back) := by
    rw [List.append_assoc, isRight, List.append_assoc, ← List.cons_append, isLeft,
      List.append_assoc]
    rfl
  have whole : first :: tail ++ right :: back = body ++ last :: right :: back := by
    rw [isLast, List.append_assoc]
    rfl
  have linked := ring.linked
  rw [old, linked_append] at linked
  rcases linked with ⟨frontLinked, -, -, backLinked⟩
  constructor
  · rw [new, linked_append]
    refine ⟨frontLinked.frame ?_ ?_, nextLeft, prevFirst, ?_⟩
    · rw [List.dropLast_concat]
      exact keptNext inFront
    · rw [← isLeft, List.tail_cons]
      exact keptPrev inBefore
    · change Linked next' prev' (first :: tail ++ right :: back)
      rw [whole, linked_append, ← isLast]
      refine ⟨chain.frame ?_ (keptPrev inTail), nextLast, prevRight,
        backLinked.frame ?_ (keptPrev inBack)⟩
      · rw [isLast, List.dropLast_concat]
        exact keptNext inBody
      · rw [← isRight, List.dropLast_concat]
        exact keptNext inAfter
  · have swapped : (first :: tail ++ (head :: (before ++ after))).Nodup := by
      apply List.nodup_append.mpr ⟨distinct, ring.nodup, ?_⟩
      rintro element member other inside rfl
      exact fresh element member inside
    apply swapped.perm
    apply List.perm_middle.trans
    apply List.Perm.cons
    rw [← List.append_assoc]
    exact List.perm_append_comm.append_right after

/-! ## Several rings -/

/-- Lists by their heads, all in the same links. No element is in two of them. -/
structure Rings (next prev : α → Option α) (lists : α → Option (List α)) : Prop where
  ring : ∀ {head : α} {behind : List α}, lists head = some behind → Ring next prev head behind
  apart : ∀ {head second : α} {behind behind' : List α}, lists head = some behind →
    lists second = some behind' → head ≠ second → (head :: behind).Disjoint (second :: behind')

section

variable {lists lists' : α → Option (List α)}

theorem rings_none (next prev : α → Option α) : Rings next prev fun _ => none where
  ring := nofun
  apart := nofun

theorem Rings.fewer (rings : Rings next prev lists)
    (kept : ∀ head behind, lists' head = some behind → lists head = some behind) :
    Rings next prev lists' where
  ring := fun isList => rings.ring (kept _ _ isList)
  apart := fun isList isList' different =>
    rings.apart (kept _ _ isList) (kept _ _ isList') different

theorem Rings.giveUp [DecidableEq α] (rings : Rings next prev lists) (head : α) :
    Rings next prev (Function.update lists head none) := by
  apply rings.fewer
  intro second behind isList
  by_cases isHead : second = head
  · rw [isHead, Function.update_self] at isList
    cases isList
  · rwa [Function.update_of_ne isHead] at isList

theorem Rings.unique (rings : Rings next prev lists) {head second element : α}
    {behind behind' : List α} (isList : lists head = some behind)
    (isList' : lists second = some behind') (inside : element ∈ head :: behind)
    (inside' : element ∈ second :: behind') : head = second := by
  by_contra different
  exact rings.apart isList isList' different inside inside'

theorem Rings.only (rings : Rings next prev lists) {head second element : α}
    {behind behind' : List α} (isList : lists head = some behind) (inside : element ∈ behind)
    (isList' : lists second = some behind') (different : second ≠ head) :
    element ∉ second :: behind' := by
  intro member
  exact different (rings.unique isList isList' (List.mem_cons_of_mem _ inside) member).symm

theorem Rings.ne_head (rings : Rings next prev lists) {head second element : α}
    {behind behind' : List α} (isList : lists head = some behind) (inside : element ∈ behind)
    (isList' : lists second = some behind') : element ≠ second := by
  rintro rfl
  by_cases same : element = head
  · subst same
    exact (List.nodup_cons.mp (rings.ring isList).nodup).1 inside
  · exact rings.only isList inside isList' same List.mem_cons_self

/-- One list becomes another one, away from the rest, whose links stay. -/
theorem Rings.change [DecidableEq α] {head : α} {behind : List α} (rings : Rings next prev lists)
    (changed : Ring next' prev' head behind)
    (away : ∀ {second : α} {behind' : List α}, lists second = some behind' → second ≠ head →
      (head :: behind).Disjoint (second :: behind'))
    (same : ∀ {second : α} {behind' : List α}, lists second = some behind' → second ≠ head →
      ∀ element ∈ second :: behind', next' element = next element ∧ prev' element = prev element) :
    Rings next' prev' (Function.update lists head (some behind)) where
  ring := by
    intro second behind' isList
    by_cases isHead : second = head
    · subst isHead
      rw [Function.update_self, Option.some.injEq] at isList
      exact isList ▸ changed
    · rw [Function.update_of_ne isHead] at isList
      apply (rings.ring isList).frame
      · exact fun element member => (same isList isHead element member).1
      · exact fun element member => (same isList isHead element member).2
  apart := by
    intro second third behind' behind'' isList isList' different
    by_cases isHead : second = head
    · subst isHead
      rw [Function.update_self, Option.some.injEq] at isList
      rw [Function.update_of_ne different.symm] at isList'
      exact isList ▸ away isList' different.symm
    · rw [Function.update_of_ne isHead] at isList
      by_cases isHead' : third = head
      · subst isHead'
        rw [Function.update_self, Option.some.injEq] at isList'
        exact isList' ▸ (away isList isHead).symm
      · rw [Function.update_of_ne isHead'] at isList'
        exact rings.apart isList isList' different

theorem Rings.elsewhere (rings : Rings next prev lists)
    (same : ∀ {head : α} {behind : List α}, lists head = some behind → ∀ element ∈ head :: behind,
      next' element = next element ∧ prev' element = prev element) : Rings next' prev' lists where
  ring := fun isList => (rings.ring isList).frame (fun element member => (same isList element member).1)
    fun element member => (same isList element member).2
  apart := rings.apart

theorem Rings.splice [DecidableEq α] {head left right first last : α}
    {before after front back tail body : List α} (rings : Rings next prev lists)
    (isList : lists head = some (before ++ after)) (isLeft : head :: before = front ++ [left])
    (isRight : after ++ [head] = right :: back) (chain : Linked next prev (first :: tail))
    (isLast : first :: tail = body ++ [last])
    (fresh : ∀ element ∈ first :: tail, ∀ second behind', lists second = some behind' →
      element ∉ second :: behind')
    (distinct : (first :: tail).Nodup)
    (nextLeft : next' left = some first) (prevFirst : prev' first = some left)
    (nextLast : next' last = some right) (prevRight : prev' right = some last)
    (nextSame : ∀ other, other ≠ left → other ≠ last → next' other = next other)
    (prevSame : ∀ other, other ≠ right → other ≠ first → prev' other = prev other) :
    Rings next' prev' (Function.update lists head (some (before ++ (first :: tail) ++ after))) := by
  have ring := rings.ring isList
  have spliced := ring.splice isLeft isRight chain isLast
    (fun element member => fresh element member head _ isList) distinct nextLeft prevFirst nextLast
    prevRight nextSame prevSame
  have leftIn : left ∈ head :: (before ++ after) :=
    List.mem_append_left after (isLeft ▸ List.mem_append_right front (List.mem_singleton_self left))
  have rightIn : right ∈ head :: (before ++ after) :=
    ((List.sublist_append_right before after).cons_cons head).subset
      (mem_closed.mp (isRight ▸ List.mem_cons_self))
  have lastIn : last ∈ first :: tail := isLast ▸ by simp
  apply rings.change spliced
  · intro second behind' isList' different element member inside
    have known : element ∈ first :: tail ∨ element ∈ head :: (before ++ after) := by
      rcases List.mem_cons.mp member with isHead | member
      · exact .inr (isHead ▸ List.mem_cons_self)
      · rcases List.mem_append.mp member with member | later
        · rcases List.mem_append.mp member with early | new
          · exact .inr (List.mem_cons_of_mem _ (List.mem_append_left _ early))
          · exact .inl new
        · exact .inr (List.mem_cons_of_mem _ (List.mem_append_right _ later))
    rcases known with new | old
    · exact fresh element new second behind' isList' inside
    · exact rings.apart isList isList' different.symm old inside
  · intro second behind' isList' different element inside
    have away : ∀ other ∈ head :: (before ++ after), element ≠ other := by
      rintro other member rfl
      exact rings.apart isList isList' different.symm member inside
    have notNew : ∀ other ∈ first :: tail, element ≠ other := by
      rintro other member rfl
      exact fresh element member second behind' isList' inside
    exact ⟨nextSame element (away left leftIn) (notNew last lastIn),
      prevSame element (away right rightIn) (notNew first List.mem_cons_self)⟩

theorem Rings.remove [DecidableEq α] {head element left right : α} {before after : List α}
    (rings : Rings next prev lists) (isList : lists head = some (before ++ element :: after))
    (isLeft : prev element = some left) (isRight : next element = some right)
    (nextLeft : next' left = some right) (prevRight : prev' right = some left)
    (nextSame : ∀ other, other ≠ left → other ≠ element → next' other = next other)
    (prevSame : ∀ other, other ≠ right → other ≠ element → prev' other = prev other) :
    Rings next' prev' (Function.update lists head (some (before ++ after))) := by
  have ring := rings.ring isList
  have inside : element ∈ head :: (before ++ element :: after) := by simp
  rcases ring.link inside with ⟨⟨right', rightIn, isRight', -⟩, left', leftIn, isLeft', -⟩
  rw [isRight] at isRight'
  rw [isLeft] at isLeft'
  cases isRight'
  cases isLeft'
  apply rings.change (ring.remove isLeft isRight nextLeft prevRight nextSame prevSame)
  · intro second behind' isList' different other member
    have shorter : (head :: (before ++ after)).Sublist (head :: (before ++ element :: after)) :=
      List.Sublist.append_left (List.sublist_cons_self element after) (head :: before)
    exact rings.apart isList isList' different.symm (shorter.subset member)
  · intro second behind' isList' different other member
    have away : ∀ third ∈ head :: (before ++ element :: after), other ≠ third := by
      rintro third inside' rfl
      exact rings.apart isList isList' different.symm inside' member
    exact ⟨nextSame other (away left leftIn) (away element inside),
      prevSame other (away right rightIn) (away element inside)⟩

end

end CE321
