import Mathlib

/-! # Circular doubly linked lists

Lists that are threaded through two tables of links, closed at a head. What putting an
element in behind the head and taking an element out do to them.
-/

namespace CE321

variable {α : Type*} {next prev next' prev' : α → Option α}

/-- Each element links to the one behind it, and that one links back. -/
def Linked (next prev : α → Option α) : List α → Prop
  | first :: second :: rest =>
      next first = some second ∧ prev second = some first ∧ Linked next prev (second :: rest)
  | _ => True

/-- The elements behind the head, from which the links lead back to the head. -/
structure Ring (next prev : α → Option α) (head : α) (behind : List α) : Prop where
  linked : Linked next prev (head :: (behind ++ [head]))
  nodup : (head :: behind).Nodup

theorem linked_append (left right : List α) (middle : α) :
    Linked next prev (left ++ middle :: right) ↔
      Linked next prev (left ++ [middle]) ∧ Linked next prev (middle :: right) := by
  induction left with
  | nil => simp [Linked]
  | cons first left induction =>
      cases left with
      | nil => simp [Linked, and_assoc]
      | cons second left =>
          simp only [List.cons_append, Linked] at induction ⊢
          rw [induction]
          simp only [and_assoc]

theorem Linked.frame {list : List α} (linked : Linked next prev list)
    (sameNext : ∀ element ∈ list.dropLast, next' element = next element)
    (samePrev : ∀ element ∈ list.tail, prev' element = prev element) : Linked next' prev' list := by
  induction list with
  | nil => trivial
  | cons first list induction =>
      cases list with
      | nil => trivial
      | cons second list =>
          rcases linked with ⟨forward, back, rest⟩
          refine ⟨?_, ?_, induction rest ?_ ?_⟩
          · rw [sameNext first (by simp), forward]
          · rw [samePrev second (by simp), back]
          · exact fun element member => sameNext element (by simp [member])
          · exact fun element member => samePrev element (by
              simp only [List.tail_cons] at member ⊢
              exact List.mem_cons_of_mem _ member)

theorem Ring.insert {head first element : α} {behind : List α} (ring : Ring next prev head behind)
    (fresh : element ∉ head :: behind) (isFirst : next head = some first)
    (nextHead : next' head = some element) (prevElement : prev' element = some head)
    (nextElement : next' element = some first) (prevFirst : prev' first = some element)
    (nextSame : ∀ other, other ≠ head → other ≠ element → next' other = next other)
    (prevSame : ∀ other, other ≠ first → other ≠ element → prev' other = prev other) :
    Ring next' prev' head (element :: behind) := by
  have away : element ≠ head ∧ element ∉ behind := by simpa using fresh
  have headAway : head ∉ behind := (List.nodup_cons.mp ring.nodup).1
  have nodup := (List.nodup_cons.mp ring.nodup).2
  constructor
  · cases behind with
    | nil =>
        have single : first = head := by
          have forward := ring.linked.1
          rw [isFirst] at forward
          exact Option.some.inj forward
        subst single
        exact ⟨nextHead, prevElement, nextElement, prevFirst, trivial⟩
    | cons second rest =>
        have same : first = second := by
          have forward := ring.linked.1
          rw [isFirst] at forward
          exact Option.some.inj forward
        subst same
        refine ⟨nextHead, prevElement, nextElement, prevFirst, ?_⟩
        apply ring.linked.2.2.frame
        · intro other member
          have shape : (first :: (rest ++ [head])).dropLast = first :: rest :=
            @List.dropLast_concat _ (first :: rest) head
          have inside : other ∈ first :: rest := shape ▸ member
          exact nextSame other (fun same => headAway (same ▸ inside))
            (fun same => away.2 (same ▸ inside))
        · intro other member
          have inside : other ∈ rest ++ [head] := member
          apply prevSame other
          · rintro rfl
            rcases List.mem_append.mp inside with later | last
            · exact (List.nodup_cons.mp nodup).1 later
            · exact headAway (List.mem_singleton.mp last ▸ List.mem_cons_self)
          · rintro rfl
            rcases List.mem_append.mp inside with later | last
            · exact away.2 (List.mem_cons_of_mem _ later)
            · exact away.1 (List.mem_singleton.mp last)
  · exact List.nodup_cons.mpr ⟨by simp [away.1.symm, headAway], List.nodup_cons.mpr ⟨away.2, nodup⟩⟩

theorem Ring.neighbours {head element : α} {before after : List α}
    (ring : Ring next prev head (before ++ element :: after)) :
    ∃ left right, left ∈ head :: before ∧ right ∈ after ++ [head] ∧
      prev element = some left ∧ next element = some right ∧
      (∃ front, head :: before = front ++ [left]) ∧ ∃ back, after ++ [head] = right :: back := by
  have linked := ring.linked
  rcases List.eq_nil_or_concat (head :: before) with none | ⟨front, left, split⟩
  · cases none
  rw [List.concat_eq_append] at split
  rcases List.exists_cons_of_ne_nil (List.append_ne_nil_of_right_ne_nil after
    (List.cons_ne_nil head [])) with ⟨right, back, split'⟩
  have whole : head :: (before ++ element :: after ++ [head]) =
      front ++ left :: element :: right :: back := by
    rw [List.append_assoc, List.cons_append, split', ← List.cons_append, split, List.append_assoc]
    rfl
  rw [whole, linked_append] at linked
  rcases linked.2 with ⟨-, back', forward, -, -⟩
  exact ⟨left, right, split ▸ by simp, split' ▸ by simp, back', forward, ⟨front, split⟩,
    ⟨back, split'⟩⟩

theorem Ring.remove {head element left right : α} {before after : List α}
    (ring : Ring next prev head (before ++ element :: after))
    (isLeft : prev element = some left) (isRight : next element = some right)
    (nextLeft : next' left = some right) (prevRight : prev' right = some left)
    (nextSame : ∀ other, other ≠ left → other ≠ element → next' other = next other)
    (prevSame : ∀ other, other ≠ right → other ≠ element → prev' other = prev other) :
    Ring next' prev' head (before ++ after) := by
  rcases ring.neighbours with ⟨left', right', inLeft, inRight, isLeft', isRight', ⟨front, split⟩,
    back, split'⟩
  rw [isLeft] at isLeft'
  rw [isRight] at isRight'
  cases isLeft'
  cases isRight'
  have linked := ring.linked
  have whole : head :: (before ++ element :: after ++ [head]) =
      front ++ left :: element :: right :: back := by
    rw [List.append_assoc, List.cons_append, split', ← List.cons_append, split, List.append_assoc]
    rfl
  have whole' : head :: (before ++ after ++ [head]) = front ++ left :: right :: back := by
    rw [List.append_assoc, split', ← List.cons_append, split, List.append_assoc]
    rfl
  have nodup : (head :: before ++ element :: after).Nodup := ring.nodup
  rcases List.nodup_append.mp nodup with ⟨frontNodup, restNodup, across⟩
  rcases List.nodup_cons.mp restNodup with ⟨elementAway, afterNodup⟩
  have elementFront : ∀ other ∈ head :: before, other ≠ element := fun other member =>
    across other member element List.mem_cons_self
  have apart : ∀ other ∈ head :: before, ∀ second ∈ after, other ≠ second :=
    fun other member second later => across other member second (List.mem_cons_of_mem _ later)
  constructor
  · rw [whole, linked_append] at linked
    rcases linked with ⟨frontLinked, -, -, backLinked⟩
    rw [whole', linked_append]
    refine ⟨frontLinked.frame ?_ ?_, nextLeft, prevRight, backLinked.2.2.frame ?_ ?_⟩
    · intro other member
      rw [List.dropLast_concat] at member
      have inFront : other ∈ head :: before := split ▸ List.mem_append_left _ member
      refine nextSame other ?_ (elementFront other inFront)
      rintro rfl
      rw [split] at frontNodup
      exact (List.nodup_append.mp frontNodup).2.2 other member other (List.mem_singleton_self _) rfl
    · intro other member
      rw [← split, List.tail_cons] at member
      refine prevSame other ?_ (elementFront other (List.mem_cons_of_mem _ member))
      rintro rfl
      rcases List.mem_append.mp inRight with later | last
      · exact apart other (List.mem_cons_of_mem _ member) other later rfl
      · rw [List.mem_singleton.mp last] at member
        exact (List.nodup_cons.mp frontNodup).1 member
    · intro other member
      rw [← split', List.dropLast_concat] at member
      refine nextSame other (apart left inLeft other member).symm ?_
      rintro rfl
      exact elementAway member
    · intro other member
      have later : other ∈ back := member
      have closed : (after ++ [head]).Nodup := by
        apply List.nodup_append.mpr ⟨afterNodup, List.nodup_singleton head, ?_⟩
        intro second later' last single
        rw [List.mem_singleton.mp single]
        exact (apart head List.mem_cons_self second later').symm
      rw [split'] at closed
      refine prevSame other ?_ ?_
      · rintro rfl
        exact (List.nodup_cons.mp closed).1 later
      · rintro rfl
        have inside : other ∈ after ++ [head] := split' ▸ List.mem_cons_of_mem _ later
        rcases List.mem_append.mp inside with early | last
        · exact elementAway early
        · exact elementFront head List.mem_cons_self (List.mem_singleton.mp last).symm
  · have shorter : (head :: before ++ after).Sublist (head :: before ++ element :: after) :=
      List.Sublist.append_left (List.sublist_cons_self element after) _
    exact nodup.sublist shorter

/-- The elements behind an element of a ring up to its head, found along the links. A
ring has fewer elements than `fuel`. -/
def walkRing [DecidableEq α] (next : α → Option α) (head : α) : (fuel : Nat) → α → Option (List α)
  | 0, _ => none
  | fuel + 1, current =>
      match next current with
      | none => none
      | some following =>
          if following = head then some []
          else (walkRing next head fuel following).map (following :: ·)

theorem walkRing_linked [DecidableEq α] {head : α} (behind : List α) :
    ∀ (fuel : Nat) (current : α), Linked next prev (current :: (behind ++ [head])) →
      head ∉ behind → behind.length < fuel → walkRing next head fuel current = some behind := by
  induction behind with
  | nil =>
      intro fuel current linked away enough
      rcases Nat.exists_eq_add_one_of_ne_zero (Nat.ne_of_gt enough) with ⟨fuel, rfl⟩
      simp only [walkRing, linked.1, if_true]
  | cons following behind induction =>
      intro fuel current linked away enough
      rcases Nat.exists_eq_add_one_of_ne_zero (Nat.ne_of_gt (Nat.zero_lt_of_lt enough)) with
        ⟨fuel, rfl⟩
      have notHead : following ≠ head := fun same => away (same ▸ List.mem_cons_self)
      have rest := induction fuel following linked.2.2 (fun later => away (List.mem_cons_of_mem _ later))
        (by simp only [List.length_cons] at enough; omega)
      simp only [walkRing, linked.1, if_neg notHead, rest, Option.map_some]

theorem Ring.walk [DecidableEq α] {head : α} {behind : List α} (ring : Ring next prev head behind)
    {fuel : Nat} (enough : behind.length < fuel) : walkRing next head fuel head = some behind :=
  walkRing_linked behind fuel head ring.linked (List.nodup_cons.mp ring.nodup).1 enough

theorem walkRing_none [DecidableEq α] {head : α} (unlinked : next head = none) (fuel : Nat) :
    walkRing next head fuel head = none := by
  cases fuel with
  | zero => rfl
  | succ fuel => simp only [walkRing, unlinked]

theorem Ring.link {head element : α} {behind : List α} (ring : Ring next prev head behind)
    (member : element ∈ head :: behind) :
    (∃ right ∈ head :: behind, next element = some right ∧ prev right = some element) ∧
      ∃ left ∈ head :: behind, prev element = some left ∧ next left = some element := by
  constructor
  · rcases List.append_of_mem member with ⟨front, rest, split⟩
    rcases List.exists_cons_of_ne_nil (List.append_ne_nil_of_right_ne_nil rest
      (List.cons_ne_nil head [])) with ⟨right, back, split'⟩
    have linked := ring.linked
    have whole : head :: (behind ++ [head]) = front ++ element :: right :: back := by
      rw [← List.cons_append, split, List.append_assoc, List.cons_append, split']
    rw [whole, linked_append] at linked
    refine ⟨right, ?_, linked.2.1, linked.2.2.1⟩
    have inside : right ∈ rest ++ [head] := split' ▸ List.mem_cons_self
    rcases List.mem_append.mp inside with later | last
    · exact split ▸ List.mem_append_right _ (List.mem_cons_of_mem _ later)
    · exact List.mem_singleton.mp last ▸ List.mem_cons_self
  · have closed : element ∈ behind ++ [head] := by
      rcases List.mem_cons.mp member with rfl | later
      · simp
      · exact List.mem_append_left _ later
    rcases List.append_of_mem closed with ⟨front, rest, split⟩
    rcases List.eq_nil_or_concat (head :: front) with none | ⟨before, left, split'⟩
    · cases none
    rw [List.concat_eq_append] at split'
    have linked := ring.linked
    have whole : head :: (behind ++ [head]) = before ++ left :: element :: rest := by
      rw [split, ← List.cons_append, split', List.append_assoc]
      rfl
    rw [whole, linked_append] at linked
    refine ⟨left, ?_, linked.2.2.1, linked.2.1⟩
    have inside : left ∈ head :: front := split' ▸ by simp
    rcases List.mem_cons.mp inside with rfl | early
    · exact List.mem_cons_self
    · have shorter : front <+: behind ++ [head] := ⟨element :: rest, split.symm⟩
      rcases List.mem_append.mp (shorter.subset early) with later | last
      · exact List.mem_cons_of_mem _ later
      · exact List.mem_singleton.mp last ▸ List.mem_cons_self

end CE321
