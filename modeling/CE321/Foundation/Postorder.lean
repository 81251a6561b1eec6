import Mathlib

/-! # Trees from their leaves

The walk over a tree that comes to an element when it is through with everything below it. The
tree is given by the children of each element.
-/

namespace CE321

variable {α : Type*} {children : α → List α} {ready : α → Bool} {root : α}

/-- The elements of trees, each behind those below it. The walk stops at an element that is
not ready. -/
def postorder (children : α → List α) (ready : α → Bool) : (fuel : Nat) → List α → Option (List α)
  | _, [] => some []
  | 0, _ :: _ => none
  | fuel + 1, element :: rest => do
      let below ← postorder children ready fuel (children element)
      if ready element then
        let others ← postorder children ready fuel rest
        pure (below ++ element :: others)
      else none

/-- Somewhere below an element. -/
inductive Below (children : α → List α) (root : α) : α → Prop
  | child {element : α} (isChild : element ∈ children root) : Below children root element
  | deeper {element parent : α} (below : Below children root parent)
      (isChild : element ∈ children parent) : Below children root element

theorem Below.under {child element : α} (deep : Below children child element)
    (isChild : child ∈ children root) : Below children root element := by
  induction deep with
  | child isChild' => exact .deeper (.child isChild) isChild'
  | deeper _ isChild' deep => exact .deeper deep isChild'

/-- An element itself, or somewhere below it. -/
def Within (children : α → List α) (root element : α) : Prop :=
  element = root ∨ Below children root element

theorem Below.parent {element : α} (below : Below children root element) :
    ∃ parent, element ∈ children parent ∧ Within children root parent := by
  cases below with
  | child isChild => exact ⟨root, isChild, .inl rfl⟩
  | deeper below isChild => exact ⟨_, isChild, .inr below⟩

/-- Everybody has one parent at most, and is there once among its children. The root has none. -/
structure IsTree (children : α → List α) (root : α) : Prop where
  unique : ∀ {element parent parent' : α}, element ∈ children parent →
    element ∈ children parent' → parent = parent'
  nodup : ∀ element, (children element).Nodup
  top : ∀ element, root ∉ children element

section Ranks

variable {rank : α → Nat}
  (grows : ∀ {element parent : α}, element ∈ children parent → rank parent < rank element)

include grows

theorem Below.rank_lt {element : α} (below : Below children root element) :
    rank root < rank element := by
  induction below with
  | child isChild => exact grows isChild
  | deeper _ isChild higher => exact higher.trans (grows isChild)

theorem Within.rank_le {element : α} (inside : Within children root element) :
    rank root ≤ rank element := by
  rcases inside with rfl | below
  · exact Nat.le_refl _
  · exact (below.rank_lt grows).le

theorem IsTree.apart (tree : IsTree children root) {parent first second element : α}
    (isFirst : first ∈ children parent) (isSecond : second ∈ children parent)
    (different : first ≠ second) (inFirst : Within children first element) :
    ¬ Within children second element := by
  have notAbove : ∀ {other : α}, other ∈ children parent → ¬ Within children other parent :=
    fun isChild inside => Nat.not_lt.mpr (inside.rank_le grows) (grows isChild)
  rcases inFirst with rfl | below
  · rintro (same | below)
    · exact different same
    · rcases below.parent with ⟨above, isChild, inside⟩
      exact notAbove isSecond (tree.unique isChild isFirst ▸ inside)
  · have step : ∀ {above element : α}, element ∈ children above → Within children first above →
        ¬ Within children second above → ¬ Within children second element := by
      rintro above element isChild inFirst notIn (rfl | below)
      · exact notAbove isFirst (tree.unique isChild isSecond ▸ inFirst)
      · rcases below.parent with ⟨other, isChild', inside⟩
        exact notIn (tree.unique isChild' isChild ▸ inside)
    have top : ¬ Within children second first := by
      rintro (same | below)
      · exact different same
      · rcases below.parent with ⟨above, isChild, inside⟩
        exact notAbove isSecond (tree.unique isChild isFirst ▸ inside)
    induction below with
    | child isChild => exact step isChild (.inl rfl) top
    | deeper below isChild notIn => exact step isChild (.inr below) notIn

end Ranks

theorem postorder_cons {fuel : Nat} {element : α} {rest order : List α}
    (walked : postorder children ready (fuel + 1) (element :: rest) = some order) :
    ∃ below others, postorder children ready fuel (children element) = some below ∧
      ready element = true ∧ postorder children ready fuel rest = some others ∧
      order = below ++ element :: others := by
  simp only [postorder, Option.bind_eq_bind, Option.bind_eq_some_iff] at walked
  rcases walked with ⟨below, first, walked⟩
  split_ifs at walked with isReady
  rcases Option.bind_eq_some_iff.mp walked with ⟨others, second, done⟩
  exact ⟨below, others, first, isReady, second, (Option.some.inj done).symm⟩

theorem postorder_roots (fuel : Nat) : ∀ {list order : List α},
    postorder children ready fuel list = some order → list ⊆ order := by
  induction fuel with
  | zero =>
      intro list order walked
      cases list with
      | nil => exact List.nil_subset _
      | cons element rest => cases walked
  | succ fuel induction =>
      intro list order walked
      cases list with
      | nil => exact List.nil_subset _
      | cons element rest =>
          rcases postorder_cons walked with ⟨below, others, -, -, second, rfl⟩
          apply List.cons_subset.mpr ⟨by simp, fun other member => ?_⟩
          exact List.mem_append_right _ (List.mem_cons_of_mem _ (induction second member))

/-- What a walk comes to is ready, and below a root of its trees or such a root. -/
theorem postorder_mem (fuel : Nat) : ∀ {list order : List α},
    postorder children ready fuel list = some order → ∀ element ∈ order, ready element = true ∧
      (element ∈ list ∨ ∃ first ∈ list, Below children first element) := by
  induction fuel with
  | zero =>
      intro list order walked
      cases list with
      | nil =>
          cases walked
          exact fun element member => absurd member List.not_mem_nil
      | cons element rest => cases walked
  | succ fuel induction =>
      intro list order walked element member
      cases list with
      | nil =>
          cases walked
          cases member
      | cons first rest =>
          rcases postorder_cons walked with ⟨below, others, walkedBelow, isReady, walkedRest, rfl⟩
          rcases List.mem_append.mp member with inside | member
          · rcases induction walkedBelow element inside with ⟨isReady', isChild | ⟨child, isChild, deep⟩⟩
            · exact ⟨isReady', .inr ⟨first, List.mem_cons_self, .child isChild⟩⟩
            · exact ⟨isReady', .inr ⟨first, List.mem_cons_self, deep.under isChild⟩⟩
          · rcases List.mem_cons.mp member with rfl | later
            · exact ⟨isReady, .inl List.mem_cons_self⟩
            · rcases induction walkedRest element later with ⟨isReady', isRoot | ⟨other, isRoot, deep⟩⟩
              · exact ⟨isReady', .inl (List.mem_cons_of_mem _ isRoot)⟩
              · exact ⟨isReady', .inr ⟨other, List.mem_cons_of_mem _ isRoot, deep⟩⟩

theorem postorder_within {fuel : Nat} {list order : List α}
    (walked : postorder children ready fuel list = some order) {element : α}
    (member : element ∈ order) : ∃ first ∈ list, Within children first element := by
  rcases (postorder_mem fuel walked element member).2 with isRoot | ⟨first, isRoot, deep⟩
  · exact ⟨element, isRoot, .inl rfl⟩
  · exact ⟨first, isRoot, .inr deep⟩

/-- Everybody is behind its children. -/
theorem postorder_children (fuel : Nat) : ∀ {list order : List α},
    postorder children ready fuel list = some order → ∀ {front back : List α} {element : α},
      order = front ++ element :: back → children element ⊆ front := by
  induction fuel with
  | zero =>
      intro list order walked front back element split
      cases list with
      | nil =>
          cases walked
          simp at split
      | cons first rest => cases walked
  | succ fuel induction =>
      intro list order walked front back element split
      cases list with
      | nil =>
          cases walked
          simp at split
      | cons first rest =>
          rcases postorder_cons walked with ⟨below, others, walkedBelow, -, walkedRest, rfl⟩
          rcases List.append_eq_append_iff.mp split with ⟨middle, rfl, rest'⟩ | ⟨middle, rfl, rest'⟩
          · cases middle with
            | nil =>
                cases rest'
                rw [List.append_nil]
                exact postorder_roots fuel walkedBelow
            | cons same middle =>
                cases rest'
                intro child isChild
                have inside := induction walkedRest rfl isChild
                exact List.mem_append_right _ (List.mem_cons_of_mem _ inside)
          · cases middle with
            | nil =>
                cases rest'
                rw [List.append_nil] at walkedBelow
                exact postorder_roots fuel walkedBelow
            | cons same middle =>
                cases rest'
                exact induction walkedBelow rfl

/-- A walk comes to a child as often as to its parent, beside the times that the child is a
root. -/
theorem postorder_count [DecidableEq α] (tree : IsTree children root) {element parent : α}
    (isChild : element ∈ children parent) (fuel : Nat) : ∀ {list order : List α},
    postorder children ready fuel list = some order →
      order.count element = list.count element + order.count parent := by
  induction fuel with
  | zero =>
      intro list order walked
      cases list with
      | nil =>
          cases walked
          rfl
      | cons first rest => cases walked
  | succ fuel induction =>
      intro list order walked
      cases list with
      | nil =>
          cases walked
          rfl
      | cons first rest =>
          rcases postorder_cons walked with ⟨below, others, walkedBelow, -, walkedRest, rfl⟩
          have inBelow := induction walkedBelow
          have inOthers := induction walkedRest
          have once : (children first).count element = if first = parent then 1 else 0 := by
            split_ifs with isParent
            · exact List.count_eq_one_of_mem (tree.nodup first) (isParent ▸ isChild)
            · exact List.count_eq_zero_of_not_mem fun isChild' =>
                isParent (tree.unique isChild' isChild)
          simp only [List.count_append, List.count_cons, beq_iff_eq, inBelow, inOthers, once]
          omega

theorem postorder_once [DecidableEq α] (tree : IsTree children root) {fuel : Nat} {order : List α}
    (walked : postorder children ready fuel (children root) = some order) {element : α}
    (below : Below children root element) : order.count element = 1 := by
  have notRoot : order.count root = 0 := by
    apply List.count_eq_zero_of_not_mem
    intro member
    rcases (postorder_mem fuel walked root member).2 with isChild | ⟨first, -, deep⟩
    · exact tree.top root isChild
    · cases deep with
      | child isChild => exact tree.top _ isChild
      | deeper _ isChild => exact tree.top _ isChild
  induction below with
  | child isChild =>
      rw [postorder_count tree isChild fuel walked, notRoot,
        List.count_eq_one_of_mem (tree.nodup root) isChild]
  | @deeper element parent deep isChild once =>
      rw [postorder_count tree isChild fuel walked, once]
      have notTop : element ∉ children root := by
        intro isTop
        have same := tree.unique isTop isChild
        subst same
        rw [notRoot] at once
        cases once
      rw [List.count_eq_zero_of_not_mem notTop]

/-- A walk gets through if everybody on its way is ready, and ranks grow up to a bound. -/
theorem postorder_isSome (rank : α → Nat) (bound : Nat)
    (bounded : ∀ {element parent : α}, element ∈ children parent → rank element < bound)
    (grows : ∀ {element parent : α}, element ∈ children parent → rank parent < rank element)
    (sorted : ∀ element, (children element).Pairwise fun first second => rank first < rank second)
    (isReady : ∀ {element parent : α}, element ∈ children parent → ready element = true) (fuel : Nat) :
    ∀ {list : List α} {parent : α}, list <:+ children parent →
      (∀ element ∈ list, bound ≤ fuel + rank element) →
      (postorder children ready fuel list).isSome := by
  induction fuel with
  | zero =>
      intro list parent isSuffix enough
      cases list with
      | nil => rfl
      | cons element rest =>
          have low := enough element List.mem_cons_self
          have high := bounded (isSuffix.subset List.mem_cons_self)
          omega
  | succ fuel induction =>
      intro list parent isSuffix enough
      cases list with
      | nil => rfl
      | cons element rest =>
          have isChild := isSuffix.subset List.mem_cons_self
          have low := enough element List.mem_cons_self
          have first := @induction (children element) element List.suffix_rfl fun child member => by
            have higher := grows member
            omega
          have ordered := (sorted parent).sublist isSuffix.sublist
          have second := @induction rest parent ((List.suffix_cons element rest).trans isSuffix)
            fun other member => by
              have higher := (List.pairwise_cons.mp ordered).1 other member
              omega
          rcases Option.isSome_iff_exists.mp first with ⟨below, walkedBelow⟩
          rcases Option.isSome_iff_exists.mp second with ⟨others, walkedRest⟩
          simp [postorder, walkedBelow, walkedRest, isReady isChild]

end CE321
