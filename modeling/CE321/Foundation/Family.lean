import Mathlib

/-! # Families

The members of a forest that are alive, when a member lives no longer than its parent.
-/

namespace CE321

variable {α : Type*} [DecidableEq α] {parent : α → Option α}

def childrenOf (parent : α → Option α) (live : List α) (of : α) : Nat :=
  live.countP fun child => decide (parent child = some of)

/-- The parents of those alive are alive. -/
structure Family (parent : α → Option α) (live : List α) : Prop where
  nodup : live.Nodup
  parents : ∀ child ∈ live, ∀ of, parent child = some of → of ∈ live

theorem childrenOf_cons (child : α) (live : List α) (of : α) :
    childrenOf parent (child :: live) of =
      childrenOf parent live of + if parent child = some of then 1 else 0 := by
  simp only [childrenOf, List.countP_cons, decide_eq_true_eq]

theorem childrenOf_erase {child : α} {live : List α} (member : child ∈ live) (of : α) :
    childrenOf parent live of =
      childrenOf parent (live.erase child) of + if parent child = some of then 1 else 0 := by
  rw [← childrenOf_cons]
  exact (List.perm_cons_erase member).countP_eq _

theorem childrenOf_pos {child of : α} {live : List α} (member : child ∈ live)
    (isChild : parent child = some of) : 0 < childrenOf parent live of :=
  List.countP_pos_iff.mpr ⟨child, member, decide_eq_true isChild⟩

omit [DecidableEq α] in
theorem Family.fork {live : List α} {child of : α} (family : Family parent live)
    (isChild : parent child = some of) (alive : of ∈ live) (fresh : child ∉ live) :
    Family parent (child :: live) where
  nodup := List.nodup_cons.mpr ⟨fresh, family.nodup⟩
  parents := by
    intro other member of' isOther
    rcases List.mem_cons.mp member with rfl | older
    · rw [isChild] at isOther
      exact List.mem_cons_of_mem _ (Option.some.inj isOther ▸ alive)
    · exact List.mem_cons_of_mem _ (family.parents other older of' isOther)

theorem Family.kill {live : List α} {member : α} (family : Family parent live)
    (childless : childrenOf parent live member = 0) : Family parent (live.erase member) where
  nodup := family.nodup.erase member
  parents := by
    intro other inside of isOther
    have older := List.mem_of_mem_erase inside
    have alive := family.parents other older of isOther
    apply (family.nodup.mem_erase_iff).mpr ⟨?_, alive⟩
    rintro rfl
    exact Nat.ne_of_gt (childrenOf_pos older isOther) childless

section

variable {rank : α → Nat} {root : α} {live : List α}

omit [DecidableEq α] in
/-- Induction from the parents to their children. -/
theorem Family.descend (family : Family parent live)
    (descends : ∀ child of, parent child = some of → rank of < rank child) {motive : α → Prop}
    (step : ∀ member ∈ live, (∀ of, parent member = some of → motive of) → motive member) :
    ∀ member ∈ live, motive member := by
  intro member
  induction member using (measure rank).wf.induction with
  | _ member induction =>
      intro alive
      apply step member alive
      intro of isParent
      exact induction of (descends member of isParent) (family.parents member alive of isParent)

omit [DecidableEq α] in
theorem Family.root_mem (family : Family parent live)
    (descends : ∀ child of, parent child = some of → rank of < rank child)
    (rooted : ∀ member ∈ live, parent member = none → member = root) :
    ∀ member ∈ live, root ∈ live := by
  apply family.descend descends (motive := fun _ => root ∈ live)
  intro member alive induction
  cases isParent : parent member with
  | none => exact rooted member alive isParent ▸ alive
  | some of => exact induction of isParent

theorem Family.root_alone (family : Family parent live)
    (descends : ∀ child of, parent child = some of → rank of < rank child)
    (rooted : ∀ member ∈ live, parent member = none → member = root)
    (childless : childrenOf parent live root = 0) : ∀ member ∈ live, member = root := by
  apply family.descend descends (motive := fun member => member = root)
  intro member alive induction
  cases isParent : parent member with
  | none => exact rooted member alive isParent
  | some of =>
      have top := induction of isParent
      exact absurd childless (Nat.ne_of_gt (childrenOf_pos alive (top ▸ isParent)))

end

end CE321
