import CE321.Foundation.History

/-! # Machines in lockstep

Two machines that take their steps together: either both get on, to related states, or
neither does.
-/

namespace CE321

variable {α β γ δ : Type*} {related : α → β → Prop} {related' : γ → δ → Prop}

theorem rel_bind {first : Option α} {second : Option β} {part : α → Option γ} {part' : β → Option δ}
    (rel : Option.Rel related first second)
    (parts : ∀ a b, related a b → second = some b → Option.Rel related' (part a) (part' b)) :
    Option.Rel related' (first.bind part) (second.bind part') := by
  cases rel with
  | none => exact .none
  | some rel => exact parts _ _ rel rfl

theorem some_rel {first : Option α} {b : β} (rel : Option.Rel related first (some b)) :
    ∃ a, first = some a ∧ related a b := by
  cases rel with
  | some rel => exact ⟨_, rfl, rel⟩

theorem after_rel {step : α → Option α} {step' : β → Option β}
    (kept : ∀ a b, related a b → Option.Rel related (step a) (step' b)) (count : Nat) :
    ∀ a b, related a b → Option.Rel related (after step count a) (after step' count b) := by
  induction count with
  | zero => exact fun a b rel => .some rel
  | succ count induction =>
      intro a b rel
      exact rel_bind (kept a b rel) fun a' b' rel' _ => induction a' b' rel'

end CE321
