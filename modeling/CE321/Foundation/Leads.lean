import Mathlib

/-! # Deterministic machines

The states that a machine comes to by its step function. A machine ends in a state that its
step does not leave.
-/

namespace CE321

variable {State : Type*} {step : State → State} {start middle finish finish' : State}

/-- Some number of steps leads from a state to another one. -/
def Leads (step : State → State) (start finish : State) : Prop :=
  ∃ count, step^[count] start = finish

theorem Leads.refl (start : State) : Leads step start start := ⟨0, rfl⟩

theorem Leads.first (rest : Leads step (step start) finish) : Leads step start finish := by
  rcases rest with ⟨count, ran⟩
  exact ⟨count + 1, ran⟩

theorem leads_step : Leads step start (step start) := ⟨1, rfl⟩

theorem Leads.trans (first : Leads step start middle) (second : Leads step middle finish) :
    Leads step start finish := by
  rcases first with ⟨count, rfl⟩
  rcases second with ⟨count', rfl⟩
  exact ⟨count' + count, Function.iterate_add_apply step count' count start⟩

theorem Leads.of_eq (same : start = finish) : Leads step start finish := same ▸ Leads.refl start

theorem Leads.stays (ends : step start = start) (leads : Leads step start finish) :
    finish = start := by
  rcases leads with ⟨count, rfl⟩
  exact Function.iterate_fixed ends count

/-- On its way to an end the machine is at every state that it leads to. -/
theorem Leads.onward (ends : step finish = finish) (whole : Leads step start finish)
    (first : Leads step start middle) : Leads step middle finish := by
  rcases whole with ⟨count, whole⟩
  rcases first with ⟨count', rfl⟩
  refine ⟨count, ?_⟩
  rw [← Function.iterate_add_apply, Nat.add_comm, Function.iterate_add_apply, whole]
  exact Function.iterate_fixed ends count'

theorem Leads.unique (ends : step finish = finish) (ends' : step finish' = finish')
    (leads : Leads step start finish) (leads' : Leads step start finish') : finish = finish' :=
  (Leads.stays ends' (leads.onward ends leads')).symm ▸ rfl

end CE321
