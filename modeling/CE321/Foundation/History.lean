import Mathlib

/-! # Runs with their past

The states of a run with the last one first, and the time that passes in some of its steps.
-/

namespace CE321

variable {State : Type*} {start state next : State} {step : State → Option State}
  {past : List State}

/-- The states of a run, from its last one back to the start. -/
inductive History (start : State) (step : State → Option State) : List State → Prop
  | start : History start step [start]
  | step {state next : State} {past : List State} (history : History start step (state :: past))
      (taken : step state = some next) : History start step (next :: state :: past)

/-- What holds of the start and is kept by every step holds at the end of a run. -/
theorem History.keeps (invariant : State → List State → Prop) (atStart : invariant start [])
    (kept : ∀ {state next : State} {past : List State}, History start step (state :: past) →
      invariant state past → step state = some next → invariant next (state :: past))
    (history : History start step (state :: past)) : invariant state past := by
  generalize run : state :: past = states at history
  induction history generalizing state past with
  | start =>
      cases run
      exact atStart
  | step history taken induction =>
      cases run
      exact kept history (induction rfl) taken

/-- The state some steps later. -/
def after (step : State → Option State) : Nat → State → Option State
  | 0, state => some state
  | count + 1, state => (step state).bind (after step count)

theorem History.after {later : State} (count : Nat) (taken : after step count state = some later)
    (history : History start step (state :: past)) : ∃ past', History start step (later :: past') := by
  induction count generalizing state past with
  | zero =>
      cases taken
      exact ⟨past, history⟩
  | succ count induction =>
      rcases Option.bind_eq_some_iff.mp taken with ⟨middle, first, rest⟩
      exact induction rest (history.step first)

theorem after_last (step : State → Option State) (count : Nat) :
    ∀ state, after step (count + 1) state = (after step count state).bind step := by
  induction count with
  | zero => exact fun state => by simp only [after, Option.bind_fun_some, Option.bind_some]
  | succ count induction =>
      intro state
      show (step state).bind (after step (count + 1)) = ((step state).bind (after step count)).bind step
      rw [funext induction, Option.bind_assoc]

/-- The steps of a run lead to its last state. -/
theorem History.after_eq (history : History start step (state :: past)) :
    CE321.after step past.length start = some state := by
  refine history.keeps (fun state past => CE321.after step past.length start = some state) rfl ?_
  intro state next past history reached taken
  rw [List.length_cons, after_last, reached, Option.bind_some, taken]

/-- The time of a clock that passes in the steps from states of a kind. -/
def elapsed (clock : State → Nat) (kind : State → Prop) [DecidablePred kind] : List State → Nat
  | next :: state :: past =>
      (if kind state then clock next - clock state else 0) + elapsed clock kind (state :: past)
  | _ => 0

/-- What a clock read when the last states of a run began to be of a kind. -/
def began (clock : State → Nat) (kind : State → Prop) [DecidablePred kind] : List State → Nat
  | next :: state :: past => if kind state then began clock kind (state :: past) else clock next
  | [state] => clock state
  | [] => 0

variable {clock : State → Nat} {kind : State → Prop} [DecidablePred kind]

theorem began_goesOn (isKind : kind state) :
    began clock kind (next :: state :: past) = began clock kind (state :: past) := by
  rw [began, if_pos isKind]

theorem began_now (other : ¬kind state) :
    began clock kind (next :: state :: past) = clock next := by
  rw [began, if_neg other]

variable (clock kind) in
theorem elapsed_of (isKind : kind state) : elapsed clock kind (next :: state :: past) =
    clock next - clock state + elapsed clock kind (state :: past) := by
  rw [elapsed, if_pos isKind]

variable (clock kind) in
theorem elapsed_of_not (other : ¬kind state) : elapsed clock kind (next :: state :: past) =
    elapsed clock kind (state :: past) := by
  rw [elapsed, if_neg other, Nat.zero_add]

theorem elapsed_still (still : clock next = clock state) :
    elapsed clock kind (next :: state :: past) = elapsed clock kind (state :: past) := by
  simp only [elapsed, still, Nat.sub_self, ite_self, Nat.zero_add]

theorem elapsed_le (history : History start step (state :: past))
    (forward : ∀ {state next : State}, step state = some next → clock state ≤ clock next) :
    elapsed clock kind (state :: past) ≤ clock state := by
  refine history.keeps (fun state past => elapsed clock kind (state :: past) ≤ clock state) ?_ ?_
  · exact Nat.zero_le _
  · intro state next past history bound taken
    have runs := forward taken
    rw [elapsed]
    split_ifs
    · omega
    · omega

end CE321
