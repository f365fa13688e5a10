import Mathlib.Data.List.Basic

/-! Loops that a pass over their body may leave with a result.

A pass that fails fails the loop; fuel bounds the number of passes.
-/

set_option autoImplicit false

namespace Anwesen.Foundation

inductive Turn (State Result : Type) where
  | next (state : State)
  | done (result : Result)

variable {State Result : Type}

def loop (body : State → Option (Turn State Result)) : Nat → State → Option Result
  | 0, _ => none
  | fuel + 1, state =>
      match body state with
      | none => none
      | some (.done result) => some result
      | some (.next state) => loop body fuel state

/-- The states in which a pass begins. -/
inductive Visits (body : State → Option (Turn State Result)) (start : State) : State → Prop where
  | start : Visits body start start
  | next {state next : State} : Visits body start state → body state = some (.next next) →
      Visits body start next

/-- No pass fails: it leaves the loop with what is wanted, or goes on in a smaller state. -/
def Progresses (body : State → Option (Turn State Result)) (invariant : State → Prop)
    (post : Result → Prop) (size : State → Nat) : Prop :=
  ∀ state, invariant state →
    (∃ next, body state = some (.next next) ∧ invariant next ∧ size next < size state) ∨
      ∃ result, body state = some (.done result) ∧ post result

namespace Progresses

variable {body : State → Option (Turn State Result)} {invariant : State → Prop} {post : Result → Prop}
  {size : State → Nat} {start state next : State}

theorem advance (progresses : Progresses body invariant post size) (holds : invariant state)
    (turn : body state = some (.next next)) : invariant next ∧ size next < size state := by
  rcases progresses state holds with ⟨other, taken, kept, less⟩ | ⟨result, taken, -⟩
  · cases turn.symm.trans taken
    exact ⟨kept, less⟩
  · cases turn.symm.trans taken

/-- The invariant holds wherever a pass begins. -/
theorem visited (progresses : Progresses body invariant post size) (holds : invariant start)
    (visits : Visits body start state) : invariant state := by
  induction visits with
  | start => exact holds
  | next _ turn ih => exact (progresses.advance ih turn).1

/-- The loop ends, and with how much fuel does not matter. -/
theorem total (progresses : Progresses body invariant post size) (holds : invariant start) :
    ∃ result, post result ∧ ∀ fuel, size start < fuel → loop body fuel start = some result := by
  induction bound : size start using Nat.strongRecOn generalizing start with
  | ind bound ih =>
    subst bound
    rcases progresses start holds with ⟨next, taken, kept, less⟩ | ⟨result, taken, met⟩
    · obtain ⟨result, met, reached⟩ := ih _ less kept rfl
      refine ⟨result, met, fun fuel enough => ?_⟩
      cases fuel with
      | zero => cases enough
      | succ fuel =>
        rw [loop, taken]
        exact reached fuel (by omega)
    · refine ⟨result, met, fun fuel enough => ?_⟩
      cases fuel with
      | zero => cases enough
      | succ fuel => rw [loop, taken]

end Progresses

end Anwesen.Foundation
