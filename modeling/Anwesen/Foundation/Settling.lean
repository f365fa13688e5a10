import Anwesen.Foundation.Transition

/-! Systems that come to rest when nothing from outside happens to them.

A measure shrinks with every step the system takes by itself, and such a step is
there until it rests; every schedule of these steps then ends, and ends at rest.
-/

set_option autoImplicit false

namespace Anwesen.Foundation

variable {State Label : Type}

/-- The own steps of a system, from the states of an invariant, wind it down. -/
structure Settles (step : State → Label → Option State) (own : Label → Prop)
    (invariant rest : State → Prop) (size : State → Nat) : Prop where
  kept : ∀ state label next, invariant state → own label → step state label = some next →
    invariant next
  shrinks : ∀ state label next, invariant state → own label → step state label = some next →
    size next < size state
  lively : ∀ state, invariant state → ¬ rest state → ∃ label next, own label ∧
    step state label = some next

namespace Settles

variable {step : State → Label → Option State} {own : Label → Prop} {invariant rest : State → Prop}
  {size : State → Nat} {state final : State} {labels : List Label}

/-- A run of own steps is no longer than the measure says. -/
theorem bounded (settles : Settles step own invariant rest size) (holds : invariant state)
    (mine : ∀ label ∈ labels, own label) (reached : run step state labels = some final) :
    labels.length + size final ≤ size state ∧ invariant final := by
  induction labels generalizing state with
  | nil =>
    cases reached
    exact ⟨by simp, holds⟩
  | cons label others ih =>
    obtain ⟨next, taken, reached⟩ := run_cons.mp reached
    have first := mine label List.mem_cons_self
    have shrunk := settles.shrinks state label next holds first taken
    obtain ⟨bound, kept⟩ := ih (settles.kept state label next holds first taken)
      (fun other member => mine other (List.mem_cons_of_mem _ member)) reached
    refine ⟨?_, kept⟩
    rw [List.length_cons]
    omega

/-- Every run of own steps can be carried on until the system rests. -/
theorem completes (settles : Settles step own invariant rest size) (holds : invariant state) :
    ∃ labels final, (∀ label ∈ labels, own label) ∧ run step state labels = some final ∧ rest final := by
  induction left : size state using Nat.strongRecOn generalizing state with
  | ind _ ih =>
    by_cases done : rest state
    · exact ⟨[], state, by simp, rfl, done⟩
    · obtain ⟨label, next, mine, taken⟩ := settles.lively state holds done
      have shrunk := settles.shrinks state label next holds mine taken
      obtain ⟨labels, final, all, reached, ends⟩ :=
        ih (size next) (left ▸ shrunk) (settles.kept state label next holds mine taken) rfl
      refine ⟨label :: labels, final, ?_, run_cons.mpr ⟨next, taken, reached⟩, ends⟩
      exact List.forall_mem_cons.mpr ⟨mine, all⟩

/-- A run of own steps that cannot go on has come to rest. -/
theorem rests (settles : Settles step own invariant rest size) (holds : invariant state)
    (mine : ∀ label ∈ labels, own label) (reached : run step state labels = some final)
    (stuck : ∀ label, own label → step final label = none) : rest final := by
  by_contra restless
  obtain ⟨label, next, last, taken⟩ :=
    settles.lively final (settles.bounded holds mine reached).2 restless
  rw [stuck label last] at taken
  cases taken

end Settles

end Anwesen.Foundation
