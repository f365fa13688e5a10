import Mathlib.Data.List.Basic

/-! Runs of a labelled partial transition function, and the invariant rules. -/

set_option autoImplicit false

namespace Anwesen.Foundation

variable {State Label : Type}

/-- Execute the labels from left to right; a refused label refuses the run. -/
def run (step : State → Label → Option State) : State → List Label → Option State
  | state, [] => some state
  | state, label :: rest => (step state label).bind fun next => run step next rest

/-- Every label of the run is taken in a state that meets the condition. -/
def Meets (step : State → Label → Option State) (condition : State → Label → Prop) :
    State → List Label → Prop
  | _, [] => True
  | state, label :: rest =>
      condition state label ∧ ∀ next, step state label = some next → Meets step condition next rest

/-- A condition that can be decided in each state can be decided along a run. -/
instance decidableMeets (step : State → Label → Option State) (condition : State → Label → Prop)
    [∀ state label, Decidable (condition state label)] :
    ∀ state labels, Decidable (Meets step condition state labels)
  | _, [] => .isTrue trivial
  | state, label :: rest =>
      match taken : step state label with
      -- a refused label ends the run: nothing is asked of the rest
      | none => decidable_of_iff (condition state label) (by simp [Meets, taken])
      | some next =>
          have := decidableMeets step condition next rest
          decidable_of_iff (condition state label ∧ Meets step condition next rest)
            (by simp [Meets, taken])

variable {step : State → Label → Option State}

@[simp] theorem run_nil (state : State) : run step state [] = some state := rfl

@[simp] theorem run_singleton (state : State) (label : Label) :
    run step state [label] = step state label := by
  simp [run]

theorem run_cons {state final : State} {label : Label} {rest : List Label} :
    run step state (label :: rest) = some final ↔
      ∃ next, step state label = some next ∧ run step next rest = some final := by
  simp [run, Option.bind_eq_some_iff]

theorem run_append {state final : State} {before after : List Label} :
    run step state (before ++ after) = some final ↔
      ∃ middle, run step state before = some middle ∧ run step middle after = some final := by
  induction before generalizing state with
  | nil => simp
  | cons label rest ih =>
    rw [List.cons_append, run_cons]
    simp only [ih, run_cons]
    grind

theorem Meets.of_forall {condition : State → Label → Prop} {labels : List Label}
    (holds : ∀ state, ∀ label ∈ labels, condition state label) (state : State) :
    Meets step condition state labels := by
  induction labels generalizing state with
  | nil => trivial
  | cons label rest ih =>
    exact ⟨holds state label List.mem_cons_self, fun next _ =>
      ih (fun other later member => holds other later (List.mem_cons_of_mem _ member)) next⟩

theorem Meets.and {first second : State → Label → Prop} {state : State} {labels : List Label}
    (one : Meets step first state labels) (other : Meets step second state labels) :
    Meets step (fun state label => first state label ∧ second state label) state labels := by
  induction labels generalizing state with
  | nil => trivial
  | cons label rest ih =>
    exact ⟨⟨one.1, other.1⟩, fun next taken => ih (one.2 next taken) (other.2 next taken)⟩

/-- The invariant rule for runs whose steps all meet a condition. -/
theorem run_invariant {condition : State → Label → Prop} (invariant : State → Prop)
    (preserved : ∀ state label next, invariant state → condition state label →
      step state label = some next → invariant next)
    {state final : State} {labels : List Label} (holds : invariant state)
    (meets : Meets step condition state labels) (reached : run step state labels = some final) :
    invariant final := by
  induction labels generalizing state with
  | nil =>
    cases reached
    exact holds
  | cons label rest ih =>
    obtain ⟨next, taken, reached⟩ := run_cons.mp reached
    exact ih (preserved state label next holds meets.1 taken) (meets.2 next taken) reached

/-- The invariant rule for what also speaks of the labels so far. -/
theorem run_trace {condition : State → Label → Prop} {invariant : List Label → State → Prop}
    (preserved : ∀ seen state label next, invariant seen state → condition state label →
      step state label = some next → invariant (seen ++ [label]) next)
    {state final : State} {seen labels : List Label} (holds : invariant seen state)
    (meets : Meets step condition state labels) (reached : run step state labels = some final) :
    invariant (seen ++ labels) final := by
  induction labels generalizing state seen with
  | nil =>
    cases reached
    rwa [List.append_nil]
  | cons label rest ih =>
    obtain ⟨next, taken, reached⟩ := run_cons.mp reached
    rw [List.append_cons]
    exact ih (preserved seen state label next holds meets.1 taken) (meets.2 next taken) reached

theorem run_history {invariant : List Label → State → Prop}
    (preserved : ∀ seen state label next, invariant seen state → step state label = some next →
      invariant (seen ++ [label]) next)
    {state final : State} {seen labels : List Label} (holds : invariant seen state)
    (reached : run step state labels = some final) : invariant (seen ++ labels) final := by
  have always : Meets step (fun _ _ => True) state labels := Meets.of_forall (fun _ _ _ => trivial) _
  exact run_trace (fun seen state label next holds _ => preserved seen state label next holds) holds
    always reached

/-- Label for label, the runs of a system that another one simulates are runs of that one. -/
theorem run_of_simulates {Fine : Type} {fine : Fine → Label → Option Fine} {view : Fine → State}
    (simulates : ∀ state label next, fine state label = some next →
      step (view state) label = some (view next))
    {state final : Fine} {labels : List Label} (reached : run fine state labels = some final) :
    run step (view state) labels = some (view final) := by
  induction labels generalizing state with
  | nil =>
    cases reached
    rfl
  | cons label rest ih =>
    obtain ⟨next, taken, reached⟩ := run_cons.mp reached
    exact run_cons.mpr ⟨view next, simulates state label next taken, ih reached⟩

theorem Meets.mono {strong weak : State → Label → Prop}
    (implies : ∀ state label, strong state label → weak state label)
    {state : State} {labels : List Label} (meets : Meets step strong state labels) :
    Meets step weak state labels := by
  induction labels generalizing state with
  | nil => trivial
  | cons label rest ih =>
    exact ⟨implies state label meets.1, fun next taken => ih (meets.2 next taken)⟩

end Anwesen.Foundation
