import Anwesen.Foundation.Sorting

/-! Comparators that choose their rung by the pair.

Two elements of one kind are compared finely, any other pair coarsely. Each of the
two comparisons is a total order; together they are one exactly where no element
of another kind crosses a pair, that is, stands coarsely between two elements
against their fine order.
-/

set_option autoImplicit false

namespace Anwesen.Foundation

variable {α Kind : Type} [DecidableEq Kind]

section

variable (kind : α → Option Kind) (fine coarse : α → α → Ordering)

def SameRung (a b : α) : Prop := (kind a).isSome = true ∧ kind a = kind b

instance (a b : α) : Decidable (SameRung kind a b) := inferInstanceAs (Decidable (_ ∧ _))

def rungs (a b : α) : Ordering := if SameRung kind a b then fine a b else coarse a b

/-- `c` stands coarsely between `b` and `a` although `a` is finely before `b`. -/
structure Crosses (a b c : α) : Prop where
  same : SameRung kind a b
  other : ¬ SameRung kind b c
  before : fine a b = .lt
  after : coarse b c = .lt
  back : coarse c a = .lt

instance {a b c : α} : Decidable (Crosses kind fine coarse a b c) :=
  decidable_of_iff (SameRung kind a b ∧ ¬ SameRung kind b c ∧ fine a b = .lt ∧ coarse b c = .lt ∧
      coarse c a = .lt)
    ⟨fun ⟨same, other, before, after, back⟩ => ⟨same, other, before, after, back⟩,
      fun crosses => ⟨crosses.same, crosses.other, crosses.before, crosses.after, crosses.back⟩⟩

/-- Among the elements of a list the comparator is transitive. -/
def TransOn (cmp : α → α → Ordering) (items : List α) : Prop :=
  ∀ a ∈ items, ∀ b ∈ items, ∀ c ∈ items, cmp a b = .lt → cmp b c = .lt → cmp a c = .lt

end

variable {kind : α → Option Kind} {fine coarse : α → α → Ordering}

namespace SameRung

variable {a b c : α}

omit [DecidableEq Kind] in
theorem symm (same : SameRung kind a b) : SameRung kind b a := ⟨same.2 ▸ same.1, same.2.symm⟩

omit [DecidableEq Kind] in
theorem trans (first : SameRung kind a b) (second : SameRung kind b c) : SameRung kind a c :=
  ⟨first.1, first.2.trans second.2⟩

end SameRung

instance [Std.OrientedCmp fine] [Std.OrientedCmp coarse] : Std.OrientedCmp (rungs kind fine coarse) where
  eq_swap := by
    intro a b
    by_cases same : SameRung kind a b
    · simp only [rungs, if_pos same, if_pos same.symm]
      exact Std.OrientedCmp.eq_swap
    · simp only [rungs, if_neg same, if_neg fun back : SameRung kind b a => same back.symm]
      exact Std.OrientedCmp.eq_swap

omit [DecidableEq Kind] in
theorem transOn_congr {first second : α → α → Ordering} {items : List α}
    (same : ∀ a ∈ items, ∀ b ∈ items, first a b = second a b) :
    TransOn first items ↔ TransOn second items := by
  constructor <;> intro trans a inA b inB c inC ab bc
  · rw [← same a inA b inB] at ab
    rw [← same b inB c inC] at bc
    rw [← same a inA c inC]
    exact trans a inA b inB c inC ab bc
  · rw [same a inA b inB] at ab
    rw [same b inB c inC] at bc
    rw [same a inA c inC]
    exact trans a inA b inB c inC ab bc

theorem lt_of_ne_gt {cmp : α → α → Ordering} [Std.OrientedCmp cmp] {a b : α} (strict : cmp a b ≠ .eq)
    (notBack : cmp b a ≠ .lt) : cmp a b = .lt := by
  cases compared : cmp a b with
  | lt => rfl
  | eq => exact absurd compared strict
  | gt => exact absurd (Std.OrientedCmp.lt_of_gt compared) notBack

/-- The comparator is transitive exactly where nothing crosses a pair. -/
theorem transOn_rungs_iff [Std.TransCmp fine] [Std.TransCmp coarse] {items : List α}
    (strict : ∀ a ∈ items, ∀ b ∈ items, (fine a b = .eq ∨ coarse a b = .eq) → a = b) :
    TransOn (rungs kind fine coarse) items ↔
      ¬ ∃ a ∈ items, ∃ b ∈ items, ∃ c ∈ items, Crosses kind fine coarse a b c := by
  constructor
  · rintro trans ⟨a, inA, b, inB, c, inC, crosses⟩
    have otherA : ¬ SameRung kind a c := fun same => crosses.other (crosses.same.symm.trans same)
    have closes := trans a inA b inB c inC
      (by rw [rungs, if_pos crosses.same, crosses.before])
      (by rw [rungs, if_neg crosses.other, crosses.after])
    have ahead : coarse a c = .gt := Std.OrientedCmp.gt_of_lt crosses.back
    rw [rungs, if_neg otherA, ahead] at closes
    cases closes
  · intro clear a inA b inB c inC first second
    -- If the third pair ran backwards, one of the three elements would cross the other two.
    have crossing : ∀ x ∈ items, ∀ y ∈ items, ∀ z ∈ items, SameRung kind x y → ¬ SameRung kind y z →
        fine x y = .lt → coarse y z = .lt → coarse z x ≠ .lt :=
      fun x inX y inY z inZ same other before after back =>
        clear ⟨x, inX, y, inY, z, inZ, same, other, before, after, back⟩
    have apart : a ≠ c := by
      rintro rfl
      exact Std.OrientedCmp.not_gt_of_gt (Std.OrientedCmp.gt_of_lt first)
        (Std.OrientedCmp.gt_of_lt second)
    by_cases ab : SameRung kind a b
    · rw [rungs, if_pos ab] at first
      by_cases bc : SameRung kind b c
      · rw [rungs, if_pos bc] at second
        rw [rungs, if_pos (ab.trans bc)]
        exact Std.TransCmp.lt_trans first second
      · rw [rungs, if_neg bc] at second
        rw [rungs, if_neg fun ac => bc (ab.symm.trans ac)]
        exact lt_of_ne_gt (fun equal => apart (strict a inA c inC (.inr equal)))
          (crossing a inA b inB c inC ab bc first second)
    · rw [rungs, if_neg ab] at first
      by_cases bc : SameRung kind b c
      · rw [rungs, if_pos bc] at second
        rw [rungs, if_neg fun ac => ab (ac.trans bc.symm)]
        refine lt_of_ne_gt (fun equal => apart (strict a inA c inC (.inr equal))) fun back => ?_
        exact crossing b inB c inC a inA bc (fun ca => ab (bc.trans ca).symm) second back first
      · rw [rungs, if_neg bc] at second
        have through : coarse a c = .lt := Std.TransCmp.lt_trans first second
        by_cases ac : SameRung kind a c
        · rw [rungs, if_pos ac]
          refine lt_of_ne_gt (fun equal => apart (strict a inA c inC (.inl equal))) fun back => ?_
          exact crossing c inC a inA b inB ac.symm ab back first second
        · rw [rungs, if_neg ac, through]

/-- For a comparator that tells any two elements of the list apart, to be a total order on
it is to be transitive. -/
theorem totalOn_iff_transOn {cmp : α → α → Ordering} [Std.OrientedCmp cmp] {items : List α}
    (strict : ∀ a ∈ items, ∀ b ∈ items, cmp a b = .eq → a = b) : TotalOn cmp items ↔ TransOn cmp items := by
  constructor
  · intro total a inA b inB c inC first second
    have le := total.closed a inA b inB c inC (by simp [first]) (by simp [second])
    cases ac : cmp a c with
    | lt => rfl
    | gt => simp [ac] at le
    | eq =>
      obtain rfl := strict a inA c inC ac
      rw [Std.OrientedCmp.gt_of_lt first] at second
      cases second
  · refine fun trans => ⟨fun _ _ _ _ => Std.OrientedCmp.eq_swap, fun a inA b inB c inC first second => ?_⟩
    cases ab : cmp a b with
    | gt => simp [ab] at first
    | eq =>
      obtain rfl := strict a inA b inB ab
      exact second
    | lt =>
      cases bc : cmp b c with
      | gt => simp [bc] at second
      | eq =>
        obtain rfl := strict b inB c inC bc
        exact first
      | lt => simp [trans a inA b inB c inC ab bc]

end Anwesen.Foundation
