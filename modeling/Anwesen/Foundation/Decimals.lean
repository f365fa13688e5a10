import Mathlib.Algebra.Ring.Nat
import Mathlib.Data.Nat.Find
import Mathlib.Data.Nat.Log

/-! The shortest decimal in an interval of natural numbers.

Between bounds that are given, it is the number with the most zeros at its end,
and among those the one closest to a value between the bounds.
-/

set_option autoImplicit false

namespace Anwesen.Foundation.Decimals

def distance (a b : Nat) : Nat := (a - b) + (b - a)

structure Shortest (low value high c : Nat) : Prop where
  inside : low ≤ c ∧ c ≤ high
  zeros : ∀ d, low ≤ d → d ≤ high → ∀ k, 10 ^ k ∣ d → 10 ^ k ∣ c
  closest : ∀ d, low ≤ d → d ≤ high → (∀ k, 10 ^ k ∣ c → 10 ^ k ∣ d) → distance c value ≤ distance d value

/-- The multiples of a step next to a value. -/
def below (value step : Nat) : Nat := value - value % step

def above (value step : Nat) : Nat := if value % step = 0 then value else value - value % step + step

def HasMultiple (low value high step : Nat) : Prop := low ≤ below value step ∨ above value step ≤ high

instance (low value high step : Nat) : Decidable (HasMultiple low value high step) :=
  inferInstanceAs (Decidable (_ ∨ _))

def closer (low value high step : Nat) : Nat :=
  if low ≤ below value step ∧ (high < above value step ∨ value - below value step ≤ above value step - value)
  then below value step
  else above value step

/-- The decimal is found at the greatest power of ten with a multiple in the interval. -/
def shortest (low value high : Nat) : Nat :=
  closer low value high
    (10 ^ Nat.findGreatest (fun k => HasMultiple low value high (10 ^ k)) (Nat.log 10 high))

section

variable {low value high step d : Nat}

theorem dvd_below (value step : Nat) : step ∣ below value step := Nat.dvd_sub_mod value

theorem below_le (value step : Nat) : below value step ≤ value := Nat.sub_le value _

theorem dvd_above (value step : Nat) : step ∣ above value step := by
  rw [above]
  split
  · exact Nat.dvd_of_mod_eq_zero ‹_›
  · exact Nat.dvd_add (dvd_below value step) (Nat.dvd_refl step)

theorem le_above (positive : 0 < step) (value : Nat) : value ≤ above value step := by
  have rest := Nat.mod_lt value positive
  rw [above]
  split <;> omega

theorem le_below (multiple : step ∣ d) (under : d ≤ value) : d ≤ below value step := by
  obtain ⟨q, rfl⟩ := multiple
  have rest : value % step ≤ value - step * q := by
    rw [← Nat.sub_mul_mod under]
    exact Nat.mod_le _ _
  rw [below]
  omega

theorem above_le (multiple : step ∣ d) (beyond : value < d) : above value step ≤ d := by
  rw [above]
  split
  · exact Nat.le_of_lt beyond
  · have apart : step ∣ d - below value step := Nat.dvd_sub multiple (dvd_below value step)
    have under := below_le value step
    have atLeast := Nat.le_of_dvd (by omega) apart
    rw [below] at atLeast under
    omega

theorem hasMultiple_iff (positive : 0 < step) (around : low ≤ value ∧ value ≤ high) :
    HasMultiple low value high step ↔ ∃ d, low ≤ d ∧ d ≤ high ∧ step ∣ d := by
  constructor
  · rintro (under | beyond)
    · exact ⟨_, under, (below_le value step).trans around.2, dvd_below value step⟩
    · exact ⟨_, around.1.trans (le_above positive value), beyond, dvd_above value step⟩
  · rintro ⟨d, bound, bound', multiple⟩
    rcases Nat.lt_or_ge value d with beyond | under
    · exact .inr ((above_le multiple beyond).trans bound')
    · exact .inl (bound.trans (le_below multiple under))

/-- Where there is a multiple in the interval, the closer one of two is found. -/
theorem closer_spec (positive : 0 < step) (around : low ≤ value ∧ value ≤ high)
    (some_ : HasMultiple low value high step) :
    let c := closer low value high step
    low ≤ c ∧ c ≤ high ∧ step ∣ c ∧
      ∀ d, low ≤ d → d ≤ high → step ∣ d → distance c value ≤ distance d value := by
  intro c
  have under := below_le value step
  have beyond := le_above positive value
  have next : ∀ d, step ∣ d → d ≤ below value step ∨ above value step ≤ d := fun d multiple =>
    (Nat.lt_or_ge value d).elim (fun more => .inr (above_le multiple more))
      fun less => .inl (le_below multiple less)
  by_cases first : low ≤ below value step ∧
      (high < above value step ∨ value - below value step ≤ above value step - value)
  · have chosen : c = below value step := if_pos first
    rw [chosen]
    refine ⟨first.1, by omega, dvd_below value step, fun d bound bound' multiple => ?_⟩
    have side := next d multiple
    simp only [distance]
    omega
  · have chosen : c = above value step := if_neg first
    have inside : above value step ≤ high := by
      rcases some_ with under | beyond
      · by_contra outside
        exact first ⟨under, .inl (Nat.lt_of_not_le outside)⟩
      · exact beyond
    rw [chosen]
    refine ⟨by omega, inside, dvd_above value step, fun d bound bound' multiple => ?_⟩
    have side := next d multiple
    simp only [distance]
    omega

theorem shortest_spec (positive : 0 < low) (around : low ≤ value ∧ value ≤ high) :
    Shortest low value high (shortest low value high) := by
  let P := fun k => HasMultiple low value high (10 ^ k)
  let zeros := Nat.findGreatest P (Nat.log 10 high)
  have ten : ∀ k, 0 < 10 ^ k := fun k => Nat.pow_pos (by decide)
  have found : P zeros := by
    refine Nat.findGreatest_spec (P := P) (Nat.zero_le _) ?_
    exact (hasMultiple_iff (ten 0) around).mpr ⟨value, around.1, around.2, Nat.one_dvd _⟩
  obtain ⟨bound, bound', multiple, closest⟩ := closer_spec (ten zeros) around found
  have most : ∀ d, low ≤ d → d ≤ high → ∀ k, 10 ^ k ∣ d → k ≤ zeros := by
    intro d inLow inHigh k divides
    by_contra more
    have small : 10 ^ k ≤ high := (Nat.le_of_dvd (positive.trans_le inLow) divides).trans inHigh
    refine Nat.findGreatest_is_greatest (P := P) (Nat.lt_of_not_le more)
      (Nat.le_log_of_pow_le (by decide) small) ?_
    exact (hasMultiple_iff (ten k) around).mpr ⟨d, inLow, inHigh, divides⟩
  refine ⟨⟨bound, bound'⟩, fun d inLow inHigh k divides => ?_, fun d inLow inHigh same => ?_⟩
  · exact Nat.dvd_trans (Nat.pow_dvd_pow 10 (most d inLow inHigh k divides)) multiple
  · exact closest d inLow inHigh (same zeros multiple)

end

end Anwesen.Foundation.Decimals
