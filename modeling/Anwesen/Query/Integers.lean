import Mathlib.Algebra.Ring.Int.Defs
import Anwesen.Foundation.Decimals
import Anwesen.Query.Matching
import Anwesen.Vault.Numerals

/-! Equality on YAML integers.

From 2^63 on an integer becomes a double, which stands for every integer around
it and prints as the shortest decimal of them.
-/

set_option autoImplicit false

namespace Anwesen.Query

open Foundation Foundation.Decimals Vault

/-! The doubles from 2^63 to 2^64 are multiples of 2048. -/

/-- The nearest multiple, ties to even. -/
def significand (n : Nat) : Nat :=
  if 1024 < n % 2048 ∨ (n % 2048 = 1024 ∧ n / 2048 % 2 = 1) then n / 2048 + 1 else n / 2048

def double (m : Nat) : F64 := ⟨UInt64.ofNat (1086 * 2 ^ 52 + (m - 2 ^ 52))⟩

/-- What is read as a double: half way to its neighbours, which are closer below 2^63 and
further above 2^64, and the half way numbers themselves where the double is even. -/
def lower (m : Nat) : Nat := 2048 * m - (if m = 2 ^ 52 then 512 else 1024) + m % 2

def upper (m : Nat) : Nat := 2048 * m + (if m = 2 ^ 53 then 2048 else 1024) - m % 2

/-- A decimal that is printed for a double: the shortest of those read as the double, and the
closest to it of those. -/
def Prints (m c : Nat) : Prop := Shortest (lower m) (2048 * m) (upper m) c

/-- How floats from 2^63 to 2^64 are printed. -/
def PrintsShortest (ext : External) : Prop :=
  ∀ m, 2 ^ 52 ≤ m → m ≤ 2 ^ 53 → ∃ c : Nat, Prints m c ∧ ext.printFloat (double m) = intText c

/-- The integers a YAML number holds. -/
def InRange (n : Int) : Prop := -2 ^ 63 ≤ n ∧ n < 2 ^ 64

def numberOf (n : Int) : Number :=
  if n < 0 then .negInt (Int64.ofInt n) else .posInt (UInt64.ofNat n.toNat)

/-- An equality with this operand matches every note that has the integer under its key. -/
def MatchedBy (ext : External) (n : Int) (needle : Text) : Prop :=
  ∀ fm key, lookupDotted fm key = some (coerce ext (.number (numberOf n))) →
    predicateMatch ext ⟨key, .eq, needle⟩ fm = true

/-- An integer that is printed for the double nearest to it. -/
def OwnDecimal (n : Nat) : Prop := Prints (significand n) n

section

variable {m m' n c d : Nat}

theorem significand_range (large : 2 ^ 63 ≤ n) (small : n < 2 ^ 64) :
    2 ^ 52 ≤ significand n ∧ significand n ≤ 2 ^ 53 := by
  rw [significand]
  split <;> omega

theorem ofInt_eq_double (large : 2 ^ 63 ≤ n) (small : n < 2 ^ 64) :
    F64.ofInt n = double (significand n) := by
  have exponent : n.log2 = 63 := by
    rw [Nat.log2_eq_iff (by omega)]
    omega
  have range := significand_range large small
  have rounded : F64.roundNat n = 1086 * 2 ^ 52 + (significand n - 2 ^ 52) := by
    have nonzero : n ≠ 0 := by omega
    simp only [F64.roundNat, nonzero, exponent, if_false, Nat.shiftRight_eq_div_pow, Nat.shiftLeft_eq]
    rfl
  have positive : ¬ (n : Int) < 0 := by omega
  rw [F64.ofInt, double, Int.natAbs_natCast, rounded, if_neg positive, Nat.add_zero]

/-- How far around a double what is read as it reaches. -/
theorem around (range : 2 ^ 52 ≤ m) :
    2048 * m ≤ lower m + 1024 ∧ lower m + 511 ≤ 2048 * m ∧ 2048 * m + 1023 ≤ upper m := by
  rw [upper, lower]
  split <;> split <;> omega

/-- No decimal is read as two doubles. -/
theorem apart (range : 2 ^ 52 ≤ m) (range' : m' ≤ 2 ^ 53) (less : m < m') : upper m < lower m' := by
  rw [upper, lower]
  split <;> split <;> omega

theorem thousand (range : 2 ^ 52 ≤ m) (prints : Prints m c) : 10 ^ 3 ∣ c := by
  obtain ⟨-, below, above⟩ := around range
  refine prints.zeros ((lower m + 999) / 1000 * 1000) ?_ ?_ 3 (Nat.dvd_mul_left _ _) <;> omega

theorem le_printed (range : 2 ^ 52 ≤ m) (prints : Prints m c) : 2 ^ 63 ≤ c := by
  obtain ⟨q, rfl⟩ := thousand range prints
  have bound := prints.inside.1
  rw [lower] at bound
  split at bound <;> omega

theorem zeros_iff (first : Prints m c) (second : Prints m d) (k : Nat) : 10 ^ k ∣ c ↔ 10 ^ k ∣ d :=
  ⟨second.zeros c first.inside.1 first.inside.2 k, first.zeros d second.inside.1 second.inside.2 k⟩

/-- Of two that were printed a thousand to each side, the double between them has as many zeros
and is closer. -/
theorem not_on_both_sides (range : 2 ^ 52 ≤ m) (first : Prints m c) (second : Prints m d) :
    ¬ (2048 * m = c + 1000 ∧ d = c + 2000) := by
  rintro ⟨middle, rfl⟩
  obtain ⟨q, rfl⟩ := thousand range first
  have coarse : ∀ k, 10 ^ k ∣ 10 ^ 3 * q → 10 ^ k ∣ 2048 * m := by
    intro k divides
    have gap : 10 ^ k ∣ 2000 := (Nat.dvd_add_right divides).mp ((zeros_iff first second k).mp divides)
    have few : k ≤ 3 := by
      by_contra many
      have power : 10 ^ 4 ≤ 10 ^ k := Nat.pow_le_pow_right (by decide) (Nat.lt_of_not_le many)
      have bound := Nat.le_of_dvd (by decide) gap
      omega
    exact Nat.dvd_trans (Nat.pow_dvd_pow 10 few) ⟨q + 1, middle⟩
  obtain ⟨-, below, above⟩ := around range
  have best := first.closest (2048 * m) (by omega) (by omega) coarse
  simp only [distance] at best
  clear coarse below above
  omega

/-- A double is printed in one way. -/
theorem prints_unique (range : 2 ^ 52 ≤ m) (first : Prints m c) (second : Prints m d) : c = d := by
  have near := first.closest d second.inside.1 second.inside.2 fun k => (zeros_iff first second k).mp
  have near' := second.closest c first.inside.1 first.inside.2 fun k => (zeros_iff first second k).mpr
  by_contra differ
  simp only [distance] at near near'
  -- at one distance, they lie on both sides of the double
  have middle : c + d = 2 * (2048 * m) := by omega
  clear near near'
  have least := (around range).1
  have bound := Nat.le_trans least (Nat.add_le_add_right first.inside.1 1024)
  have bound' := Nat.le_trans least (Nat.add_le_add_right second.inside.1 1024)
  clear least
  have left := not_on_both_sides range first second
  have right := not_on_both_sides range second first
  obtain ⟨q, rfl⟩ := thousand range first
  obtain ⟨r, rfl⟩ := thousand range second
  have step : q + 2 = r ∨ r + 2 = q := by
    clear left right
    omega
  rcases step with up | down
  · exact left (by omega)
  · exact right (by omega)

end

section

variable {ext : External} {n : Int} {needle : Text}

theorem significand_toNat (range : InRange n) (large : 2 ^ 63 ≤ n) :
    2 ^ 52 ≤ significand n.toNat ∧ significand n.toNat ≤ 2 ^ 53 := by
  have bound := range.2
  exact significand_range (by omega) (by omega)

theorem coerce_small (range : InRange n) (small : n < 2 ^ 63) :
    coerce ext (.number (numberOf n)) = .int (Int64.ofInt n) ∧ (Int64.ofInt n).toInt = n := by
  have value : (Int64.ofInt n).toInt = n := by
    refine Int64.toInt_ofInt_of_le ?_ ?_
    · exact range.1
    · exact small
  refine ⟨?_, value⟩
  rw [coerce, numberOf]
  by_cases negative : n < 0
  · rw [if_pos negative]
    rfl
  · have bits : (UInt64.ofNat n.toNat).toNat = n.toNat := by
      rw [UInt64.toNat_ofNat']
      omega
    have fits : n.toNat < 0x8000000000000000 := by omega
    have whole : Int64.ofNat n.toNat = Int64.ofInt n := by
      rw [← Int64.ofInt_eq_ofNat, Int.toNat_of_nonneg (by omega)]
    simp only [negative, if_false, coerceNumber, Number.asI64, bits, fits, if_true, whole]

theorem coerce_large (range : InRange n) (large : 2 ^ 63 ≤ n) :
    coerce ext (.number (numberOf n)) = .float (double (significand n.toNat)) := by
  have bits : (UInt64.ofNat n.toNat).toNat = n.toNat := by
    have bound := range.2
    rw [UInt64.toNat_ofNat']
    omega
  have beyond : ¬ n.toNat < 0x8000000000000000 := by omega
  have positive : ¬ n < 0 := by omega
  have bound := range.2
  rw [coerce, numberOf, if_neg positive, ← ofInt_eq_double (by omega) (by omega)]
  simp only [coerceNumber, Number.asI64, Number.asF64, bits, beyond, if_false]

theorem matchedBy_iff : MatchedBy ext n needle ↔
    matchesEq ext (coerce ext (.number (numberOf n))) needle = true := by
  constructor
  · intro matched
    obtain ⟨fm, found⟩ := exists_lookupDotted [] (coerce ext (.number (numberOf n)))
    have met := matched fm [] found
    simpa [predicateMatch, found] using met
  · intro equal fm key found
    simpa [predicateMatch, found] using equal

theorem matchedBy_small (range : InRange n) (small : n < 2 ^ 63) :
    MatchedBy ext n needle ↔ needle = intText n := by
  obtain ⟨whole, value⟩ := @coerce_small ext n range small
  rw [matchedBy_iff, whole, matchesEq, matchesScalarEq, value, decide_eq_true_eq]
  · nofun

theorem matchedBy_float {f : F64} (float : coerce ext (.number (numberOf n)) = .float f) :
    MatchedBy ext n needle ↔ needle = ext.printFloat f := by
  rw [matchedBy_iff, float, matchesEq, matchesScalarEq, decide_eq_true_eq]
  · nofun

theorem matchedBy_large (prints : PrintsShortest ext) (range : InRange n) (large : 2 ^ 63 ≤ n) :
    ∃ c : Nat, Prints (significand n.toNat) c ∧ ∀ needle, MatchedBy ext n needle ↔ needle = intText c := by
  have bounds := significand_toNat range large
  obtain ⟨c, printed, text⟩ := prints _ bounds.1 bounds.2
  refine ⟨c, printed, fun needle => ?_⟩
  rw [matchedBy_float (coerce_large range large), text]

/-- Below 2^63 an integer shares its operand with no other. -/
theorem small_alone (prints : PrintsShortest ext) {m : Int} (range : InRange m) (small : m < 2 ^ 63)
    (range' : InRange n) (differ : m ≠ n) (needle : Text) :
    ¬ (MatchedBy ext m needle ∧ MatchedBy ext n needle) := by
  rintro ⟨matched, matched'⟩
  rw [(matchedBy_small range small).mp matched] at matched'
  rcases Int.lt_or_le n (2 ^ 63) with small' | large
  · exact differ (intText_inj.mp ((matchedBy_small range' small').mp matched'))
  · obtain ⟨c, printed, texts⟩ := matchedBy_large prints range' large
    have same := intText_inj.mp ((texts _).mp matched')
    have beyond := le_printed (significand_toNat range' large).1 printed
    omega

/-- From 2^63 on two integers share an operand when they are nearest to one double. -/
theorem large_share_iff (prints : PrintsShortest ext) {m : Int} (range : InRange m) (large : 2 ^ 63 ≤ m)
    (range' : InRange n) (large' : 2 ^ 63 ≤ n) :
    (∃ needle, MatchedBy ext m needle ∧ MatchedBy ext n needle) ↔
      significand m.toNat = significand n.toNat := by
  obtain ⟨c, printed, texts⟩ := matchedBy_large prints range large
  obtain ⟨d, printed', texts'⟩ := matchedBy_large prints range' large'
  have bounds := significand_toNat range large
  have bounds' := significand_toNat range' large'
  constructor
  · rintro ⟨needle, matched, matched'⟩
    rw [texts] at matched
    rw [texts', matched, intText_inj] at matched'
    obtain rfl : c = d := by omega
    rcases Nat.lt_trichotomy (significand m.toNat) (significand n.toNat) with less | same | more
    · have between := apart bounds.1 bounds'.2 less
      have inside := printed.inside.2
      have inside' := printed'.inside.1
      omega
    · exact same
    · have between := apart bounds'.1 bounds.2 more
      have inside := printed.inside.1
      have inside' := printed'.inside.2
      omega
  · intro same
    rw [same] at printed
    obtain rfl := prints_unique bounds'.1 printed printed'
    exact ⟨intText c, (texts _).mpr rfl, (texts' _).mpr rfl⟩

/-- An integer is found by its own digits, and alone, below 2^63; from there on by the decimal
its double prints as, with every integer of that double. -/
theorem integers_keep_iff (prints : PrintsShortest ext) :
    (∀ n, InRange n → (MatchedBy ext n (intText n) ↔ n < 2 ^ 63 ∨ OwnDecimal n.toNat)) ∧
    ∀ m n, InRange m → InRange n → m ≠ n →
      ((∀ needle, ¬ (MatchedBy ext m needle ∧ MatchedBy ext n needle)) ↔
        ¬ (2 ^ 63 ≤ m ∧ 2 ^ 63 ≤ n ∧ significand m.toNat = significand n.toNat)) := by
  constructor
  · intro n range
    rcases Int.lt_or_le n (2 ^ 63) with small | large
    · exact iff_of_true ((matchedBy_small range small).mpr rfl) (.inl small)
    · obtain ⟨c, printed, matched⟩ := matchedBy_large prints range large
      have notSmall : ¬ n < 2 ^ 63 := by omega
      rw [matched, intText_inj, or_iff_right notSmall, OwnDecimal]
      constructor
      · rintro rfl
        exact printed
      · intro own
        have same := prints_unique (significand_toNat range large).1 own printed
        omega
  · intro m n range range' differ
    rcases Int.lt_or_le m (2 ^ 63) with small | large
    · have first : ¬ 2 ^ 63 ≤ m := by omega
      exact iff_of_true (small_alone prints range small range' differ) fun all => first all.1
    rcases Int.lt_or_le n (2 ^ 63) with small' | large'
    · have second : ¬ 2 ^ 63 ≤ n := by omega
      refine iff_of_true (fun needle both => ?_) fun all => second all.2.1
      exact small_alone prints range' small' range differ.symm needle both.symm
    · rw [← not_exists, large_share_iff prints range large range' large']
      simp only [large, large', true_and]

end

/-- A printer of the shortest decimals, for the doubles it is used on. -/
def printsShortest : External :=
  { External.bare with
    printFloat := fun f =>
      let m := f.bits.toNat - 1086 * 2 ^ 52 + 2 ^ 52
      intText (shortest (lower m) (2048 * m) (upper m)) }

theorem printsShortest_spec : PrintsShortest printsShortest := by
  intro m range range'
  have bits : (double m).bits.toNat - 1086 * 2 ^ 52 + 2 ^ 52 = m := by
    simp only [double, UInt64.toNat_ofNat']
    omega
  refine ⟨shortest (lower m) (2048 * m) (upper m), ?_, ?_⟩
  · obtain ⟨least, below, above⟩ := around range
    refine shortest_spec ?_ ⟨?_, ?_⟩ <;> omega
  · simp only [printsShortest, bits]

theorem integers_keep_iff_small : MatchedBy printsShortest (-7) "-7".toList :=
  ((integers_keep_iff printsShortest_spec).1 (-7) ⟨by decide, by decide⟩).mpr (.inl (by decide))

/-- 2^63 and the integer after it are found by one decimal, which is neither of them. -/
theorem wide_integers_merge :
    let m : Int := 9223372036854775808
    let n : Int := 9223372036854775809
    let needle := "9223372036854776000".toList
    PrintsShortest printsShortest ∧ ¬ MatchedBy printsShortest m (intText m) ∧
      MatchedBy printsShortest m needle ∧ MatchedBy printsShortest n needle := by
  intro m n needle
  have range : InRange m := ⟨by decide, by decide⟩
  have range' : InRange n := ⟨by decide, by decide⟩
  have one : significand m.toNat = 2 ^ 52 ∧ significand n.toNat = 2 ^ 52 := by decide +kernel
  have shape : coerce printsShortest (.number (numberOf m)) = .float (double (2 ^ 52)) := by
    rw [coerce_large range (by decide), one.1]
  have shape' : coerce printsShortest (.number (numberOf n)) = .float (double (2 ^ 52)) := by
    rw [coerce_large range' (by decide), one.2]
  have printed : printsShortest.printFloat (double (2 ^ 52)) = needle := by decide +kernel
  have differ : intText 9223372036854775808 ≠ "9223372036854776000".toList := by decide +kernel
  refine ⟨printsShortest_spec, ?_, ?_, ?_⟩
  · rw [matchedBy_float shape, printed]
    exact differ
  · exact (matchedBy_float shape).mpr printed.symm
  · exact (matchedBy_float shape').mpr printed.symm

end Anwesen.Query
