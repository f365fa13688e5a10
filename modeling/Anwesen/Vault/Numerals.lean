import Std.Data.String.ToInt
import Anwesen.Vault.Value

/-! The decimal texts of integers. -/

set_option autoImplicit false

namespace Anwesen.Vault

theorem intText_of_nonneg {n : Int} (sign : 0 ≤ n) : intText n = Nat.toDigits 10 n.toNat := by
  rw [intText, Int.toString_eq_repr, Int.repr_eq_if, if_pos sign, Nat.toList_repr]

theorem intText_of_neg {n : Int} (sign : n < 0) : intText n = '-' :: Nat.toDigits 10 (-n).toNat := by
  rw [intText, Int.toString_eq_repr, Int.repr_eq_if, if_neg (Int.not_le.mpr sign), String.toList_append,
    Nat.toList_repr]
  rfl

theorem intText_inj {m n : Int} : intText m = intText n ↔ m = n := by
  rw [intText, intText, String.toList_inj]
  exact Int.repr_inj

theorem isDigit_toDigits (n : Nat) : ∀ digit ∈ Nat.toDigits 10 n, digit.isDigit = true :=
  fun _ listed => Nat.isDigit_of_mem_toDigits (by decide) (by decide) listed

/-- Read digit by digit, the digits of a number give it back. -/
theorem foldl_toDigits (n : Nat) :
    (Nat.toDigits 10 n).foldl (fun n digit => 10 * n + (digit.toNat - 48)) 0 = n := by
  have read := @Nat.ofDigitChars_ten_toDigits n
  rwa [Nat.ofDigitChars_eq_foldl] at read

/-- An integer's text starts with a digit or a minus sign. -/
theorem intText_head (n : Int) : ∃ first rest, intText n = first :: rest ∧
    (first.isDigit = true ∨ first = '-') := by
  rcases Int.lt_or_le n 0 with sign | sign
  · exact ⟨'-', _, intText_of_neg sign, .inr rfl⟩
  · obtain ⟨first, rest, digits⟩ := List.exists_cons_of_ne_nil (@Nat.toDigits_ne_nil n.toNat 10)
    refine ⟨first, rest, (intText_of_nonneg sign).trans digits, .inl ?_⟩
    exact isDigit_toDigits n.toNat first (digits ▸ List.mem_cons_self)

end Anwesen.Vault
