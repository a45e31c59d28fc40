import Mathlib.Data.Nat.Notation
import Mathlib.Data.Int.Notation
import Mathlib.Data.List.Basic

/-!
# Decimal numerals

The numeral of a number determines it, and is written with digits and a minus sign.
-/

namespace Decimal

theorem toList_natRepr (n : ℕ) : n.repr.toList = Nat.toDigits 10 n := by
  rw [Nat.repr_eq_ofList_toDigits, String.toList_ofList]

theorem isDigit_of_mem_natRepr {n : ℕ} {c : Char} (h : c ∈ n.repr.toList) : c.isDigit = true := by
  rw [toList_natRepr] at h
  exact Nat.isDigit_of_mem_toDigits (by decide) (by decide) h

theorem natRepr_inj {m n : ℕ} (h : m.repr = n.repr) : m = n := by
  have hdigits : Nat.toDigits 10 m = Nat.toDigits 10 n := by
    rw [← toList_natRepr, ← toList_natRepr, h]
  calc m = Nat.ofDigitChars 10 (Nat.toDigits 10 m) 0 := Nat.ofDigitChars_ten_toDigits.symm
    _ = Nat.ofDigitChars 10 (Nat.toDigits 10 n) 0 := by rw [hdigits]
    _ = n := Nat.ofDigitChars_ten_toDigits

/-- The numeral of a natural number does not start with a minus sign. -/
theorem natRepr_ne_minus (n m : ℕ) : n.repr ≠ "-" ++ m.repr := by
  intro h
  have hmem : '-' ∈ n.repr.toList := by
    rw [h, String.toList_append]
    exact List.mem_append_left _ (by decide)
  exact absurd (isDigit_of_mem_natRepr hmem) (by decide)

theorem intRepr_inj {m n : ℤ} (h : m.repr = n.repr) : m = n := by
  cases m with
  | ofNat m =>
    cases n with
    | ofNat n => rw [natRepr_inj h]
    | negSucc n => exact absurd h (natRepr_ne_minus _ _)
  | negSucc m =>
    cases n with
    | ofNat n => exact absurd h.symm (natRepr_ne_minus _ _)
    | negSucc n =>
      have hsucc : m + 1 = n + 1 := natRepr_inj ((String.append_right_inj _).mp h)
      rw [Nat.add_right_cancel hsucc]

theorem mem_intRepr {n : ℤ} {c : Char} (h : c ∈ n.repr.toList) : c.isDigit = true ∨ c = '-' := by
  cases n with
  | ofNat n => exact .inl (isDigit_of_mem_natRepr h)
  | negSucc n =>
    change c ∈ ("-" ++ (n + 1).repr).toList at h
    rw [String.toList_append] at h
    rcases List.mem_append.mp h with h | h
    · exact .inr (by simpa using h)
    · exact .inl (isDigit_of_mem_natRepr h)

end Decimal
