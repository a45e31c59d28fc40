import Mathlib.Data.Nat.Notation
import Mathlib.Data.List.Basic
import Mathlib.Tactic.IntervalCases

/-!
# The base64 encoding

RFC 4648, section 4: the bytes are taken in groups of three, a group is a number of 24 bits, and its
four digits of six bits are written with an alphabet of 64 characters. A last group of one or two
bytes is filled with zero bits and has two or three digits; `=` characters make up the four.
-/

namespace Base64

/-- The alphabet, as ASCII codes: the capital letters, the small letters, the ten digits, `+` and
`/`. -/
def alphabet : List UInt8 :=
  ((List.range' 65 26 ++ List.range' 97 26 ++ List.range' 48 10) ++ [43, 47]).map UInt8.ofNat

/-- The character `=`. -/
def pad : UInt8 := 61

/-- The character of a digit. -/
def digit (n : ℕ) : UInt8 := alphabet.getD n pad

/-- The number of a group of three bytes. -/
def group (x y z : UInt8) : ℕ := x.toNat * 2^16 + y.toNat * 2^8 + z.toNat

/-- The encoding without padding. -/
def encode : List UInt8 → List UInt8
  | [] => []
  | [x] =>
    let n := group x 0 0
    [digit (n / 2^18), digit (n / 2^12 % 64)]
  | [x, y] =>
    let n := group x y 0
    [digit (n / 2^18), digit (n / 2^12 % 64), digit (n / 2^6 % 64)]
  | x :: y :: z :: rest =>
    let n := group x y z
    digit (n / 2^18) :: digit (n / 2^12 % 64) :: digit (n / 2^6 % 64) :: digit
      (n % 64) :: encode rest

/-- The encoding with padding: the length is a multiple of four. -/
def encodePadded (x : List UInt8) : List UInt8 :=
  encode x ++ List.replicate ((3 - x.length % 3) % 3) pad

theorem digit_mem {n : ℕ} (h : n < 64) : digit n ∈ alphabet := by
  interval_cases n <;> decide

theorem pad_not_mem : pad ∉ alphabet := by decide

theorem group_lt (x y z : UInt8) : group x y z < 2^24 := by
  have hx := x.toNat_lt
  have hy := y.toNat_lt
  have hz := z.toNat_lt
  unfold group
  omega

/-- What is encoded is written in the alphabet. -/
theorem mem_alphabet_of_mem_encode (x : List UInt8) : ∀ b ∈ encode x, b ∈ alphabet := by
  fun_induction encode x with
  | case1 => simp
  | case2 x n =>
    have hn := group_lt x 0 0
    simp only [List.forall_mem_cons, List.not_mem_nil, false_implies, implies_true, and_true]
    exact ⟨digit_mem (by omega), digit_mem (by omega)⟩
  | case3 x y n =>
    have hn := group_lt x y 0
    simp only [List.forall_mem_cons, List.not_mem_nil, false_implies, implies_true, and_true]
    exact ⟨digit_mem (by omega), digit_mem (by omega), digit_mem (by omega)⟩
  | case4 x y z rest n ih =>
    have hn := group_lt x y z
    simp only [List.forall_mem_cons]
    exact ⟨digit_mem (by omega), digit_mem (by omega), digit_mem (by omega),
      digit_mem (by omega), ih⟩

/-- The last character of an encoding is no padding, so nothing of it is lost with the padding. -/
theorem getLast?_encode_ne (x : List UInt8) : ∀ b ∈ (encode x).getLast?, b ≠ pad := by
  intro b hb hpad
  have hmem := mem_alphabet_of_mem_encode x b (List.mem_of_getLast? hb)
  rw [hpad] at hmem
  exact pad_not_mem hmem

end Base64
