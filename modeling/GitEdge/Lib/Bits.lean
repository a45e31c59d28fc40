import Mathlib.Data.List.Induction
import Mathlib.Data.List.Nodup
import Mathlib.Data.List.Range

/-!
# Bitmaps

A bitmap is a list of bits in which bit `i` stands for entry `i`. As it is stored in whole bytes,
its length is a multiple of eight. A bit past the end reads as unset, and cannot be set.
-/

namespace Bits

variable {b c : List Bool} {i j n : ℕ}

/-- The empty bitmap for `n` entries. -/
def zero (n : ℕ) : List Bool := List.replicate (8 * ((n + 7) / 8)) false

/-- Whether a bit is set. -/
def get (b : List Bool) (i : ℕ) : Bool := b.getD i false

/-- The bitmap with one more bit set, unless the bit is past the end. -/
def set? (b : List Bool) (i : ℕ) : Option (List Bool) :=
  if i < b.length then some (b.set i true) else none

/-- The union of two bitmaps, as long as the longer one. -/
def or : List Bool → List Bool → List Bool
  | [], c => c
  | b, [] => b
  | x :: b, y :: c => (x || y) :: or b c

/-- The number of bits that are set. -/
def popcount (b : List Bool) : ℕ := b.count true

@[simp] theorem get_zero (n i : ℕ) : get (zero n) i = false := by
  simp only [get, zero, List.getD_eq_getElem?_getD, List.getElem?_replicate]
  split_ifs <;> rfl

theorem get_set? (h : set? b i = some c) (j : ℕ) : get c j = (get b j || decide (j = i)) := by
  unfold set? at h
  split_ifs at h with hi
  cases h
  simp only [get, List.getD_eq_getElem?_getD, List.getElem?_set]
  by_cases hij : i = j
  · subst hij
    simp [hi]
  · simp [hij, Ne.symm hij]

theorem get_or (b c : List Bool) (i : ℕ) : get (or b c) i = (get b i || get c i) := by
  induction b generalizing c i with
  | nil => simp [or, get]
  | cons x b ih =>
    cases c with
    | nil => simp [or, get]
    | cons y c =>
      cases i with
      | zero => simp [or, get]
      | succ i => simpa [or, get] using ih c i

theorem lt_length_of_get (h : get b i = true) : i < b.length := by
  by_contra hi
  simp [get, List.getD_eq_getElem?_getD, List.getElem?_eq_none (Nat.le_of_not_lt hi)] at h

/-! ## The set bits in order -/

/-- The set bits below a number. -/
def below (b : List Bool) (i : ℕ) : List ℕ := (List.range i).filter fun j => get b j

/-- The set bits. -/
def indices (b : List Bool) : List ℕ := below b b.length

theorem mem_below : j ∈ below b i ↔ j < i ∧ get b j = true := by simp [below]

theorem mem_indices : j ∈ indices b ↔ get b j = true := by
  rw [indices, mem_below]
  exact ⟨And.right, fun h => ⟨lt_length_of_get h, h⟩⟩

theorem indices_nodup : (indices b).Nodup := List.nodup_range.filter _

theorem below_succ (h : get b i = true) : below b (i + 1) = below b i ++ [i] := by
  simp [below, List.range_succ, h]

/-- Bits that are not set add nothing. -/
theorem below_skip (hij : i ≤ j) (h : ∀ k, i ≤ k → k < j → get b k = false) :
    below b j = below b i := by
  induction j, hij using Nat.le_induction with
  | base => rfl
  | succ j hij ih =>
    have hj : get b j = false := h j hij (Nat.lt_succ_self j)
    rw [← ih fun k hk hkj => h k hk (Nat.lt_succ_of_lt hkj)]
    simp [below, List.range_succ, hj]

theorem get_append_left (c : List Bool) (h : i < b.length) : get (b ++ c) i = get b i := by
  simp [get, List.getElem?_append_left h]

theorem length_indices (b : List Bool) : (indices b).length = popcount b := by
  induction b using List.reverseRecOn with
  | nil => rfl
  | append_singleton b x ih =>
    have hbelow : below (b ++ [x]) b.length = indices b := by
      refine List.filter_congr fun j hj => ?_
      exact get_append_left [x] (List.mem_range.mp hj)
    have hlen : (b ++ [x]).length = b.length + 1 := by simp
    have hx : get (b ++ [x]) b.length = x := by simp [get]
    rw [indices, hlen]
    cases x with
    | true => rw [below_succ hx, hbelow, List.length_append, ih]; simp [popcount]
    | false =>
      rw [below_skip (Nat.le_succ _) fun k hk hkj => ?_, hbelow, ih]
      · simp [popcount]
      · rw [show k = b.length by omega, hx]

end Bits
