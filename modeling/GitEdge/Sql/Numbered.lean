import Mathlib.Data.List.Basic
import Mathlib.Data.Nat.Notation

/-!
# Tables with an automatic number

A table whose primary key is `INTEGER PRIMARY KEY AUTOINCREMENT`: an insert takes the number after
the largest one that was ever given, so that a number is not given twice, whatever is deleted in
between. The rows are kept in the order of their numbers, which is the order of their inserts.
-/

namespace Sql

/-- A table whose rows are numbered by `AUTOINCREMENT`. -/
structure Numbered (ρ : Type) where
  rows : List (ℕ × ρ)
  /-- The largest number that was ever given. -/
  last : ℕ
  sorted : rows.Pairwise fun x y => x.1 < y.1
  le_last : ∀ x ∈ rows, x.1 ≤ last

namespace Numbered

variable {ρ : Type}

/-- The table without rows, before the first insert. -/
def empty : Numbered ρ := ⟨[], 0, .nil, by simp⟩

/-- The number of rows. -/
def size (t : Numbered ρ) : ℕ := t.rows.length

/-- The statement that inserts a row under the next number. -/
def insert (t : Numbered ρ) (r : ρ) : Numbered ρ where
  rows := t.rows ++ [(t.last + 1, r)]
  last := t.last + 1
  sorted := by
    rw [List.pairwise_append]
    refine ⟨t.sorted, List.pairwise_singleton _ _, fun x hx y hy => ?_⟩
    rw [List.mem_singleton.mp hy]
    exact Nat.lt_succ_of_le (t.le_last x hx)
  le_last x hx := by
    rcases List.mem_append.mp hx with hx | hx
    · exact Nat.le_succ_of_le (t.le_last x hx)
    · exact Nat.le_of_eq (congrArg Prod.fst (List.mem_singleton.mp hx))

/-- The statement that deletes the row of a number. -/
def delete (t : Numbered ρ) (n : ℕ) : Numbered ρ where
  rows := t.rows.filter fun x => x.1 ≠ n
  last := t.last
  sorted := t.sorted.filter _
  le_last x hx := t.le_last x (List.mem_filter.mp hx).1

/-- The statement that updates the row of a number. -/
def modify (t : Numbered ρ) (n : ℕ) (f : ρ → ρ) : Numbered ρ where
  rows := t.rows.map fun x => if x.1 = n then (x.1, f x.2) else x
  last := t.last
  sorted := by
    rw [List.pairwise_map]
    refine t.sorted.imp fun {x y} hxy => ?_
    split_ifs <;> exact hxy
  le_last y hy := by
    obtain ⟨x, hx, rfl⟩ := List.mem_map.mp hy
    split_ifs <;> exact t.le_last x hx

@[simp] theorem last_insert (t : Numbered ρ) (r : ρ) : (t.insert r).last = t.last + 1 := rfl

theorem mem_insert {t : Numbered ρ} {r : ρ} {x : ℕ × ρ} :
    x ∈ (t.insert r).rows ↔ x ∈ t.rows ∨ x = (t.last + 1, r) := by
  simp [insert]

theorem mem_delete {t : Numbered ρ} {n : ℕ} {x : ℕ × ρ} :
    x ∈ (t.delete n).rows ↔ x ∈ t.rows ∧ x.1 ≠ n := by
  simp [delete]

/-- The numbers of a table. -/
def numbers (t : Numbered ρ) : List ℕ := t.rows.map Prod.fst

/-- In the page that begins a table, a number has all smaller ones of the table before it. -/
theorem mem_before {t : Numbered ρ} {n x y : ℕ} {before after : List ℕ}
    (hpage : t.numbers.take n = before ++ x :: after) (hy : y ∈ t.numbers) (hlt : y < x) :
    y ∈ before := by
  have hnumbers : t.numbers = before ++ x :: (after ++ t.numbers.drop n) := by
    calc t.numbers = t.numbers.take n ++ t.numbers.drop n :=
      (List.take_append_drop n t.numbers).symm
      _ = before ++ x :: (after ++ t.numbers.drop n) := by rw [hpage]; simp
  have hsorted : t.numbers.Pairwise (· < ·) := List.pairwise_map.mpr t.sorted
  rw [hnumbers, List.pairwise_append, List.pairwise_cons] at hsorted
  obtain ⟨-, ⟨hafter, -⟩, -⟩ := hsorted
  rw [hnumbers, List.mem_append, List.mem_cons] at hy
  rcases hy with hy | rfl | hy
  · exact hy
  · exact absurd hlt (Nat.lt_irrefl _)
  · exact absurd hlt (Nat.lt_asymm (hafter y hy))

end Numbered

end Sql
