import Mathlib.Data.List.Basic

/-!
# Loops that may fail

The rules of `List.foldlM` and `List.mapM` in `Except`: a loop that ends with a value kept what each
of its steps keeps.
-/

namespace FoldM

variable {α β ε : Type} {f : β → α → Except ε β} {l : List α} {b b' : β}

/-- A value of two steps in a row comes from a value of the first. -/
theorem bind_eq_ok {γ : Type} {x : Except ε α} {g : α → Except ε γ} {c : γ} :
    x >>= g = .ok c ↔ ∃ a, x = .ok a ∧ g a = .ok c := by
  cases x with
  | ok a => simp [bind, Except.bind]
  | error e => simp [bind, Except.bind]

/-- The first step of a loop that ends with a value. -/
theorem ok_cons {a : α} :
    (a :: l).foldlM f b = .ok b' ↔ ∃ c, f b a = .ok c ∧ l.foldlM f c = .ok b' := by
  rw [List.foldlM_cons]
  exact bind_eq_ok

/-- An invariant of the loop, given the elements that are still to come. -/
theorem inv (I : List α → β → Prop) (h : l.foldlM f b = .ok b') (h₀ : I l b)
    (hstep : ∀ a as c d, I (a :: as) c → f c a = .ok d → I as d) : I [] b' := by
  induction l generalizing b with
  | nil =>
    cases h
    exact h₀
  | cons a as ih =>
    obtain ⟨c, hc, hrest⟩ := ok_cons.mp h
    exact ih hrest (hstep a as b c h₀ hc)

/-- Each value of a map that may fail comes from an element. -/
theorem mem_mapM {g : α → Except ε β} {r : List β} (h : l.mapM g = .ok r) {y : β} (hy : y ∈ r) :
    ∃ x ∈ l, g x = .ok y := by
  induction l generalizing r with
  | nil =>
    cases h
    cases hy
  | cons a as ih =>
    rw [List.mapM_cons] at h
    obtain ⟨b, hb, h⟩ := bind_eq_ok.mp h
    obtain ⟨bs, hbs, h⟩ := bind_eq_ok.mp h
    cases h
    rcases List.mem_cons.mp hy with rfl | hy
    · exact ⟨a, by simp, hb⟩
    · obtain ⟨x, hx, hxy⟩ := ih hbs hy
      exact ⟨x, by simp [hx], hxy⟩

end FoldM
