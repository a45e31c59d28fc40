import Mathlib.Data.List.Basic
import Mathlib.Data.Nat.Notation

/-!
# Numbers that come in turn

A list of numbers is in turn above `k` when, of the numbers above `k`, all that are smaller than one
of the list come before it there, or were done before. Numbers may repeat. This is what a queue
promises whose entries are handled again and again until they succeed: the first success of an entry
comes after a success of each earlier one.
-/

/-- Each number between `k` and a number of the list comes before it in the list or is done. -/
def InTurn (k : ℕ) (done l : List ℕ) : Prop :=
  ∀ before x after, l = before ++ x :: after → ∀ n, k < n → n < x → n ∈ before ∨ n ∈ done

namespace InTurn

variable {k : ℕ} {done done' l : List ℕ} {x : ℕ}

protected theorem nil : InTurn k done [] := by
  intro before x after h
  simp at h

theorem mono (h : InTurn k done l) (hsub : ∀ n ∈ done, n ∈ done') : InTurn k done' l :=
  fun before x after hl n hk hn => (h before x after hl n hk hn).imp_right (hsub n)

/-- The first number: all before it is done. -/
theorem head (h : InTurn k done (x :: l)) : ∀ n, k < n → n < x → n ∈ done := by
  intro n hk hn
  rcases h [] x l rfl n hk hn with hn | hn
  · exact absurd hn List.not_mem_nil
  · exact hn

/-- Once the first number is done, the rest is in turn. -/
theorem tail (h : InTurn k done (x :: l)) (hx : x ∈ done') (hsub : ∀ n ∈ done, n ∈ done') :
    InTurn k done' l := by
  intro before y after hl n hk hn
  rcases h (x :: before) y after (by rw [hl, List.cons_append]) n hk hn with hn | hn
  · rcases List.mem_cons.mp hn with rfl | hn
    · exact .inr hx
    · exact .inl hn
  · exact .inr (hsub n hn)

/-- A number whose predecessors are all in the list may come next. -/
theorem concat (h : InTurn k [] l) (hx : ∀ n, k < n → n < x → n ∈ l) : InTurn k [] (l ++ [x]) := by
  intro before y after hl n hk hn
  rcases List.eq_nil_or_concat after with rfl | ⟨after', z, rfl⟩
  · obtain ⟨rfl, hxy⟩ := List.append_inj' hl rfl
    obtain ⟨rfl, -⟩ := List.cons.inj hxy
    exact .inl (hx n hk hn)
  · have hassoc : before ++ y :: (after' ++ [z]) = (before ++ y :: after') ++ [z] := by simp
    rw [List.concat_eq_append, hassoc] at hl
    exact h before y after' (List.append_inj' hl rfl).1 n hk hn

end InTurn
