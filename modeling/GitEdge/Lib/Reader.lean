import Mathlib.Data.List.Basic
import Mathlib.Data.Nat.Notation

/-!
# Buffered readers

A reader gives the elements of a stream through a buffer. `Reader.Source` is what its users rely on:
filling adds elements of the stream at the end of the buffer until it has as many as are asked for
or the stream ends, and taking removes elements at the front. `left` is all that has not been taken,
in the buffer or not; it does not depend on how the stream arrives.

`Reader.Steps` is any use of a reader that fills for `look` elements, fills an empty buffer, and
takes what the buffer has. `Source.Holds` says that a property of the reader goes through such a use
as long as enough elements are left.
-/

namespace Reader

variable {α ρ ε : Type}

/-- A reader of a stream. -/
structure Source (α ρ ε : Type) where
  /-- What the reader has at hand. -/
  buffered : ρ → List α
  /-- What has not been taken yet. -/
  left : ρ → List α
  /-- Reads until the buffer has so many elements or the stream ends. -/
  fill : ℕ → ρ → ρ
  /-- Takes so many elements from the buffer. -/
  take : ℕ → ρ → Except ε ρ
  buffered_front : ∀ r, buffered r <+: left r
  left_fill : ∀ n r, left (fill n r) = left r
  buffered_fill : ∀ n r, buffered r <+: buffered (fill n r)
  fill_enough : ∀ n r, n ≤ (buffered (fill n r)).length ∨ buffered (fill n r) = left r
  take_ok : ∀ n r, n ≤ (buffered r).length →
    ∃ r', take n r = .ok r' ∧ buffered r' = (buffered r).drop n ∧ left r' = (left r).drop n

namespace Source

variable (S : Source α ρ ε)

/-- Fills an empty buffer. -/
def refill (r : ρ) : ρ := if (S.buffered r).isEmpty then S.fill 1 r else r

theorem left_refill (r : ρ) : S.left (S.refill r) = S.left r := by
  unfold refill
  split_ifs
  · exact S.left_fill 1 r
  · rfl

/-- An empty buffer after filling means that the stream has ended. -/
theorem buffered_refill_ne_nil {r : ρ} (h : S.left r ≠ []) : S.buffered (S.refill r) ≠ [] := by
  unfold refill
  split_ifs with hempty
  · obtain hone | hall := S.fill_enough 1 r
    · exact List.ne_nil_of_length_pos hone
    · rwa [hall]
  · rwa [List.isEmpty_iff] at hempty

/-- The buffer after filling has the elements asked for, if there are so many. -/
theorem take_fill (n : ℕ) (r : ρ) : (S.left r).take n <+: S.buffered (S.fill n r) := by
  have hfront : S.buffered (S.fill n r) <+: S.left r := by
    rw [← S.left_fill n r]
    exact S.buffered_front _
  obtain henough | hall := S.fill_enough n r
  · apply List.prefix_of_prefix_length_le (List.take_prefix n _) hfront
    rw [List.length_take]
    omega
  · rw [hall]
    exact List.take_prefix n _

end Source

/-- A use of a reader that looks ahead by `look` elements at most. -/
inductive Steps (S : Source α ρ ε) (look : ℕ) : ρ → ρ → Prop
  | refl (r : ρ) : Steps S look r r
  | look {r r' : ρ} (h : Steps S look r r') : Steps S look r (S.fill look r')
  | next {r r' : ρ} (h : Steps S look r r') (hempty : S.buffered r' = []) :
      Steps S look r (S.fill 1 r')
  | take {r r' r'' : ρ} {n : ℕ} (h : Steps S look r r') (hn : n ≤ (S.buffered r').length)
      (ht : S.take n r' = .ok r'') : Steps S look r r''

namespace Steps

variable {S : Source α ρ ε} {look : ℕ} {r r' r'' : ρ}

theorem trans (h : Steps S look r r') (h' : Steps S look r' r'') : Steps S look r r'' := by
  induction h' with
  | refl => exact h
  | look _ ih => exact ih.look
  | next _ hempty ih => exact ih.next hempty
  | take _ hn ht ih => exact ih.take hn ht

theorem refill (h : Steps S look r r') : Steps S look r (S.refill r') := by
  unfold Source.refill
  split_ifs with hempty
  · exact h.next (List.isEmpty_iff.mp hempty)
  · exact h

end Steps

/-- A property of readers that their uses keep: looking ahead while `ahead` elements are left,
filling an empty buffer while `more` elements are left, and taking. -/
structure Source.Holds (S : Source α ρ ε) (look ahead more : ℕ) (P : ρ → Prop) : Prop where
  look : ∀ r, P r → ahead ≤ (S.left r).length → P (S.fill look r)
  next : ∀ r, P r → more ≤ (S.left r).length → S.buffered r = [] → P (S.fill 1 r)
  take : ∀ r r' k, P r → k ≤ (S.buffered r).length → S.take k r = .ok r' → P r'

/-- The property after a use that leaves enough. -/
theorem Source.Holds.steps {S : Source α ρ ε} {look ahead more : ℕ} {P : ρ → Prop}
    (hP : S.Holds look ahead more P) {r r' : ρ} (h : Steps S look r r') (hr : P r)
    (hahead : ahead ≤ (S.left r').length) (hmore : more ≤ (S.left r').length) : P r' := by
  induction h with
  | refl => exact hr
  | look _ ih =>
    rw [S.left_fill] at hahead hmore
    exact hP.look _ (ih hahead hmore) hahead
  | next _ hempty ih =>
    rw [S.left_fill] at hahead hmore
    exact hP.next _ (ih hahead hmore) hmore hempty
  | @take q q' k _ hk ht ih =>
    -- What is left only shrinks.
    have hshrink : (S.left q').length ≤ (S.left q).length := by
      obtain ⟨p, hp, -, hleft⟩ := S.take_ok k q hk
      rw [ht] at hp
      cases hp
      rw [hleft, List.length_drop]
      omega
    have hq : P q := ih (Nat.le_trans hahead hshrink) (Nat.le_trans hmore hshrink)
    exact hP.take q q' k hq hk ht

end Reader
