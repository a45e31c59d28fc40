import Mathlib.Data.List.Basic
import Mathlib.Data.Nat.Notation

/-!
# Streams that are taken by blocks

A consumer of blocks of `n` elements keeps the elements of the block that is not full yet. What it
comes to depends only on the elements, not on the pieces that they arrive in (`feed_append`), and at
the end of a block it has taken the blocks one after another (`feed_blocks`).
-/

namespace Streaming

variable {σ α : Type} (n : ℕ) (f : σ → List α → σ)

/-- One element: a block that is full with it is taken. -/
def push (s : σ × List α) (a : α) : σ × List α :=
  if (s.2 ++ [a]).length = n then (f s.1 (s.2 ++ [a]), []) else (s.1, s.2 ++ [a])

/-- The elements, one after another. -/
def feed (s : σ × List α) (l : List α) : σ × List α := l.foldl (push n f) s

/-- The blocks of a list. -/
def blocks (l : List α) : List (List α) :=
  (List.range (l.length / n)).map fun i => (l.drop (n * i)).take n

variable {n f}

theorem feed_append (s : σ × List α) (l m : List α) :
    feed n f s (l ++ m) = feed n f (feed n f s l) m := List.foldl_append

/-- Elements that do not fill the block. -/
theorem feed_of_lt {h : σ} {buf l : List α} (hlt : buf.length + l.length < n) :
    feed n f (h, buf) l = (h, buf ++ l) := by
  induction l generalizing buf with
  | nil => rw [List.append_nil]; rfl
  | cons a l ih =>
    rw [List.length_cons] at hlt
    have hpush : push n f (h, buf) a = (h, buf ++ [a]) := by
      have hnot : (buf ++ [a]).length ≠ n := by
        rw [List.length_append, List.length_singleton]
        omega
      exact if_neg hnot
    have hrest : (buf ++ [a]).length + l.length < n := by
      rw [List.length_append, List.length_singleton]
      omega
    rw [feed, List.foldl_cons, hpush, ← feed, ih hrest, List.append_assoc, List.singleton_append]

/-- Elements that fill the block. -/
theorem feed_of_eq {h : σ} {buf l : List α} (hbuf : buf.length < n)
    (heq : buf.length + l.length = n) :
    feed n f (h, buf) l = (f h (buf ++ l), []) := by
  obtain ⟨front, a, rfl⟩ : ∃ front a, l = front ++ [a] := by
    have hne : l ≠ [] := by
      rintro rfl
      rw [List.length_nil] at heq
      omega
    exact ⟨_, _, (List.dropLast_append_getLast hne).symm⟩
  rw [List.length_append, List.length_singleton] at heq
  have hfront : feed n f (h, buf) front = (h, buf ++ front) := feed_of_lt (by omega)
  have hfull : (buf ++ front ++ [a]).length = n := by
    rw [List.length_append, List.length_append, List.length_singleton]
    omega
  have hlast : push n f (h, buf ++ front) a = (f h (buf ++ front ++ [a]), []) := if_pos hfull
  rw [feed_append, hfront, feed, List.foldl_cons, List.foldl_nil, hlast, List.append_assoc]

/-- The block that is not full has fewer elements than a block, by the number of all of them. -/
theorem length_feed (hn : 0 < n) (s : σ × List α) (hs : s.2.length < n) (l : List α) :
    (feed n f s l).2.length = (s.2.length + l.length) % n := by
  induction l generalizing s with
  | nil => exact (Nat.mod_eq_of_lt hs).symm
  | cons a l ih =>
    have hlen : (s.2 ++ [a]).length = s.2.length + 1 := by simp
    rw [feed, List.foldl_cons, ← feed, List.length_cons]
    by_cases hfull : (s.2 ++ [a]).length = n
    · have hpush : push n f s a = (f s.1 (s.2 ++ [a]), []) := if_pos hfull
      rw [hpush, ih (f s.1 (s.2 ++ [a]), []) hn, List.length_nil, Nat.zero_add]
      have hsum : s.2.length + (l.length + 1) = l.length + n := by omega
      rw [hsum, Nat.add_mod_right]
    · have hpush : push n f s a = (s.1, s.2 ++ [a]) := if_neg hfull
      rw [hpush, ih _ (by dsimp only; omega)]
      dsimp only
      rw [hlen]
      congr 1
      omega

/-- Whole blocks are taken one after another. -/
theorem feed_blocks (hn : 0 < n) (h : σ) {l : List α} (hdvd : n ∣ l.length) :
    feed n f (h, []) l = ((blocks n l).foldl f h, []) := by
  obtain ⟨k, hk⟩ := hdvd
  induction k generalizing h l with
  | zero =>
    rw [Nat.mul_zero, List.length_eq_zero_iff] at hk
    subst hk
    rw [blocks, List.length_nil, Nat.zero_div]
    rfl
  | succ k ih =>
    have htake : (l.take n).length = n := by
      rw [List.length_take, hk, Nat.mul_succ]
      omega
    have hdrop : (l.drop n).length = n * k := by
      rw [List.length_drop, hk, Nat.mul_succ]
      omega
    -- The first block, and those of the rest.
    have hblocks : blocks n l = l.take n :: blocks n (l.drop n) := by
      rw [blocks, blocks, hdrop, hk, Nat.mul_div_cancel_left _ hn, Nat.mul_div_cancel_left _ hn,
        List.range_succ_eq_map, List.map_cons, List.map_map, Nat.mul_zero, List.drop_zero]
      refine congrArg _ (List.map_congr_left fun i _ => ?_)
      rw [Function.comp_apply, List.drop_drop, Nat.succ_eq_add_one, Nat.mul_add, Nat.mul_one,
        Nat.add_comm]
    have hfirst : feed n f (h, []) (l.take n) = (f h (l.take n), []) :=
      feed_of_eq (by simpa using hn) (by simpa using htake)
    calc feed n f (h, []) l = feed n f (h, []) (l.take n ++ l.drop n) := by
          rw [List.take_append_drop]
      _ = feed n f (f h (l.take n), []) (l.drop n) := by rw [feed_append, hfirst]
      _ = ((blocks n (l.drop n)).foldl f (f h (l.take n)), []) := ih _ hdrop
      _ = ((blocks n l).foldl f h, []) := by rw [hblocks, List.foldl_cons]

end Streaming
