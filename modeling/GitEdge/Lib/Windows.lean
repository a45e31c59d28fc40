import Mathlib.Data.List.Basic
import Mathlib.Order.Lattice
import Mathlib.Data.Nat.Notation

/-!
# Windows over pieces of a line

Pieces of a line, given by where they start and where they stop, are to be covered by windows of one
size, each piece by one window. Taking the pieces in order, and starting a new window at a piece
only when it does not fit into the last one, gives as few windows as possible (`count_le_iff`).
-/

namespace Windows

variable (size : ℕ)

/-- How many windows are started for the pieces, when the last one started at `last`. -/
def count : Option ℕ → List (ℕ × ℕ) → ℕ
  | _, [] => 0
  | none, p :: l => count (some p.1) l + 1
  | some start, p :: l =>
    if p.2 ≤ start + size then count (some start) l else count (some p.1) l + 1

/-- The windows that start at these places cover the pieces. -/
def Covers (starts : List ℕ) (l : List (ℕ × ℕ)) : Prop :=
  ∀ p ∈ l, ∃ w ∈ starts, w ≤ p.1 ∧ p.2 ≤ w + size

/-- The pieces come in the order of their starts, and each fits into a window. -/
structure Ordered (l : List (ℕ × ℕ)) : Prop where
  sorted : l.Pairwise fun p q => p.1 ≤ q.1
  fits : ∀ p ∈ l, p.2 ≤ p.1 + size

variable {size}

theorem Ordered.tail {p : ℕ × ℕ} {l : List (ℕ × ℕ)} (h : Ordered size (p :: l)) : Ordered size l :=
  ⟨(List.pairwise_cons.mp h.sorted).2, fun q hq => h.fits q (List.mem_cons_of_mem _ hq)⟩

theorem Ordered.le_of_mem {p q : ℕ × ℕ} {l : List (ℕ × ℕ)} (h : Ordered size (p :: l))
    (hq : q ∈ l) :
    p.1 ≤ q.1 :=
  (List.pairwise_cons.mp h.sorted).1 q hq

/-- The window that covers a piece covers no piece that does not fit into a window at the piece. So
without it, the others still cover those that are left. -/
theorem covered_erase {p : ℕ × ℕ} {l : List (ℕ × ℕ)} {starts : List ℕ} {w : ℕ} (hwp : w ≤ p.1)
    (h : ∀ q ∈ l, p.1 + size < q.2 → ∃ v ∈ starts, v ≤ q.1 ∧ q.2 ≤ v + size) :
    ∀ q ∈ l, p.1 + size < q.2 → ∃ v ∈ starts.erase w, v ≤ q.1 ∧ q.2 ≤ v + size := by
  intro q hq hlate
  obtain ⟨v, hv, hvq, hqv⟩ := h q hq hlate
  have hne : v ≠ w := by
    rintro rfl
    omega
  exact ⟨v, (List.mem_erase_of_ne hne).mpr hv, hvq, hqv⟩

theorem length_erase_succ {starts : List ℕ} {w : ℕ} (hw : w ∈ starts) :
    (starts.erase w).length + 1 = starts.length := by
  have hpos : 0 < starts.length := List.length_pos_of_mem hw
  rw [List.length_erase_of_mem hw]
  omega

/-- The windows that are started after `start` are no more than any that cover the pieces which do
not fit into the window at `start`. -/
theorem count_some_le {start : ℕ} {l : List (ℕ × ℕ)} (hl : Ordered size l)
    (hstart : ∀ p ∈ l, start ≤ p.1) {starts : List ℕ}
    (h : ∀ p ∈ l, start + size < p.2 → ∃ w ∈ starts, w ≤ p.1 ∧ p.2 ≤ w + size) :
    count size (some start) l ≤ starts.length := by
  induction l generalizing start starts with
  | nil => exact Nat.zero_le _
  | cons p l ih =>
    have hp := hstart p List.mem_cons_self
    rw [count]
    split_ifs with hfits
    · exact ih hl.tail (fun q hq => hstart q (List.mem_cons_of_mem _ hq))
        fun q hq => h q (List.mem_cons_of_mem _ hq)
    · obtain ⟨w, hw, hwp, -⟩ := h p List.mem_cons_self (by omega)
      have hlate : ∀ q ∈ l, p.1 + size < q.2 → ∃ v ∈ starts, v ≤ q.1 ∧ q.2 ≤ v + size :=
        fun q hq hq' => h q (List.mem_cons_of_mem _ hq) (by omega)
      have hrest := ih hl.tail (fun q hq => hl.le_of_mem hq) (covered_erase hwp hlate)
      rw [← length_erase_succ hw]
      exact Nat.succ_le_succ hrest

/-- The windows that are started cover the pieces, with the one at `start`. -/
theorem exists_covers_some {start : ℕ} {l : List (ℕ × ℕ)} (hl : Ordered size l)
    (hstart : ∀ p ∈ l, start ≤ p.1) :
    ∃ starts : List ℕ, starts.length = count size (some start) l ∧
      Covers size (start :: starts) l := by
  induction l generalizing start with
  | nil => exact ⟨[], rfl, fun p hp => by cases hp⟩
  | cons p l ih =>
    rw [count]
    split_ifs with hfits
    · obtain ⟨starts, hlen, hcovers⟩ := ih hl.tail fun q hq => hstart q (List.mem_cons_of_mem _ hq)
      refine ⟨starts, hlen, fun q hq => ?_⟩
      rcases List.mem_cons.mp hq with rfl | hq
      · exact ⟨start, List.mem_cons_self, hstart q List.mem_cons_self, hfits⟩
      · exact hcovers q hq
    · obtain ⟨starts, hlen, hcovers⟩ := @ih p.1 hl.tail fun q hq => hl.le_of_mem hq
      refine ⟨p.1 :: starts, by rw [List.length_cons, hlen], fun q hq => ?_⟩
      rcases List.mem_cons.mp hq with rfl | hq
      · exact ⟨q.1, by simp, Nat.le_refl _, hl.fits q List.mem_cons_self⟩
      · obtain ⟨w, hw, hwq⟩ := hcovers q hq
        exact ⟨w, List.mem_cons_of_mem _ hw, hwq⟩

/-- So many windows are enough for the pieces exactly if no more are started. -/
theorem count_le_iff {l : List (ℕ × ℕ)} (hl : Ordered size l) (k : ℕ) :
    count size none l ≤ k ↔ ∃ starts : List ℕ, starts.length ≤ k ∧ Covers size starts l := by
  cases l with
  | nil =>
    rw [count]
    exact ⟨fun _ => ⟨[], Nat.zero_le _, fun p hp => by cases hp⟩, fun _ => Nat.zero_le _⟩
  | cons p l =>
    rw [count]
    constructor
    · intro hk
      obtain ⟨starts, hlen, hcovers⟩ := exists_covers_some hl.tail fun q hq => hl.le_of_mem hq
      refine ⟨p.1 :: starts, by rw [List.length_cons]; omega, fun q hq => ?_⟩
      rcases List.mem_cons.mp hq with rfl | hq
      · exact ⟨q.1, List.mem_cons_self, Nat.le_refl _, hl.fits q List.mem_cons_self⟩
      · exact hcovers q hq
    · rintro ⟨starts, hlen, hcovers⟩
      obtain ⟨w, hw, hwp, -⟩ := hcovers p List.mem_cons_self
      have hlate : ∀ q ∈ l, p.1 + size < q.2 → ∃ v ∈ starts, v ≤ q.1 ∧ q.2 ≤ v + size :=
        fun q hq _ => hcovers q (List.mem_cons_of_mem _ hq)
      have hrest := count_some_le hl.tail (fun q hq => hl.le_of_mem hq) (covered_erase hwp hlate)
      have herase := length_erase_succ hw
      omega

/-- Pieces that fit into the last window start none. -/
theorem count_append_of_fits {start : ℕ} {ps : List (ℕ × ℕ)} (h : ∀ p ∈ ps, p.2 ≤ start + size)
    (rest : List (ℕ × ℕ)) :
    count size (some start) (ps ++ rest) = count size (some start) rest := by
  induction ps with
  | nil => rfl
  | cons p ps ih =>
    obtain ⟨hp, hps⟩ := List.forall_mem_cons.mp h
    rw [List.cons_append, count, if_pos hp, ih hps]

/-- Each piece stops too far from the start of the one before to share its window. -/
abbrev Parted (size : ℕ) (ps : List (ℕ × ℕ)) : Prop :=
  ps.Pairwise fun p q => p.1 + size < q.2

/-- Parted pieces that do not fit into the last window start a window each. -/
theorem count_append_of_parted {start : ℕ} {ps : List (ℕ × ℕ)} {q : ℕ × ℕ}
    (h : Parted size (ps ++ [q])) (hstart : ∀ p ∈ ps ++ [q], start + size < p.2)
    (rest : List (ℕ × ℕ)) :
    count size (some start) (ps ++ [q] ++ rest) = ps.length + 1 + count size (some q.1) rest := by
  induction ps generalizing start with
  | nil =>
    have hq := hstart q (by simp)
    rw [List.nil_append, List.singleton_append, count, if_neg (by omega), List.length_nil]
    omega
  | cons p ps ih =>
    have hp := hstart p (by simp)
    obtain ⟨hfirst, hrest⟩ := List.pairwise_cons.mp h
    rw [List.cons_append, List.cons_append, count, if_neg (by omega), ih hrest hfirst,
      List.length_cons]
    omega

/-- Parted pieces start a window each when there is none. -/
theorem count_none_of_parted {ps : List (ℕ × ℕ)} {q : ℕ × ℕ} (h : Parted size (ps ++ [q]))
    (rest : List (ℕ × ℕ)) :
    count size none (ps ++ [q] ++ rest) = ps.length + 1 + count size (some q.1) rest := by
  cases ps with
  | nil =>
    rw [List.nil_append, List.singleton_append, count, List.length_nil]
    omega
  | cons p ps =>
    obtain ⟨hfirst, hrest⟩ := List.pairwise_cons.mp h
    rw [List.cons_append, List.cons_append, count, count_append_of_parted hrest hfirst,
      List.length_cons]
    omega

end Windows
