import GitEdge.Lib.Reach

/-!
# Search by levels

A search in rounds over a graph. What is to be visited is offered with a label, which may depend on
the way that led to it. A vertex is taken in the first round in which it is offered, with the best
of the labels of that round, and later offers are ignored. The label with which a vertex is taken
decides what the vertex offers to the next round.

`Rules.stage k` is the search before round `k`, and `Rules.Taken x l` says that `x` is taken at some
time, with the label `l`. When the labels are the numbers of the rounds, and only vertices before a
last round offer anything, the vertices taken are those within that distance
(`Rules.seen_capped`). When a label is gathered step by step along a way, and a better label stays
better, a vertex is taken in the round that is the length of the shortest ways to it, with the best
label of those (`takes_iff_firstWay`).
-/

namespace Levels

variable {α L : Type}

/-- The rules of a search: what is offered at first, which label is better, and what a vertex offers
when it is taken with a label. -/
structure Rules (α L : Type) where
  start : α → L → Prop
  better : L → L → Prop
  offers : α → L → α → L → Prop
  /-- Among any labels there is one best. -/
  best : ∀ P : L → Prop, (∃ l, P l) → ∃ l, P l ∧ ∀ m, P m → better l m
  antisymm : ∀ l m, better l m → better m l → l = m

/-- The search before a round: what was taken, and what is offered now. -/
structure Stage (α L : Type) where
  seen : α → Prop
  offered : α → L → Prop

variable (R : Rules α L)

/-- What the round takes: what is offered and was not taken, with the best label. -/
def Rules.takes (s : Stage α L) (x : α) (l : L) : Prop :=
  s.offered x l ∧ ¬ s.seen x ∧ ∀ m, s.offered x m → R.better l m

/-- One round. -/
def Rules.next (s : Stage α L) : Stage α L where
  seen x := s.seen x ∨ ∃ l, R.takes s x l
  offered y m := ∃ x l, R.takes s x l ∧ R.offers x l y m

/-- The search before round `k`. -/
def Rules.stage : ℕ → Stage α L
  | 0 => ⟨fun _ => False, R.start⟩
  | k + 1 => R.next (Rules.stage k)

/-- The vertex is taken before round `k`, with this label. -/
def Rules.TakenBy (k : ℕ) (x : α) (l : L) : Prop := ∃ j < k, R.takes (R.stage j) x l

/-- The vertex is taken at some time, with this label. -/
def Rules.Taken (x : α) (l : L) : Prop := ∃ k, R.takes (R.stage k) x l

/-- The vertex is taken at some time. -/
def Rules.Seen (x : α) : Prop := ∃ l, R.Taken x l

variable {R} {s : Stage α L} {x y : α} {l m : L} {j k n : ℕ}

theorem takenBy_succ : R.TakenBy (k + 1) x l ↔ R.TakenBy k x l ∨ R.takes (R.stage k) x l := by
  constructor
  · rintro ⟨j, hj, hl⟩
    rcases Nat.lt_or_eq_of_le (Nat.le_of_lt_succ hj) with hj | rfl
    · exact .inl ⟨j, hj, hl⟩
    · exact .inr hl
  · rintro (⟨j, hj, hl⟩ | hl)
    · exact ⟨j, by omega, hl⟩
    · exact ⟨k, by omega, hl⟩

theorem seen_iff : (R.stage k).seen x ↔ ∃ l, R.TakenBy k x l := by
  induction k with
  | zero => simp [Rules.stage, Rules.TakenBy]
  | succ k ih =>
    change (R.stage k).seen x ∨ _ ↔ _
    simp only [ih, takenBy_succ, exists_or]

theorem Rules.TakenBy.taken (h : R.TakenBy k x l) : R.Taken x l := by
  obtain ⟨j, -, hj⟩ := h
  exact ⟨j, hj⟩

theorem seen_of_stage (h : (R.stage k).seen x) : R.Seen x := by
  obtain ⟨l, hl⟩ := seen_iff.mp h
  exact ⟨l, hl.taken⟩

/-- What is offered is taken now, if it was not taken before. -/
theorem exists_takes (h : s.offered x l) (hs : ¬ s.seen x) : ∃ m, R.takes s x m := by
  obtain ⟨m, hm, hbest⟩ := R.best (s.offered x) ⟨l, h⟩
  exact ⟨m, hm, hs, hbest⟩

/-- What is offered at some time is taken at some time. -/
theorem seen_of_offered (h : (R.stage k).offered x l) : R.Seen x := by
  by_cases hs : (R.stage k).seen x
  · exact seen_of_stage hs
  · obtain ⟨m, hm⟩ := exists_takes h hs
    exact ⟨m, k, hm⟩

theorem seen_of_start (h : R.start x l) : R.Seen x := seen_of_offered (k := 0) h

/-- What a vertex offers is taken. -/
theorem Rules.Taken.offers (h : R.Taken x l) (ho : R.offers x l y m) : R.Seen y := by
  obtain ⟨k, hk⟩ := h
  exact seen_of_offered (k := k + 1) ⟨x, l, hk, ho⟩

/-- What holds of the starts, and passes from what is taken to what it offers, holds of all that is
taken. -/
theorem Rules.Taken.induction {P : α → L → Prop} (h : R.Taken x l)
    (hstart : ∀ x l, R.start x l → P x l) (hoffers : ∀ x l y m, R.Taken x l → P x l →
      R.offers x l y m → P y m) : P x l := by
  obtain ⟨k, hk⟩ := h
  induction k generalizing x l with
  | zero => exact hstart x l hk.1
  | succ k ih =>
    obtain ⟨y, m, hy, hyx⟩ := hk.1
    exact hoffers y m x l ⟨k, hy⟩ (ih hy) hyx

/-- Once nothing is offered, the search is at its end. -/
theorem taken_iff_of_idle (h : ∀ x l, ¬ (R.stage k).offered x l) : R.Taken x l ↔
    R.TakenBy k x l := by
  refine ⟨fun ⟨j, hj⟩ => ?_, Rules.TakenBy.taken⟩
  have hidle : ∀ i, ∀ x l, ¬ (R.stage (k + i)).offered x l := by
    intro i
    induction i with
    | zero => exact h
    | succ i ih =>
      rintro x l ⟨y, m, hy, -⟩
      exact ih y m hy.1
  by_cases hjk : j < k
  · exact ⟨j, hjk, hj⟩
  · obtain ⟨i, rfl⟩ := Nat.exists_eq_add_of_le (Nat.le_of_not_lt hjk)
    exact absurd hj.1 (hidle i x l)

/-- A vertex is taken once. -/
theorem takes_unique (h : R.takes (R.stage j) x l) (h' : R.takes (R.stage k) x m) :
    j = k ∧ l = m := by
  have hearlier : ∀ {i i' : ℕ} {l m : L}, R.takes (R.stage i) x l → R.takes (R.stage i') x m →
      ¬ i < i' := fun h h' hlt => h'.2.1 (seen_iff.mpr ⟨_, _, hlt, h⟩)
  obtain rfl : j = k := by
    have := hearlier h h'
    have := hearlier h' h
    omega
  exact ⟨rfl, R.antisymm l m (h.2.2 m h'.1) (h'.2.2 l h.1)⟩

theorem better_refl (R : Rules α L) (l : L) : R.better l l := by
  obtain ⟨m, rfl, hm⟩ := R.best (· = l) ⟨l, rfl⟩
  exact hm m rfl

theorem better_trans {l₁ l₂ l₃ : L} (h₁ : R.better l₁ l₂) (h₂ : R.better l₂ l₃) :
    R.better l₁ l₃ := by
  -- One of the three is the best.
  obtain ⟨l, hl, hbest⟩ := R.best (fun l => l = l₁ ∨ l = l₂ ∨ l = l₃) ⟨l₁, .inl rfl⟩
  rcases hl with rfl | rfl | rfl
  · exact hbest _ (.inr (.inr rfl))
  · rwa [R.antisymm _ _ h₁ (hbest _ (.inl rfl))]
  · rwa [← R.antisymm _ _ h₂ (hbest _ (.inr (.inl rfl)))]

/-! ## Ways -/

section Ways

variable (r : α → α → Prop) (A Z : α → Prop) (first : L) (after : α → L → L)

/-- A way of so many steps from a start, past no vertex of `Z`, with the label that it gathers. -/
inductive Way : ℕ → α → L → Prop
  | start {x : α} (hx : A x) : Way 0 x first
  | step {k : ℕ} {x y : α} {l : L} (h : Way k x l) (hz : ¬ Z x) (hr : r x y) :
      Way (k + 1) y (after x l)

/-- A shortest way, whose label is the best of the shortest ones. -/
def FirstWay (better : L → L → Prop) (k : ℕ) (x : α) (l : L) : Prop :=
  Way r A Z first after k x l ∧
    ∀ j m, Way r A Z first after j x m → k < j ∨ k = j ∧ better l m

variable {r A Z first after}

/-- Where there is a way, there is a shortest one with the best label. -/
theorem exists_firstWay (R : Rules α L) (h : Way r A Z first after k x l) :
    ∃ j ≤ k, ∃ m, FirstWay r A Z first after R.better j x m := by
  classical
  have hsome : ∃ j m, Way r A Z first after j x m := ⟨k, l, h⟩
  obtain ⟨m, hm, hbest⟩ := R.best _ (Nat.find_spec hsome)
  refine ⟨Nat.find hsome, Nat.find_min' hsome ⟨l, h⟩, m, hm, fun j m' hj => ?_⟩
  rcases Nat.lt_or_eq_of_le (Nat.find_min' hsome ⟨m', hj⟩) with hlt | heq
  · exact .inl hlt
  · exact .inr ⟨heq, hbest m' (heq ▸ hj)⟩

theorem FirstWay.unique (h : FirstWay r A Z first after R.better j x l)
    (h' : FirstWay r A Z first after R.better k x m) : j = k ∧ l = m := by
  rcases h.2 k m h'.1 with hlt | ⟨rfl, hlm⟩
  · rcases h'.2 j l h.1 with hlt' | ⟨rfl, -⟩
    · omega
    · exact absurd hlt (lt_irrefl _)
  · rcases h'.2 j l h.1 with hlt' | ⟨-, hml⟩
    · exact absurd hlt' (lt_irrefl _)
    · exact ⟨rfl, R.antisymm l m hlm hml⟩

/-- A vertex is taken in the round that is the length of the shortest ways to it, with the best of
their labels. -/
theorem takes_iff_firstWay (hstart : ∀ x l, R.start x l ↔ A x ∧ l = first)
    (hoffers : ∀ k x l y m, R.takes (R.stage k) x l → FirstWay r A Z first after R.better k x l →
      (R.offers x l y m ↔ r x y ∧ ¬ Z x ∧ m = after x l))
    (hmono : ∀ x l m, R.better l m → R.better (after x l) (after x m)) :
    R.takes (R.stage k) x l ↔ FirstWay r A Z first after R.better k x l := by
  induction k using Nat.strongRecOn generalizing x l with
  | _ k ih =>
    -- What was taken before are the vertices with a shorter way.
    have hseen : ∀ y, (R.stage k).seen y ↔ ∃ j < k, ∃ m, Way r A Z first after j y m := by
      intro y
      rw [seen_iff]
      constructor
      · rintro ⟨m, j, hj, hm⟩
        exact ⟨j, hj, m, ((ih j hj).mp hm).1⟩
      · rintro ⟨j, hj, m, hm⟩
        obtain ⟨i, hi, m', hm'⟩ := exists_firstWay R hm
        exact ⟨m', i, by omega, (ih i (by omega)).mpr hm'⟩
    -- Every offer has a way, and every way to a new vertex has an offer that is no worse.
    have hoffered : (∀ y m, (R.stage k).offered y m → Way r A Z first after k y m) ∧
        ∀ y m, Way r A Z first after k y m → ¬ (R.stage k).seen y →
          ∃ m', (R.stage k).offered y m' ∧ R.better m' m := by
      cases k with
      | zero =>
        refine ⟨fun y m hy => ?_, fun y m hy _ => ?_⟩
        · obtain ⟨hA, rfl⟩ := (hstart y m).mp hy
          exact .start hA
        · cases hy with
          | start hA => exact ⟨first, (hstart y first).mpr ⟨hA, rfl⟩, better_refl R first⟩
      | succ k =>
        refine ⟨?_, fun y m hy hnew => ?_⟩
        · rintro y m ⟨z, l', hz, hzy⟩
          have hfirst := (ih k k.lt_succ_self).mp hz
          obtain ⟨hr, hstop, rfl⟩ := (hoffers k z l' y m hz hfirst).mp hzy
          exact .step hfirst.1 hstop hr
        · cases hy with
          | @step _ z _ l' hz hstop hr =>
            -- The way to the vertex before it is a shortest one.
            obtain ⟨j, hj, m', hm'⟩ := exists_firstWay R hz
            obtain rfl : j = k := by
              by_contra hne
              exact hnew ((hseen y).mpr ⟨j + 1, by omega, _, .step hm'.1 hstop hr⟩)
            have hbetter : R.better m' l' :=
              ((hm'.2 j l' hz).resolve_left (lt_irrefl _)).2
            have htaken := (ih j j.lt_succ_self).mpr hm'
            exact ⟨after z m', ⟨z, m', htaken,
              (hoffers j z m' y _ htaken hm').mpr ⟨hr, hstop, rfl⟩⟩, hmono z m' l' hbetter⟩
    constructor
    · rintro ⟨ho, hnew, hbest⟩
      refine ⟨hoffered.1 x l ho, fun j m hm => ?_⟩
      rcases Nat.lt_trichotomy j k with hjk | rfl | hkj
      · exact absurd ((hseen x).mpr ⟨j, hjk, m, hm⟩) hnew
      · obtain ⟨m', hm', hbetter⟩ := hoffered.2 x m hm hnew
        exact .inr ⟨rfl, better_trans (hbest m' hm') hbetter⟩
      · exact .inl hkj
    · rintro ⟨hway, hfirst⟩
      have hnew : ¬ (R.stage k).seen x := by
        intro hs
        obtain ⟨j, hj, m, hm⟩ := (hseen x).mp hs
        rcases hfirst j m hm with h | ⟨h, -⟩ <;> omega
      have hbest : ∀ m, (R.stage k).offered x m → R.better l m := fun m hm =>
        ((hfirst k m (hoffered.1 x m hm)).resolve_left (lt_irrefl _)).2
      obtain ⟨m, hm, hbetter⟩ := hoffered.2 x l hway hnew
      rw [R.antisymm l m (hbest m hm) hbetter]
      exact ⟨hm, hnew, fun m' hm' => R.antisymm l m (hbest m hm) hbetter ▸ hbest m' hm'⟩

end Ways

/-! ## Distances -/

section Capped

variable {r : α → α → Prop} {A : α → Prop} {lab : ℕ → L}
  (hstart : ∀ x l, R.start x l ↔ A x ∧ l = lab 0)
  (hoffers : ∀ x k y m, R.offers x (lab k) y m ↔ r x y ∧ k + 1 < n ∧ m = lab (k + 1))
include hstart hoffers

/-- The labels that are offered say the round, and the round is the number of steps on the way. -/
theorem offered_capped (h : (R.stage k).offered x l) :
    l = lab k ∧ Reach.In r A k x ∧ (k = 0 ∨ k < n) := by
  induction k generalizing x l with
  | zero =>
    obtain ⟨hA, hl⟩ := (hstart x l).mp h
    exact ⟨hl, hA, .inl rfl⟩
  | succ k ih =>
    obtain ⟨y, m, hy, hyx⟩ := h
    obtain ⟨rfl, hin, -⟩ := ih hy.1
    obtain ⟨hr, hk, hl⟩ := (hoffers y k x l).mp hyx
    exact ⟨hl, ⟨y, hin, hr⟩, .inr hk⟩

/-- Before round `k`, what was taken are the vertices within fewer steps, up to the cap; and the
vertices at `k` steps were taken, or are offered now. -/
theorem seen_capped (hn : 0 < n) : ((R.stage k).seen x ↔ ∃ j < k, j < n ∧ Reach.In r A j x) ∧
    (k < n → Reach.In r A k x → (R.stage k).seen x ∨ (R.stage k).offered x (lab k)) := by
  induction k generalizing x with
  | zero => exact ⟨by simp [Rules.stage], fun _ hA => .inr ((hstart x (lab 0)).mpr ⟨hA, rfl⟩)⟩
  | succ k ih =>
    -- All offers of a round have one label, so whatever is offered is taken with it.
    have htakes : ∀ y, (R.stage k).offered y (lab k) → ¬ (R.stage k).seen y →
        R.takes (R.stage k) y (lab k) := by
      intro y hy hs
      obtain ⟨m, hm⟩ := exists_takes (R := R) hy hs
      obtain ⟨rfl, -, -⟩ := offered_capped hstart hoffers hm.1
      exact hm
    have hseen : ∀ y, (R.stage (k + 1)).seen y ↔ ∃ j < k + 1, j < n ∧ Reach.In r A j y := by
      intro y
      change (R.stage k).seen y ∨ _ ↔ _
      rw [ih.1]
      constructor
      · rintro (⟨j, hj, hin⟩ | ⟨l, hl⟩)
        · exact ⟨j, by omega, hin⟩
        · obtain ⟨-, hin, hk⟩ := offered_capped hstart hoffers hl.1
          exact ⟨k, by omega, by omega, hin⟩
      · rintro ⟨j, hj, hjn, hin⟩
        rcases Nat.lt_or_eq_of_le (Nat.le_of_lt_succ hj) with hj | rfl
        · exact .inl ⟨j, hj, hjn, hin⟩
        · rcases (ih (x := y)).2 hjn hin with hs | ho
          · exact .inl (ih.1.mp hs)
          · by_cases hs : (R.stage j).seen y
            · exact .inl (ih.1.mp hs)
            · exact .inr ⟨lab j, htakes y ho hs⟩
    refine ⟨hseen x, fun hk hin => ?_⟩
    obtain ⟨y, hy, hyx⟩ := hin
    by_cases hs : (R.stage k).seen y
    · -- The vertex before it was taken in an earlier round, so it was offered before.
      obtain ⟨j, hj, hjn, hjy⟩ := ih.1.mp hs
      exact .inl ((hseen x).mpr ⟨j + 1, by omega, by omega, y, hjy, hyx⟩)
    · have ho := ((ih (x := y)).2 (by omega) hy).resolve_left hs
      exact .inr ⟨y, lab k, htakes y ho hs, (hoffers y k x _).mpr ⟨hyx, hk, rfl⟩⟩

/-- What is taken at some time are the vertices within the cap. -/
theorem seen_iff_capped (hn : 0 < n) : R.Seen x ↔ ∃ j < n, Reach.In r A j x := by
  constructor
  · rintro ⟨l, k, hk⟩
    obtain ⟨-, hin, hkn⟩ := offered_capped hstart hoffers hk.1
    exact ⟨k, by omega, hin⟩
  · rintro ⟨j, hj, hin⟩
    exact seen_of_stage (k := j + 1)
      ((seen_capped hstart hoffers hn).1.mpr ⟨j, by omega, hj, hin⟩)

end Capped

end Levels
