import GitEdge.Jobs.Cohort
import GitEdge.Lib.Ranks

/-!
# When a compaction wakes

`select_cohort` looks at the packs that are old enough now, and `next_wake` at the times at which
they get old enough. The two agree: there is a cohort at a time exactly if the wake time has come.
Both come down to one count, that of the packs of a tier which are old enough (`ripe`). The greedy
loop never spoils this, as the limits on a single pack let it take two packs always.
-/

namespace GitEdge

variable {c : List PackRow}

/-- The packs of a tier that are old enough at a time. -/
def ripe (packs : List PackRow) (quarantined : List PackId) (now : ℤ) (k : Knobs) (i : ℕ) :
    List PackRow :=
  packs.filter fun p => eligible quarantined (now - k.min_age_ms) k p && tier p.count = i

section Select

variable {packs : List PackRow} {quarantined : List PackId} {now : ℤ} {k : Knobs} {t : ℕ}

theorem two_le_threshold (k : Knobs) : 2 ≤ k.threshold := le_max_right _ _

/-! ## The tier -/

/-- The tier that wins is one of those with enough packs, or the one that led before. -/
theorem bestTier_eq_some {ls : List (List PackRow)} {best : Option (List PackRow)}
    (h : bestTier t ls best = some c) : (c ∈ ls ∧ t ≤ c.length) ∨ best = some c := by
  induction ls generalizing best with
  | nil => exact .inr h
  | cons l ls ih =>
    rw [bestTier] at h
    split_ifs at h with hl
    · rcases ih h with ⟨hmem, hlen⟩ | heq
      · exact .inl ⟨List.mem_cons_of_mem l hmem, hlen⟩
      · cases heq
        simp only [Bool.and_eq_true, decide_eq_true_eq] at hl
        exact .inl ⟨List.mem_cons_self, hl.1⟩
    · rcases ih h with ⟨hmem, hlen⟩ | heq
      · exact .inl ⟨List.mem_cons_of_mem l hmem, hlen⟩
      · exact .inr heq

/-- A tier wins if one led before or one has enough packs. -/
theorem bestTier_isSome (ls : List (List PackRow)) (best : Option (List PackRow)) :
    (bestTier t ls best).isSome = true ↔ best.isSome = true ∨ ∃ l ∈ ls, t ≤ l.length := by
  induction ls generalizing best with
  | nil => simp [bestTier]
  | cons l ls ih =>
    rw [bestTier]
    split_ifs with hl
    · simp only [Bool.and_eq_true, decide_eq_true_eq] at hl
      rw [ih]
      simp [hl.1]
    · rw [ih]
      cases best with
      | none =>
        have hshort : ¬ t ≤ l.length := by simpa using hl
        simp [hshort]
      | some b => simp

/-! ## The greedy loop -/

/-- What the loop has taken, with its sums. -/
structure Taking (t : ℕ) (k : Knobs) (cohort out : List PackRow) (rows bytes : ℕ) : Prop where
  subset : out ⊆ cohort
  length : out.length ≤ 2 * t
  rows_eq : rows = (out.map (·.count)).sum
  bytes_eq : bytes = (out.map (·.bytes)).sum
  rows_le : out ≠ [] → (rows : ℤ) ≤ k.max_rows
  bytes_le : bytes ≤ cohortBytes

/-- The loop keeps what it has taken within the limits. -/
theorem Taking.run {cohort ps out : List PackRow} {rows bytes : ℕ}
    (h : Taking t k cohort out rows bytes) (hps : ps ⊆ cohort) :
    ∃ rows' bytes', Taking t k cohort (takeCohort t k ps out rows bytes) rows' bytes' := by
  induction ps generalizing out rows bytes with
  | nil => exact ⟨rows, bytes, h⟩
  | cons p ps ih =>
    rw [takeCohort]
    split_ifs with hstop
    · exact ⟨rows, bytes, h⟩
    · simp only [Bool.or_eq_true, decide_eq_true_eq, not_or, not_le, not_lt] at hstop
      obtain ⟨⟨hlen, hrows⟩, hbytes⟩ := hstop
      have hp : p ∈ cohort := hps List.mem_cons_self
      refine ih ⟨?_, ?_, ?_, ?_, fun _ => hrows, hbytes⟩ fun q hq => hps (List.mem_cons_of_mem p hq)
      · intro q hq
        rcases List.mem_append.mp hq with hq | hq
        · exact h.subset hq
        · rw [List.mem_singleton.mp hq]
          exact hp
      · rw [List.length_append, List.length_singleton]
        omega
      · rw [h.rows_eq]
        simp
      · rw [h.bytes_eq]
        simp

/-- The loop never gives back what it has taken. -/
theorem length_le_takeCohort (ps out : List PackRow) (rows bytes : ℕ) :
    out.length ≤ (takeCohort t k ps out rows bytes).length := by
  induction ps generalizing out rows bytes with
  | nil => exact le_refl _
  | cons p ps ih =>
    rw [takeCohort]
    split_ifs
    · exact le_refl _
    · have := ih (out ++ [p]) (rows + p.count) (bytes + p.bytes)
      rw [List.length_append, List.length_singleton] at this
      omega

/-- Of two or more packs that are within the limits on a single pack, the loop takes two. -/
theorem two_le_takeCohort (ht : 2 ≤ t) {cohort : List PackRow} (hlen : 2 ≤ cohort.length)
    (hok : ∀ p ∈ cohort, admissible quarantined k p = true) :
    2 ≤ (takeCohort t k cohort [] 0 0).length := by
  match cohort, hlen with
  | p :: q :: ps, _ =>
    have hp := hok p (by simp)
    have hq := hok q (by simp)
    simp only [admissible, Bool.and_eq_true, decide_eq_true_eq] at hp hq
    obtain ⟨⟨⟨hp₁, hp₂⟩, hp₃⟩, -⟩ := hp
    obtain ⟨⟨⟨hq₁, hq₂⟩, hq₃⟩, -⟩ := hq
    have hbytes : p.bytes + q.bytes ≤ cohortBytes := by
      unfold maxPackBytes at hp₃ hq₃
      unfold cohortBytes
      omega
    -- Each has at most half of the rows, and a quarter of the bytes.
    have hhalf : 2 * k.max_rows.tdiv 2 ≤ k.max_rows := by
      have hpos : 0 ≤ k.max_rows := by
        by_contra hneg
        have hup : (-k.max_rows).tdiv 2 = (-k.max_rows) / 2 :=
          Int.tdiv_eq_ediv_of_nonneg (by omega)
        rw [Int.neg_tdiv] at hup
        omega
      rw [Int.tdiv_eq_ediv_of_nonneg hpos]
      omega
    have htwo : takeCohort t k (p :: q :: ps) [] 0 0 =
        takeCohort t k ps [p, q] (0 + p.count + q.count) (0 + p.bytes + q.bytes) := by
      rw [takeCohort, if_neg, takeCohort, if_neg]
      · rfl
      · simp only [Bool.or_eq_true, decide_eq_true_eq, not_or, not_le, not_lt,
          List.length_append, List.length_nil, List.length_singleton]
        omega
      · simp only [Bool.or_eq_true, decide_eq_true_eq, not_or, not_le, not_lt,
          List.length_nil]
        omega
    rw [htwo]
    exact length_le_takeCohort ps [p, q] _ _

/-! ## The two functions -/

theorem mem_ripe {i : ℕ} {p : PackRow} (hp : p ∈ ripe packs quarantined now k i) :
    p ∈ packs ∧ eligible quarantined (now - k.min_age_ms) k p = true ∧ tier p.count = i := by
  simp only [ripe, List.mem_filter, Bool.and_eq_true, decide_eq_true_eq] at hp
  exact ⟨hp.1, hp.2.1, hp.2.2⟩

/-- A cohort comes from the loop over the packs of one tier. -/
theorem selectCohort_eq_some (h : selectCohort packs quarantined now k = some c) :
    ∃ i < tiers, c = takeCohort k.threshold k
      ((ripe packs quarantined now k i).insertionSort olderPack) [] 0 0 ∧ 2 ≤ c.length := by
  unfold selectCohort at h
  dsimp only at h
  split at h
  · cases h
  · next cohort hbest =>
    split_ifs at h with hlen
    · cases h
      rcases bestTier_eq_some hbest with ⟨hmem, -⟩ | hnone
      · obtain ⟨i, hi, rfl⟩ := List.mem_map.mp hmem
        exact ⟨i, List.mem_range.mp hi, rfl, hlen⟩
      · cases hnone

/-- A cohort is within the limits of the loop. -/
theorem selectCohort_taking (h : selectCohort packs quarantined now k = some c) :
    ∃ i rows bytes, Taking k.threshold k ((ripe packs quarantined now k i).insertionSort olderPack)
      c rows bytes ∧ 2 ≤ c.length := by
  obtain ⟨i, -, hloop, hlen⟩ := selectCohort_eq_some h
  have hstart : Taking k.threshold k ((ripe packs quarantined now k i).insertionSort olderPack)
      [] 0 0 :=
    ⟨List.nil_subset _, Nat.zero_le _, rfl, rfl, fun h => absurd rfl h, Nat.zero_le _⟩
  obtain ⟨rows, bytes, htaken⟩ := hstart.run (List.Subset.refl _)
  rw [← hloop] at htaken
  exact ⟨i, rows, bytes, htaken, hlen⟩

/-- There is a cohort exactly if enough packs of a tier are old enough. -/
theorem selectCohort_isSome :
    (selectCohort packs quarantined now k).isSome = true ↔
      ∃ i < tiers, k.threshold ≤ (ripe packs quarantined now k i).length := by
  have hbest := bestTier_isSome (t := k.threshold)
    ((List.range tiers).map (ripe packs quarantined now k)) none
  simp only [Option.isSome_none, Bool.false_eq_true, false_or, List.mem_map, List.mem_range,
    exists_exists_and_eq_and] at hbest
  rw [← hbest]
  unfold selectCohort
  dsimp only
  have htiers : ((List.range tiers).map fun i => packs.filter fun p =>
      eligible quarantined (now - k.min_age_ms) k p && tier p.count = i) =
      (List.range tiers).map (ripe packs quarantined now k) := rfl
  rw [htiers]
  cases hsome :
    bestTier k.threshold ((List.range tiers).map (ripe packs quarantined now k)) none with
  | none => simp
  | some cohort =>
    -- The tier that wins has at least two packs, so the loop takes at least two.
    have hlen : 2 ≤ (takeCohort k.threshold k (cohort.insertionSort olderPack) [] 0 0).length := by
      rcases bestTier_eq_some hsome with ⟨hmem, hlen⟩ | hnone
      · obtain ⟨i, -, rfl⟩ := List.mem_map.mp hmem
        refine two_le_takeCohort (two_le_threshold k) ?_
          (fun p hp => ?_ : ∀ p ∈ _, admissible quarantined k p = true)
        · rw [List.length_insertionSort]
          exact (two_le_threshold k).trans hlen
        · have := (mem_ripe ((List.mem_insertionSort olderPack).mp hp)).2.1
          simp only [eligible, Bool.and_eq_true] at this
          exact this.1
      · cases hnone
    dsimp only
    rw [if_pos hlen]
    simp

/-- The wake time has come exactly if enough packs of a tier are old enough. -/
theorem nextWake_le_iff :
    (∃ w, nextWake packs quarantined k = some w ∧ w ≤ now) ↔
      ∃ i < tiers, k.threshold ≤ (ripe packs quarantined now k i).length := by
  have hmin : ∀ l : List ℤ, (∃ w, l.min? = some w ∧ w ≤ now) ↔ ∃ w ∈ l, w ≤ now := by
    intro l
    constructor
    · rintro ⟨w, hw, hle⟩
      exact ⟨w, List.min?_mem hw, hle⟩
    · rintro ⟨w, hw, hle⟩
      cases heq : l.min? with
      | none =>
        rw [List.min?_eq_none_iff.mp heq] at hw
        cases hw
      | some v => exact ⟨v, rfl, ((List.min?_eq_some_iff.mp heq).2 w hw).trans hle⟩
  -- The packs that a wake time counts are those that are ripe at that time.
  have hcount : ∀ i, (((packs.filter fun p => admissible quarantined k p && tier p.count = i).map
      fun p => p.created_at + k.min_age_ms).countP (· ≤ now)) =
        (ripe packs quarantined now k i).length := by
    intro i
    rw [List.countP_map, List.countP_filter, ripe, ← List.countP_eq_length_filter]
    refine List.countP_congr fun p _ => ?_
    simp only [Function.comp_apply, eligible, Bool.and_eq_true, decide_eq_true_eq]
    have : p.created_at + k.min_age_ms ≤ now ↔ p.created_at ≤ now - k.min_age_ms := by omega
    rw [this]
    tauto
  unfold nextWake
  rw [hmin]
  simp only [List.mem_filterMap, List.mem_range]
  constructor
  · rintro ⟨w, ⟨i, hi, hw⟩, hle⟩
    refine ⟨i, hi, ?_⟩
    have hrank := Ranks.rank_le_iff.mp ⟨w, hw, hle⟩
    rw [hcount i] at hrank
    omega
  · rintro ⟨i, hi, hlen⟩
    have hrank : k.threshold - 1 < (ripe packs quarantined now k i).length := by
      have := two_le_threshold k
      omega
    rw [← hcount i] at hrank
    obtain ⟨w, hw, hle⟩ := Ranks.rank_le_iff.mpr hrank
    exact ⟨w, ⟨i, hi, hw⟩, hle⟩

/-- There is a cohort at a time exactly if the wake time has come; and a cohort has two packs or
more, at most twice the fan-in, all of them eligible and of one tier, within the limits on rows and
bytes. -/
theorem wake_exact (packs : List PackRow) (quarantined : List PackId) (now : ℤ) (k : Knobs) :
    ((selectCohort packs quarantined now k).isSome = true ↔
      ∃ w, nextWake packs quarantined k = some w ∧ w ≤ now) ∧
    ∀ c, selectCohort packs quarantined now k = some c →
      2 ≤ c.length ∧ c.length ≤ 2 * k.threshold ∧ (2 ≤ k.fanin → (c.length : ℤ) ≤ 2 * k.fanin) ∧
      (∃ i, ∀ p ∈ c, p ∈ packs ∧ eligible quarantined (now - k.min_age_ms) k p = true ∧
        tier p.count = i) ∧
      (((c.map (·.count)).sum : ℕ) : ℤ) ≤ k.max_rows ∧ (c.map (·.bytes)).sum ≤ cohortBytes := by
  refine ⟨selectCohort_isSome.trans nextWake_le_iff.symm, fun c hc => ?_⟩
  obtain ⟨i, rows, bytes, htaken, hlen⟩ := selectCohort_taking hc
  have hne : c ≠ [] := by
    rintro rfl
    simp at hlen
  refine ⟨hlen, htaken.length, fun hfan => ?_, ⟨i, fun p hp => ?_⟩, ?_, ?_⟩
  · have hthreshold : (k.threshold : ℤ) = k.fanin := by
      unfold Knobs.threshold
      omega
    have := htaken.length
    omega
  · exact mem_ripe ((List.mem_insertionSort olderPack).mp (htaken.subset hp))
  · rw [← htaken.rows_eq]
    exact htaken.rows_le hne
  · rw [← htaken.bytes_eq]
    exact htaken.bytes_le

end Select

/-- Two small packs that get old enough at the time 10. -/
def smallPair : List PackRow :=
  [⟨1, .live, 3, 100, none, 0, none⟩, ⟨2, .live, 5, 200, none, 0, none⟩]

/-- At that time they are a cohort. -/
theorem wake_exact_pair : nextWake smallPair [] ⟨2, 10, 100⟩ = some 10 ∧
    ∃ c, selectCohort smallPair [] 10 ⟨2, 10, 100⟩ = some c ∧ 2 ≤ c.length ∧ c.length ≤ 4 := by
  have hwake : nextWake smallPair [] ⟨2, 10, 100⟩ = some 10 := by decide +kernel
  obtain ⟨hiff, hcohort⟩ := wake_exact smallPair [] 10 ⟨2, 10, 100⟩
  obtain ⟨c, hc⟩ := Option.isSome_iff_exists.mp (hiff.mpr ⟨10, hwake, le_refl 10⟩)
  obtain ⟨hmin, hmax, -⟩ := hcohort c hc
  exact ⟨hwake, c, hc, hmin, hmax⟩

end GitEdge
