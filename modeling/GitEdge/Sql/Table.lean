import Mathlib.Data.List.Nodup
import Mathlib.Data.List.Perm.Basic

/-!
# Tables with a primary key

A table is a list of rows no two of which share a key, and the statements are the ones of SQL that
a program needs: a lookup by key, an insert that leaves an existing row alone, an insert that
updates it, a delete and an update of the rows that satisfy a condition. Each returns a table, so
the primary key is never violated, and `changes` of a statement is the number of rows that it
touched. The lemmas describe the rows of a table after a statement by the rows before it.
-/

namespace Sql

/-- A table: its rows, of which no two have the same key. -/
structure Table (ρ : Type) {κ : Type} (key : ρ → κ) where
  /-- The rows, in the order of their insertion. -/
  rows : List ρ
  /-- The primary key. -/
  nodup : (rows.map key).Nodup

namespace Table

variable {ρ κ : Type} {key : ρ → κ}

instance : Membership ρ (Table ρ key) := ⟨fun t r => r ∈ t.rows⟩

theorem mem_def {t : Table ρ key} {r : ρ} : r ∈ t ↔ r ∈ t.rows := Iff.rfl

/-- Two tables with the same rows are equal. -/
@[ext]
theorem ext_rows {t u : Table ρ key} (h : t.rows = u.rows) : t = u := by
  cases t; cases u; simp_all

/-- A row is determined by its key. -/
theorem eq_of_key_eq {t : Table ρ key} {r s : ρ} (hr : r ∈ t) (hs : s ∈ t)
    (h : key r = key s) : r = s :=
  List.inj_on_of_nodup_map t.nodup hr hs h

/-- The table without rows. -/
def empty : Table ρ key := ⟨[], by simp⟩

instance : Inhabited (Table ρ key) := ⟨empty⟩

@[simp] theorem not_mem_empty (r : ρ) : r ∉ (empty : Table ρ key) := by simp [mem_def, empty]

/-! ## Reads -/

/-- The rows that satisfy a condition. -/
def select (t : Table ρ key) (p : ρ → Bool) : List ρ := t.rows.filter p

/-- The number of rows that satisfy a condition. -/
def countWhere (t : Table ρ key) (p : ρ → Bool) : ℕ := (t.rows.filter p).length

/-- The number of rows. -/
def size (t : Table ρ key) : ℕ := t.rows.length

theorem mem_select {t : Table ρ key} {p : ρ → Bool} {r : ρ} :
    r ∈ t.select p ↔ r ∈ t ∧ p r = true := List.mem_filter

theorem nodup_rows (t : Table ρ key) : t.rows.Nodup := List.Nodup.of_map _ t.nodup

theorem nodup_select (t : Table ρ key) (p : ρ → Bool) : (t.select p).Nodup := t.nodup_rows.filter _

section Keyed

variable [DecidableEq κ]

/-- The row with the key `k`. -/
def find (t : Table ρ key) (k : κ) : Option ρ := t.rows.find? fun r => key r = k

/-- Whether some row has the key `k`. -/
def has (t : Table ρ key) (k : κ) : Bool := t.rows.any fun r => key r = k

theorem find_eq_some {t : Table ρ key} {k : κ} {r : ρ} :
    t.find k = some r ↔ r ∈ t ∧ key r = k := by
  constructor
  · intro h
    exact ⟨List.mem_of_find?_eq_some h, by simpa using List.find?_some h⟩
  · rintro ⟨hr, hk⟩
    cases h : t.find k with
    | none => exact absurd hk (by simpa using List.find?_eq_none.mp h r hr)
    | some s =>
      have hs : s ∈ t := List.mem_of_find?_eq_some h
      have hks : key s = k := by simpa using List.find?_some h
      rw [eq_of_key_eq hs hr (hks.trans hk.symm)]

theorem find_eq_none {t : Table ρ key} {k : κ} : t.find k = none ↔ ∀ r ∈ t, key r ≠ k := by
  simp [find, mem_def]

theorem has_iff {t : Table ρ key} {k : κ} : t.has k = true ↔ ∃ r ∈ t, key r = k := by
  simp [has, mem_def]

theorem has_eq_false {t : Table ρ key} {k : κ} : t.has k = false ↔ ∀ r ∈ t, key r ≠ k := by
  simp [has, mem_def]

theorem has_eq_isSome (t : Table ρ key) (k : κ) : t.has k = (t.find k).isSome := by
  rw [Bool.eq_iff_iff, has_iff, Option.isSome_iff_exists]
  simp only [find_eq_some]

end Keyed

/-! ## Deletes and updates -/

/-- `DELETE FROM t WHERE p`. -/
def deleteWhere (t : Table ρ key) (p : ρ → Bool) : Table ρ key :=
  ⟨t.rows.filter fun r => !p r, t.nodup.sublist (List.filter_sublist.map key)⟩

/-- `UPDATE t SET f WHERE p`, where the assignments `f` keep the key. -/
def updateWhere (t : Table ρ key) (p : ρ → Bool) (f : ρ → ρ) (hf : ∀ r, key (f r) = key r) :
    Table ρ key :=
  ⟨t.rows.map fun r => if p r then f r else r, by
    have h : (t.rows.map fun r => if p r then f r else r).map key = t.rows.map key := by
      rw [List.map_map]
      refine List.map_congr_left fun r _ => ?_
      by_cases hp : p r <;> simp [hp, hf]
    rw [h]; exact t.nodup⟩

@[simp]
theorem mem_deleteWhere {t : Table ρ key} {p : ρ → Bool} {r : ρ} :
    r ∈ t.deleteWhere p ↔ r ∈ t ∧ p r = false := by
  simp [mem_def, deleteWhere]

theorem mem_updateWhere {t : Table ρ key} {p : ρ → Bool} {f : ρ → ρ}
    {hf : ∀ r, key (f r) = key r} {r : ρ} :
    r ∈ t.updateWhere p f hf ↔ ∃ q ∈ t, (if p q then f q else q) = r := by
  simp only [mem_def, updateWhere, List.mem_map]

/-- A statement whose condition no row satisfies changes nothing. -/
theorem deleteWhere_eq_self {t : Table ρ key} {p : ρ → Bool} (h : ∀ r ∈ t, p r = false) :
    t.deleteWhere p = t := by
  ext1
  exact List.filter_eq_self.mpr fun r hr => by simp [h r hr]

theorem updateWhere_eq_self {t : Table ρ key} {p : ρ → Bool} {f : ρ → ρ}
    (hf : ∀ r, key (f r) = key r) (h : ∀ r ∈ t, p r = true → f r = r) :
    t.updateWhere p f hf = t := by
  ext1
  refine (List.map_congr_left fun r hr => ?_).trans (List.map_id _)
  by_cases hp : p r
  · simp [hp, h r hr hp]
  · simp [hp]

theorem size_deleteWhere (t : Table ρ key) (p : ρ → Bool) :
    (t.deleteWhere p).size + t.countWhere p = t.size := by
  simp only [size, countWhere, deleteWhere]
  induction t.rows with
  | nil => rfl
  | cons r l ih => by_cases hp : p r <;> simp [hp] <;> omega

@[simp]
theorem size_updateWhere (t : Table ρ key) (p : ρ → Bool) (f : ρ → ρ)
    (hf : ∀ r, key (f r) = key r) : (t.updateWhere p f hf).size = t.size := by
  simp [size, updateWhere]

/-! ## Counts -/

theorem countWhere_updateWhere (t : Table ρ key) (p : ρ → Bool) (f : ρ → ρ)
    (hf : ∀ r, key (f r) = key r) (q : ρ → Bool) :
    (t.updateWhere p f hf).countWhere q = t.countWhere fun r => q (if p r then f r else r) := by
  rw [countWhere, updateWhere, List.filter_map, List.length_map]
  rfl

/-- A delete of rows that do not count. -/
theorem countWhere_deleteWhere {t : Table ρ key} {p q : ρ → Bool}
    (h : ∀ r, q r = true → p r = false) :
    (t.deleteWhere p).countWhere q = t.countWhere q := by
  rw [countWhere, deleteWhere, List.filter_filter, countWhere]
  refine congrArg List.length (List.filter_congr fun r _ => ?_)
  cases hq : q r with
  | true => simp [h r hq]
  | false => rfl

theorem countWhere_or {t : Table ρ key} {p q : ρ → Bool} (h : ∀ r, p r = true → q r = false) :
    t.countWhere (fun r => p r || q r) = t.countWhere p + t.countWhere q := by
  simp only [countWhere]
  induction t.rows with
  | nil => rfl
  | cons r l ih =>
    cases hp : p r with
    | true =>
      simp [hp, h r hp, ih]
      omega
    | false =>
      cases hq : q r
      · simp [hp, hq, ih]
      · simp [hp, hq, ih]
        omega

section Keyed

variable [DecidableEq κ]

/-! ## Inserts -/

/-- `INSERT INTO t VALUES (r) ON CONFLICT DO NOTHING`. -/
def insertIgnore (t : Table ρ key) (r : ρ) : Table ρ key :=
  if h : key r ∈ t.rows.map key then t
  else ⟨t.rows ++ [r], by
    rw [List.map_append, List.map_singleton]
    exact List.nodup_append.mpr ⟨t.nodup, List.nodup_singleton _, by
      intro a ha b hb
      rw [List.mem_singleton.mp hb]
      rintro rfl
      exact h ha⟩⟩

/-- `INSERT INTO t VALUES (r) ON CONFLICT DO UPDATE SET f`, where the assignments keep the key. -/
def upsert (t : Table ρ key) (r : ρ) (f : ρ → ρ) (hf : ∀ q, key (f q) = key q) : Table ρ key :=
  if t.has (key r) then t.updateWhere (fun q => key q = key r) f hf else t.insertIgnore r

theorem insertIgnore_of_has {t : Table ρ key} {r : ρ} (h : t.has (key r) = true) :
    t.insertIgnore r = t := by
  obtain ⟨q, hq, hk⟩ := has_iff.mp h
  have : key r ∈ t.rows.map key := List.mem_map.mpr ⟨q, hq, hk⟩
  simp [insertIgnore, this]

theorem rows_insertIgnore_of_not_has {t : Table ρ key} {r : ρ} (h : t.has (key r) = false) :
    (t.insertIgnore r).rows = t.rows ++ [r] := by
  have : key r ∉ t.rows.map key := by
    rintro hm
    obtain ⟨q, hq, hk⟩ := List.mem_map.mp hm
    exact has_eq_false.mp h q hq hk
  simp [insertIgnore, this]

theorem size_insertIgnore_of_not_has {t : Table ρ key} {r : ρ} (h : t.has (key r) = false) :
    (t.insertIgnore r).size = t.size + 1 := by
  simp [size, rows_insertIgnore_of_not_has h]

theorem countWhere_insertIgnore_of_not_has {t : Table ρ key} {r : ρ} (h : t.has (key r) = false)
    (q : ρ → Bool) : (t.insertIgnore r).countWhere q = t.countWhere q + if q r then 1 else 0 := by
  rw [countWhere, rows_insertIgnore_of_not_has h, List.filter_append,
    List.length_append, countWhere]
  cases hq : q r <;> simp [hq]

theorem mem_insertIgnore {t : Table ρ key} {r q : ρ} :
    q ∈ t.insertIgnore r ↔ q ∈ t ∨ (q = r ∧ t.has (key r) = false) := by
  cases h : t.has (key r) with
  | true => simp [insertIgnore_of_has h]
  | false => simp [mem_def, rows_insertIgnore_of_not_has h]

/-- After an insert there is a row with the key that was inserted. -/
theorem has_insertIgnore (t : Table ρ key) (r : ρ) (k : κ) :
    (t.insertIgnore r).has k = (t.has k || decide (key r = k)) := by
  rw [Bool.eq_iff_iff]
  simp only [has_iff, mem_insertIgnore, Bool.or_eq_true, decide_eq_true_eq]
  constructor
  · rintro ⟨q, hq | ⟨rfl, -⟩, hk⟩
    · exact .inl ⟨q, hq, hk⟩
    · exact .inr hk
  · rintro (⟨q, hq, hk⟩ | hk)
    · exact ⟨q, .inl hq, hk⟩
    · cases h : t.has (key r) with
      | true =>
        obtain ⟨q, hq, hqr⟩ := has_iff.mp h
        exact ⟨q, .inl hq, hqr.trans hk⟩
      | false => exact ⟨r, .inr ⟨rfl, rfl⟩, hk⟩

theorem mem_upsert {t : Table ρ key} {r q : ρ} {f : ρ → ρ} {hf : ∀ q, key (f q) = key q} :
    q ∈ t.upsert r f hf ↔
      (q ∈ t ∧ key q ≠ key r) ∨ (∃ o ∈ t, key o = key r ∧ f o = q) ∨
        (q = r ∧ t.has (key r) = false) := by
  unfold upsert
  split_ifs with h
  · simp only [mem_updateWhere, decide_eq_true_eq, h, Bool.true_eq_false, and_false, or_false]
    constructor
    · rintro ⟨o, ho, rfl⟩
      by_cases hk : key o = key r
      · exact .inr ⟨o, ho, hk, by simp [hk]⟩
      · exact .inl ⟨by simpa [hk] using ho, by simp [hk]⟩
    · rintro (⟨hq, hk⟩ | ⟨o, ho, hk, rfl⟩)
      · exact ⟨q, hq, by simp [hk]⟩
      · exact ⟨o, ho, by simp [hk]⟩
  · have h' : t.has (key r) = false := by simpa using h
    rw [mem_insertIgnore]
    constructor
    · rintro (hq | hq)
      · exact .inl ⟨hq, has_eq_false.mp h' q hq⟩
      · exact .inr (.inr hq)
    · rintro (⟨hq, -⟩ | ⟨o, ho, hk, -⟩ | hq)
      · exact .inl hq
      · exact absurd hk (has_eq_false.mp h' o ho)
      · exact .inr hq

theorem has_updateWhere (t : Table ρ key) (p : ρ → Bool) (f : ρ → ρ) (hf : ∀ r, key (f r) = key r)
    (k : κ) : (t.updateWhere p f hf).has k = t.has k := by
  rw [Bool.eq_iff_iff]
  simp only [has_iff, mem_updateWhere]
  constructor
  · rintro ⟨_, ⟨r, hr, rfl⟩, hk⟩
    refine ⟨r, hr, ?_⟩
    split_ifs at hk
    · rwa [hf] at hk
    · exact hk
  · rintro ⟨r, hr, hk⟩
    refine ⟨_, ⟨r, hr, rfl⟩, ?_⟩
    split_ifs
    · rwa [hf]
    · exact hk

/-- After an insert that may update there is a row with the key that was inserted. -/
theorem has_upsert (t : Table ρ key) (r : ρ) (f : ρ → ρ) (hf : ∀ q, key (f q) = key q) (k : κ) :
    (t.upsert r f hf).has k = (t.has k || decide (key r = k)) := by
  unfold upsert
  split_ifs with h
  · rw [has_updateWhere]
    by_cases hk : key r = k
    · rw [← hk, h, Bool.true_or]
    · simp [hk]
  · exact has_insertIgnore t r k

/-- A delete by the key. -/
theorem has_deleteWhere_key (t : Table ρ key) (p : κ → Bool) (k : κ) :
    (t.deleteWhere fun r => p (key r)).has k = (t.has k && !p k) := by
  rw [Bool.eq_iff_iff]
  simp only [has_iff, mem_deleteWhere, Bool.and_eq_true, Bool.not_eq_true']
  constructor
  · rintro ⟨r, ⟨hr, hp⟩, rfl⟩
    exact ⟨⟨r, hr, rfl⟩, hp⟩
  · rintro ⟨⟨r, hr, rfl⟩, hp⟩
    exact ⟨r, ⟨hr, hp⟩, rfl⟩

/-- Inserts in a row. -/
theorem has_foldl_insertIgnore {α : Type} (l : List α) (f : α → ρ) (t : Table ρ key) (k : κ) :
    (l.foldl (fun t a => t.insertIgnore (f a)) t).has k =
      (t.has k || l.any fun a => key (f a) = k) := by
  induction l generalizing t with
  | nil => simp
  | cons a l ih => rw [List.foldl_cons, ih, has_insertIgnore, List.any_cons, Bool.or_assoc]

/-! ## Lookups after a statement -/

theorem find_deleteWhere (t : Table ρ key) (p : ρ → Bool) (k : κ) :
    (t.deleteWhere p).find k = (t.find k).filter fun r => !p r := by
  ext r
  simp only [find_eq_some, mem_deleteWhere, Option.filter_eq_some_iff, Bool.not_eq_true']
  tauto

theorem find_updateWhere (t : Table ρ key) (p : ρ → Bool) (f : ρ → ρ)
    (hf : ∀ r, key (f r) = key r) (k : κ) :
    (t.updateWhere p f hf).find k = (t.find k).map fun r => if p r then f r else r := by
  ext r
  simp only [find_eq_some, mem_updateWhere, Option.map_eq_some_iff]
  constructor
  · rintro ⟨⟨q, hq, rfl⟩, hk⟩
    refine ⟨q, ⟨hq, ?_⟩, rfl⟩
    by_cases hp : p q
    · simpa [hp, hf] using hk
    · simpa [hp] using hk
  · rintro ⟨q, ⟨hq, hk⟩, rfl⟩
    refine ⟨⟨q, hq, rfl⟩, ?_⟩
    by_cases hp : p q
    · simpa [hp, hf] using hk
    · simpa [hp] using hk

theorem find_insertIgnore (t : Table ρ key) (r : ρ) (k : κ) :
    (t.insertIgnore r).find k = if t.has (key r) = false ∧ key r = k then some r else t.find k := by
  cases h : t.has (key r) with
  | true => simp [insertIgnore_of_has h]
  | false =>
    ext q
    simp only [find_eq_some, mem_insertIgnore, h, and_true, true_and]
    split_ifs with hk
    · constructor
      · rintro ⟨hq | rfl, hqk⟩
        · exact absurd (hqk.trans hk.symm) (has_eq_false.mp h q hq)
        · rfl
      · rintro ⟨rfl⟩
        exact ⟨.inr rfl, hk⟩
    · rw [find_eq_some]
      constructor
      · rintro ⟨hq | rfl, hqk⟩
        · exact ⟨hq, hqk⟩
        · exact absurd hqk hk
      · rintro ⟨hq, hqk⟩
        exact ⟨.inl hq, hqk⟩

theorem find_upsert (t : Table ρ key) (r : ρ) (f : ρ → ρ) (hf : ∀ q, key (f q) = key q) (k : κ) :
    (t.upsert r f hf).find k = if key r = k then some ((t.find k).elim r f) else t.find k := by
  ext q
  rw [find_eq_some, mem_upsert]
  split_ifs with hk
  · subst hk
    cases h : t.find (key r) with
    | none =>
      have hno := find_eq_none.mp h
      have hhas : t.has (key r) = false := has_eq_false.mpr hno
      simp only [hhas, and_true, Option.elim_none, Option.some.injEq]
      constructor
      · rintro ⟨(⟨-, hne⟩ | ⟨o, ho, hok, -⟩ | rfl), hq⟩
        · exact absurd hq hne
        · exact absurd hok (hno o ho)
        · rfl
      · rintro rfl
        exact ⟨.inr (.inr rfl), rfl⟩
    | some o =>
      obtain ⟨ho, hok⟩ := find_eq_some.mp h
      have hhas : t.has (key r) = true := has_iff.mpr ⟨o, ho, hok⟩
      simp only [hhas, Bool.true_eq_false, and_false, or_false, Option.elim_some, Option.some.injEq]
      constructor
      · rintro ⟨(⟨-, hne⟩ | ⟨o', ho', hok', rfl⟩), hq⟩
        · exact absurd hq hne
        · rw [eq_of_key_eq ho' ho (hok'.trans hok.symm)]
      · rintro rfl
        exact ⟨.inr ⟨o, ho, hok, rfl⟩, (hf o).trans hok⟩
  · rw [find_eq_some]
    constructor
    · rintro ⟨(⟨hq, -⟩ | ⟨o, -, hok, rfl⟩ | ⟨rfl, -⟩), hqk⟩
      · exact ⟨hq, hqk⟩
      · exact absurd (((hf o).trans hok).symm.trans hqk) hk
      · exact absurd hqk hk
    · rintro ⟨hq, hqk⟩
      exact ⟨.inl ⟨hq, fun h => hk (h.symm.trans hqk)⟩, hqk⟩

/-- The rows that satisfy `p` among those with the key `k` are at most one. -/
theorem countWhere_key (t : Table ρ key) (k : κ) (p : ρ → Bool) :
    t.countWhere (fun r => decide (key r = k) && p r) =
      if ((t.find k).filter p).isSome then 1 else 0 := by
  have hle : (t.rows.filter fun r => decide (key r = k) && p r).length ≤ 1 := by
    have hnd : ((t.rows.filter fun r => decide (key r = k) && p r).map key).Nodup :=
      t.nodup.sublist (List.filter_sublist.map key)
    match h : t.rows.filter fun r => decide (key r = k) && p r with
    | [] => simp
    | [_] => simp
    | a :: b :: l =>
      rw [h] at hnd
      have ha : a ∈ t.rows.filter fun r => decide (key r = k) && p r := by rw [h]; simp
      have hb : b ∈ t.rows.filter fun r => decide (key r = k) && p r := by rw [h]; simp
      simp only [List.mem_filter, Bool.and_eq_true, decide_eq_true_eq] at ha hb
      simp [ha.2.1, hb.2.1] at hnd
  unfold countWhere
  cases h : (t.find k).filter p with
  | none =>
    simp only [Option.isSome_none, Bool.false_eq_true, if_false, List.length_eq_zero_iff,
      List.filter_eq_nil_iff, Bool.and_eq_true, decide_eq_true_eq, not_and]
    intro r hr hk hp
    have : (t.find k).filter p = some r :=
      Option.filter_eq_some_iff.mpr ⟨find_eq_some.mpr ⟨hr, hk⟩, hp⟩
    simp [h] at this
  | some r =>
    obtain ⟨hr, hp⟩ := Option.filter_eq_some_iff.mp h
    obtain ⟨hr, hk⟩ := find_eq_some.mp hr
    have : 0 < (t.rows.filter fun r => decide (key r = k) && p r).length :=
      List.length_pos_of_mem (List.mem_filter.mpr ⟨hr, by simp [hk, hp]⟩)
    simp only [Option.isSome_some, if_true]
    omega

end Keyed

end Table

end Sql
