import Mathlib.Data.List.Perm.Subperm
import GitEdge.Gc.Others
import GitEdge.Lib.Reach

/-!
# The colours of the walk

The walk of a chain reaches an object when it has it in its frontier or has seen it. An object that
was reached is kept if it has a live row outside the cohort, or a marked row in the cohort. What the
others do beside the chain leaves all of this (`Rely`).
-/

namespace GitEdge

open Sql Reach

/-! ## Colours -/

/-- The packs of the cohort are live. -/
def Db.CohortLive (s : Db) : Prop := ∀ p ∈ s.cohort, s.packLive p = true

/-- The cohort of a new chain: live packs, with no bit set. -/
theorem mem_insertCohort {s : Db} {cutoff : ℤ} (hempty : s.marked = .empty) {m : MarkedRow}
    (hm : m ∈ (insertCohort cutoff s).marked) :
    s.packLive m.pack_id = true ∧ ∀ i, Bits.get m.bitmap i = false := by
  have key : ∀ (l : List PackRow) (t : Table MarkedRow MarkedRow.pack_id),
      (∀ p ∈ l, s.packLive p.id = true) →
      (∀ m ∈ t, s.packLive m.pack_id = true ∧ ∀ i, Bits.get m.bitmap i = false) →
      ∀ m ∈ l.foldl (fun t p => t.insertIgnore ⟨p.id, Bits.zero p.count, none⟩) t,
        s.packLive m.pack_id = true ∧ ∀ i, Bits.get m.bitmap i = false := by
    intro l
    induction l with
    | nil => exact fun t _ ht => ht
    | cons p l ih =>
      intro t hl ht
      refine ih _ (fun q hq => hl q (List.mem_cons_of_mem _ hq)) fun m hm => ?_
      rcases Table.mem_insertIgnore.mp hm with hm | ⟨rfl, -⟩
      · exact ht m hm
      · exact ⟨hl p List.mem_cons_self, Bits.get_zero p.count⟩
  refine key _ s.marked (fun p hp => ?_) (fun m hm => ?_) m hm
  · obtain ⟨hmem, hcond⟩ := Table.mem_select.mp hp
    simp only [Bool.and_eq_true, decide_eq_true_eq] at hcond
    exact packLive_iff.mpr ⟨p, Table.find_eq_some.mpr ⟨hmem, rfl⟩, hcond.1⟩
  · rw [hempty] at hm
    exact absurd hm (Table.not_mem_empty m)

/-- The walk has the object in its frontier, or has seen it. -/
def Db.Reached (s : Db) (x : Oid) : Prop := s.gc_frontier.has x = true ∨ s.gc_seen.has x = true

/-- The object has a live row outside the cohort. -/
def Db.Outside (s : Db) (x : Oid) : Prop :=
  ∃ r ∈ s.objects, r.sha = x ∧ s.packLive r.pack_id = true ∧ r.pack_id ∉ s.cohort

/-- The object has a marked row in a live pack of the cohort. -/
def Db.MarkedIn (s : Db) (x : Oid) : Prop :=
  ∃ m ∈ s.marked, s.packLive m.pack_id = true ∧
    ∃ r ∈ s.objects, r.pack_id = m.pack_id ∧ r.sha = x ∧ Bits.get m.bitmap r.idx = true

/-! ## What the others do -/

namespace Rely

variable {w : World} {s t : Db}

theorem live_of_live (h : Rely w s t) {p : PackId} (hp : t.packLive p = true)
    (hc : p ∈ s.cohort ∨ s.gc.new_pack = some p) : s.packLive p = true := by
  by_contra hs
  obtain ⟨hcohort, hnew, -⟩ := h.newLive p hp (by simpa using hs)
  exact hc.elim hcohort hnew

theorem cohortLive (h : Rely w s t) : t.CohortLive ↔ s.CohortLive := by
  unfold Db.CohortLive
  rw [h.cohort]
  exact ⟨fun ht p hp => h.live_of_live (ht p hp) (.inl hp), fun hs p hp => h.live (hs p hp)⟩

theorem reached (h : Rely w s t) {x : Oid} (hx : s.Reached x) : t.Reached x :=
  hx.imp (h.frontier x) fun hx => h.seen ▸ hx

theorem outside (h : Rely w s t) {x : Oid} (hx : s.Outside x) : t.Outside x := by
  obtain ⟨r, hr, hrx, hl, hc⟩ := hx
  exact ⟨r, (h.rows r (.inl hl)).mpr hr, hrx, h.live hl, by rwa [h.cohort]⟩

theorem markedIn (h : Rely w s t) {x : Oid} (hx : s.MarkedIn x) : t.MarkedIn x := by
  obtain ⟨m, hm, hl, r, hr, hrm, hrest⟩ := hx
  exact ⟨m, h.marked ▸ hm, h.live hl, r, (h.rows r (.inl (hrm ▸ hl))).mpr hr, hrm, hrest⟩

end Rely

/-! ## Roots -/

/-- A link that leads to a live object. -/
def LiveLink (w : World) (s : Db) (x y : Oid) : Prop := w.objs.Link x y ∧ s.Live y

/-- A live ref target, peeled target or pin, or an object other than a blob of a live pack outside
the cohort. -/
def Db.Root (s : Db) (x : Oid) : Prop :=
  s.Live x ∧ (x ∈ s.rootIds ∨ ∃ r ∈ s.objects, s.packLive r.pack_id = true ∧ r.pack_id ∉ s.cohort ∧
    r.kind ≠ .blob ∧ r.sha = x)

end GitEdge
