import GitEdge.Gc.Marking
import GitEdge.Gc.Unmoved
import GitEdge.Sql.Holding

/-!
# The walk of a mark without the barrier

A mark without the barrier walks from the roots that it found when it began, and hands off to the
build only if the refs have not moved since. `Walking` is what it keeps in its three tables: the
roots are reached, the links of what was walked are reached, what was seen is outside the cohort or
has its mark, and each bit that is set is that of an entry. `commit_ids` keeps it after each of its
statements, by the order in which it writes: the marks, then `gc_seen`, then the links, and last the
delete from the frontier.

All of this is about a chain whose refs have not moved. Once the version has moved the walk may find
anything, but it then never hands off.
-/

namespace GitEdge

open Sql Reach

variable {w : World} {s t : Db} {x : Oid} {ids : List Oid}

/-! ## The invariant -/

/-- A garbage collection walks: it has begun, and is not past its mark. -/
structure Db.InMark (s : Db) : Prop where
  mode : s.gc.mode = none
  started : s.gc.started_at.isSome = true
  chain : s.gc.chain.isSome = true
  phase : s.gc.phase = none

/-- The refs are as they were when the chain began. -/
def Db.Unmoved (s : Db) : Prop := s.gc.refs_version = some s.refs_version

/-- Each mark is that of an entry of its pack. -/
def Db.MarksEntries (s : Db) : Prop :=
  ∀ m ∈ s.marked, ∀ i, Bits.get m.bitmap i = true → ∃ r ∈ s.objects, r.pack_id = m.pack_id ∧
    r.idx = i

/-- The invariant of the walk. -/
structure Walking (w : World) (s : Db) : Prop where
  live : s.CohortLive
  roots : ∀ x ∈ s.rootIds, s.Reached x
  young : ∀ r ∈ s.objects, s.packLive r.pack_id = true → r.pack_id ∉ s.cohort → r.kind ≠ .blob →
    s.Reached r.sha
  links : ∀ x y, s.gc_seen.has x = true → s.gc_frontier.has x = false → s.Live x → w.objs.Link x y →
    s.Reached y
  kept : ∀ x, s.gc_seen.has x = true → s.Live x → s.Outside x ∨ s.MarkedIn x
  bits : s.MarksEntries

/-- What a mark that is done leaves: everything that is reached through live objects from a root is
outside the cohort or has its mark. -/
structure MarkDone (w : World) (s : Db) : Prop where
  live : s.CohortLive
  kept : ∀ x, From (LiveLink w s) s.Root x → s.Outside x ∨ s.MarkedIn x
  bits : s.MarksEntries

/-- A walk with nothing left in its frontier is done. -/
theorem Walking.complete (h : Walking w s) (hempty : ∀ x, s.gc_frontier.has x = false) :
    MarkDone w s where
  live := h.live
  bits := h.bits
  kept x hx := by
    have hseen : ∀ y, s.Reached y → s.gc_seen.has y = true := by
      intro y hy
      exact hy.resolve_left (by simp [hempty y])
    -- By induction along the links: what is reached from a root is live and was seen.
    have hwalked : s.gc_seen.has x = true ∧ s.Live x := by
      refine From.induction (P := fun y => s.gc_seen.has y = true ∧ s.Live y) hx (fun a ha => ?_)
        fun a b ha hab => ?_
      · obtain ⟨hl, ha | ⟨r, hr, hrl, hc, hk, rfl⟩⟩ := ha
        · exact ⟨hseen a (h.roots a ha), hl⟩
        · exact ⟨hseen _ (h.young r hr hrl hc hk), hl⟩
      · exact ⟨hseen b (h.links a b ha.1 (hempty a) ha.2 hab.1), hab.2⟩
    exact h.kept x hwalked.1 hwalked.2

/-! ## What the others leave -/

section Beside

variable (hr : Rely w s t) (hs : Still s t) (hv : t.refs_version = s.refs_version)
include hr hs hv

/-- While the version stands still, the rows of live packs do. -/
theorem Rely.row_unmoved {r : ObjRow} (hmem : r ∈ t.objects) (hl : t.packLive r.pack_id = true) :
    r ∈ s.objects ∧ s.packLive r.pack_id = true := by
  have hl' := hs.live hv r.pack_id hl
  exact ⟨(hr.rows r (.inl hl')).mp hmem, hl'⟩

theorem Rely.live_unmoved (hx : t.Live x) : s.Live x := by
  obtain ⟨r, hmem, hrx, hl⟩ := hx
  obtain ⟨hmem', hl'⟩ := hr.row_unmoved hs hv hmem hl
  exact ⟨r, hmem', hrx, hl'⟩

omit hs hv in
theorem Rely.marksEntries (h : s.MarksEntries) : t.MarksEntries := by
  intro m hm i hi
  rw [hr.marked] at hm
  obtain ⟨r, hmem, hrm, hri⟩ := h m hm i hi
  have hcohort : r.pack_id ∈ s.cohort := hrm ▸ List.mem_map.mpr ⟨m, hm, rfl⟩
  exact ⟨r, (hr.rows r (.inr (.inl hcohort))).mpr hmem, hrm, hri⟩

theorem Walking.beside (h : Walking w s) : Walking w t where
  live := hr.cohortLive.mpr h.live
  roots x hx := hr.reached (h.roots x (hs.roots hv x hx))
  young r hmem hl hc hk := by
    obtain ⟨hmem', hl'⟩ := hr.row_unmoved hs hv hmem hl
    rw [hr.cohort] at hc
    exact hr.reached (h.young r hmem' hl' hc hk)
  links x y hx hf hl hxy := by
    rw [hr.seen] at hx
    rw [hs.frontier] at hf
    exact hr.reached (h.links x y hx hf (hr.live_unmoved hs hv hl) hxy)
  kept x hx hl := by
    rw [hr.seen] at hx
    exact (h.kept x hx (hr.live_unmoved hs hv hl)).imp hr.outside hr.markedIn
  bits := hr.marksEntries h.bits

theorem MarkDone.beside (h : MarkDone w s) : MarkDone w t where
  live := hr.cohortLive.mpr h.live
  bits := hr.marksEntries h.bits
  kept x hx := by
    have hx' : From (LiveLink w s) s.Root x := by
      refine From.mono hx (fun a ha => ?_) fun a b hab => ⟨hab.1, hr.live_unmoved hs hv hab.2⟩
      obtain ⟨hl, ha | ⟨r, hmem, hrl, hc, hk, hra⟩⟩ := ha
      · exact ⟨hr.live_unmoved hs hv hl, .inl (hs.roots hv a ha)⟩
      · obtain ⟨hmem', hl'⟩ := hr.row_unmoved hs hv hmem hrl
        rw [hr.cohort] at hc
        exact ⟨hr.live_unmoved hs hv hl, .inr ⟨r, hmem', hl', hc, hk, hra⟩⟩
    exact (h.kept x hx').imp hr.outside hr.markedIn

end Beside

/-! ## What the statements of the walk leave -/

/-- What a statement of the walk leaves: the packs, the rows and the roots are as they were, the
marks grow, and what was reached stays reached. -/
structure Advances (s t : Db) : Prop where
  gc : t.gc = s.gc
  version : t.refs_version = s.refs_version
  packs : t.packs = s.packs
  objects : t.objects = s.objects
  refs : t.refs = s.refs
  pins : t.pins = s.pins
  pending : t.gc_pending = s.gc_pending
  seq : t.pending_seq = s.pending_seq
  cohort : t.cohort = s.cohort
  marks : ∀ m ∈ s.marked, ∃ m' ∈ t.marked, m'.pack_id = m.pack_id ∧
    ∀ i, Bits.get m.bitmap i = true → Bits.get m'.bitmap i = true
  reached : ∀ x, s.Reached x → t.Reached x

namespace Advances

variable {u : Db}

protected theorem refl (s : Db) : Advances s s :=
  ⟨rfl, rfl, rfl, rfl, rfl, rfl, rfl, rfl, rfl, fun m hm => ⟨m, hm, rfl, fun _ h => h⟩,
    fun _ h => h⟩

protected theorem trans (h : Advances s t) (h' : Advances t u) : Advances s u where
  gc := h'.gc.trans h.gc
  version := h'.version.trans h.version
  packs := h'.packs.trans h.packs
  objects := h'.objects.trans h.objects
  refs := h'.refs.trans h.refs
  pins := h'.pins.trans h.pins
  pending := h'.pending.trans h.pending
  seq := h'.seq.trans h.seq
  cohort := h'.cohort.trans h.cohort
  marks m hm := by
    obtain ⟨m', hm', hid, hbits⟩ := h.marks m hm
    obtain ⟨m'', hm'', hid', hbits'⟩ := h'.marks m' hm'
    exact ⟨m'', hm'', hid'.trans hid, fun i hi => hbits' i (hbits i hi)⟩
  reached x hx := h'.reached x (h.reached x hx)

/-- A statement that leaves the tables of the chain alone. -/
theorem rest (s u : Db) : Advances s (s.restOf u) :=
  ⟨rfl, rfl, rfl, rfl, rfl, rfl, rfl, rfl, rfl, fun m hm => ⟨m, hm, rfl, fun _ h => h⟩,
    fun _ h => h⟩

/-- A statement that writes only the frontier and what has been seen. -/
theorem of_walk {frontier : Table FrontierRow FrontierRow.sha} {seen : Table Oid id}
    (hreached : ∀ x, s.Reached x →
      Db.Reached { s with gc_frontier := frontier, gc_seen := seen } x) :
    Advances s { s with gc_frontier := frontier, gc_seen := seen } :=
  ⟨rfl, rfl, rfl, rfl, rfl, rfl, rfl, rfl, rfl, fun m hm => ⟨m, hm, rfl, fun _ h => h⟩, hreached⟩

theorem packLive (h : Advances s t) (p : PackId) : t.packLive p = s.packLive p := by
  rw [Db.packLive, h.packs, Db.packLive]

theorem live_iff (h : Advances s t) : t.Live x ↔ s.Live x := by
  unfold Db.Live
  simp only [h.objects, h.packLive]

theorem rootIds (h : Advances s t) : t.rootIds = s.rootIds := by
  rw [Db.rootIds, h.refs, h.pins, Db.rootIds]

theorem unmoved_iff (h : Advances s t) : t.Unmoved ↔ s.Unmoved := by
  rw [Db.Unmoved, h.gc, h.version, Db.Unmoved]

theorem inMark (h : Advances s t) (hs : s.InMark) : t.InMark :=
  ⟨h.gc ▸ hs.mode, h.gc ▸ hs.started, h.gc ▸ hs.chain, h.gc ▸ hs.phase⟩

theorem outside (h : Advances s t) (hx : s.Outside x) : t.Outside x := by
  obtain ⟨r, hr, hrx, hl, hc⟩ := hx
  refine ⟨r, h.objects ▸ hr, hrx, ?_, ?_⟩
  · rw [h.packLive]
    exact hl
  · rw [h.cohort]
    exact hc

theorem markedIn (h : Advances s t) (hx : s.MarkedIn x) : t.MarkedIn x := by
  obtain ⟨m, hm, hl, r, hr, hrm, hrx, hbit⟩ := hx
  obtain ⟨m', hm', hid, hbits⟩ := h.marks m hm
  refine ⟨m', hm', ?_, r, h.objects ▸ hr, hrm.trans hid.symm, hrx, hbits _ hbit⟩
  rw [h.packLive, hid]
  exact hl

theorem cohortLive (h : Advances s t) (hs : s.CohortLive) : t.CohortLive := by
  intro p hp
  rw [h.cohort] at hp
  rw [h.packLive]
  exact hs p hp

/-- What a statement must leave besides, for the walk to go on. -/
theorem walking (h : Advances s t) (hs : Walking w s)
    (hlinks : ∀ x, t.gc_seen.has x = true → t.gc_frontier.has x = false →
      (s.gc_seen.has x = true ∧ s.gc_frontier.has x = false) ∨
        (s.Live x → ∀ y, w.objs.Link x y → t.Reached y))
    (hkept : ∀ x, t.gc_seen.has x = true → s.Live x →
      s.gc_seen.has x = true ∨ s.Outside x ∨ s.MarkedIn x) (hbits : t.MarksEntries) :
    Walking w t where
  live := h.cohortLive hs.live
  roots x hx := h.reached x (hs.roots x (h.rootIds ▸ hx))
  young r hr hl hc hk := by
    rw [h.objects] at hr
    rw [h.packLive] at hl
    rw [h.cohort] at hc
    exact h.reached _ (hs.young r hr hl hc hk)
  links x y hx hf hl hxy := by
    rw [h.live_iff] at hl
    rcases hlinks x hx hf with ⟨hsx, hsf⟩ | hy
    · exact h.reached y (hs.links x y hsx hsf hl hxy)
    · exact hy hl y hxy
  kept x hx hl := by
    rw [h.live_iff] at hl
    have hkeep : s.Outside x ∨ s.MarkedIn x := (hkept x hx hl).elim (fun hsx => hs.kept x hsx hl) id
    exact hkeep.imp h.outside h.markedIn
  bits := hbits

end Advances

/-- The bitmaps in memory are those of cohort packs, and their bits are those of entries. -/
def Db.BitsOk (s : Db) (bits : Touched) : Prop :=
  ∀ p b, (p, b) ∈ bits → p ∈ s.cohort ∧
    ∀ i, Bits.get b i = true → ∃ r ∈ s.objects, r.pack_id = p ∧ r.idx = i

theorem cohort_flushBitmap (p : PackId × List Bool) (s : Db) :
    (flushBitmap p s).cohort = s.cohort := by
  show (s.marked.rows.map _).map _ = s.marked.rows.map _
  rw [List.map_map]
  refine List.map_congr_left fun m _ => ?_
  by_cases hp : m.pack_id = p.1 <;> simp [hp]

/-- A row of the bitmaps after one was written back. -/
theorem mem_flushBitmap {p : PackId × List Bool} {m : MarkedRow} :
    m ∈ (flushBitmap p s).marked ↔
      ∃ m' ∈ s.marked,
      (if m'.pack_id = p.1 then { m' with bitmap := Bits.or p.2 m'.bitmap } else m') = m := by
  unfold flushBitmap
  dsimp only
  rw [Table.mem_updateWhere]
  simp only [decide_eq_true_eq]

theorem advances_flushBitmap (p : PackId × List Bool) (s : Db) : Advances s (flushBitmap p s) where
  gc := rfl
  version := rfl
  packs := rfl
  objects := rfl
  refs := rfl
  pins := rfl
  pending := rfl
  seq := rfl
  cohort := cohort_flushBitmap p s
  marks m hm := by
    refine ⟨_, mem_flushBitmap.mpr ⟨m, hm, rfl⟩, ?_⟩
    split_ifs
    · refine ⟨rfl, fun i hi => ?_⟩
      rw [Bits.get_or, hi, Bool.or_true]
    · exact ⟨rfl, fun _ hi => hi⟩
  reached _ hx := hx

/-- A bitmap that is written back adds marks of entries. -/
theorem Walking.flush (h : Walking w s) {p : PackId × List Bool}
    (hp : ∀ i, Bits.get p.2 i = true → ∃ r ∈ s.objects, r.pack_id = p.1 ∧ r.idx = i) :
    Walking w (flushBitmap p s) := by
  refine (advances_flushBitmap p s).walking h (fun x hx hf => .inl ⟨hx, hf⟩) (fun x hx _ => .inl hx)
    fun m hm i hi => ?_
  obtain ⟨m', hm', rfl⟩ := mem_flushBitmap.mp hm
  split_ifs at hi ⊢ with hpack
  · rw [Bits.get_or, Bool.or_eq_true] at hi
    show ∃ r ∈ s.objects, r.pack_id = m'.pack_id ∧ r.idx = i
    rcases hi with hi | hi
    · rw [hpack]
      exact hp i hi
    · exact h.bits m' hm' i hi
  · exact h.bits m' hm' i hi

theorem has_recordSeen (ids : List Oid) (s : Db) (x : Oid) :
    (recordSeen ids s).gc_seen.has x = (s.gc_seen.has x || decide (x ∈ ids)) := by
  unfold recordSeen
  have h : (ids.foldl (fun t x => t.insertIgnore (id x)) s.gc_seen).has x =
      (s.gc_seen.has x || ids.any fun y => id (id y) = x) :=
    Table.has_foldl_insertIgnore ids id s.gc_seen x
  have hany : (ids.any fun y => id (id y) = x) = decide (x ∈ ids) := by
    rw [Bool.eq_iff_iff, List.any_eq_true, decide_eq_true_eq]
    constructor
    · rintro ⟨y, hy, hyx⟩
      rw [decide_eq_true_eq] at hyx
      exact hyx ▸ hy
    · exact fun hx => ⟨x, hx, decide_eq_true rfl⟩
  calc (ids.foldl (fun t x => t.insertIgnore x) s.gc_seen).has x
      = (s.gc_seen.has x || ids.any fun y => id (id y) = x) := h
    _ = (s.gc_seen.has x || decide (x ∈ ids)) := by rw [hany]

theorem advances_recordSeen (ids : List Oid) (s : Db) : Advances s (recordSeen ids s) :=
  .of_walk fun x hx => hx.imp id fun hx => by
    have hseen := has_recordSeen ids s x
    rwa [hx, Bool.true_or] at hseen

/-- What is seen is still in the frontier or was seen before, and is outside the cohort or has its
mark. -/
theorem Walking.recordSeen (h : Walking w s) (hreach : ∀ x ∈ ids, s.Reached x)
    (hkept : ∀ x ∈ ids, s.Live x → s.Outside x ∨ s.MarkedIn x) : Walking w (recordSeen ids s) := by
  refine (advances_recordSeen ids s).walking h (fun x hx hf => .inl ⟨?_, hf⟩)
    (fun x hx hl => ?_) h.bits
  · rw [has_recordSeen, Bool.or_eq_true, decide_eq_true_eq] at hx
    have hf : s.gc_frontier.has x = false := hf
    exact hx.elim id fun hx => (hreach x hx).resolve_left (by simp [hf])
  · rw [has_recordSeen, Bool.or_eq_true, decide_eq_true_eq] at hx
    exact hx.imp id fun hx => hkept x hx hl

theorem advances_admitKids (kids : List Oid) (gen : ℕ) (barrier : Bool) (s : Db) :
    Advances s (admitKids kids gen barrier s) := by
  refine .of_walk fun x hx => hx.imp (fun hx => ?_) id
  have hkept := has_admitKids kids gen barrier s x
  rwa [hx, Bool.true_or] at hkept

/-- What is admitted is reached. -/
theorem reached_admitKids {kids : List Oid} (gen : ℕ) (barrier : Bool) (s : Db) (hx : x ∈ kids) :
    (admitKids kids gen barrier s).Reached x := by
  by_cases hs : s.gc_seen.has x = true
  · exact .inr hs
  · refine .inl ?_
    rw [has_admitKids]
    simp [hx, hs]

theorem Walking.admitKids (h : Walking w s) (kids : List Oid) (gen : ℕ) (barrier : Bool) :
    Walking w (admitKids kids gen barrier s) := by
  refine (advances_admitKids kids gen barrier s).walking h (fun x hx hf => .inl ⟨hx, ?_⟩)
    (fun x hx _ => .inl hx) h.bits
  rw [has_admitKids, Bool.or_eq_false_iff] at hf
  exact hf.1

theorem has_dropFrontier (ids : List Oid) (s : Db) (x : Oid) :
    (dropFrontier ids s).gc_frontier.has x = (s.gc_frontier.has x && !decide (x ∈ ids)) :=
  Table.has_deleteWhere_key s.gc_frontier (fun x => decide (x ∈ ids)) x

theorem advances_dropFrontier (hseen : ∀ x ∈ ids, s.gc_seen.has x = true) :
    Advances s (dropFrontier ids s) := by
  refine .of_walk fun x hx => ?_
  by_cases hmem : x ∈ ids
  · exact .inr (hseen x hmem)
  · refine hx.imp (fun hx => ?_) id
    have hkept := has_dropFrontier ids s x
    rw [hx, Bool.true_and, decide_eq_false hmem, Bool.not_false] at hkept
    exact hkept

/-- What leaves the frontier was seen, and its links are reached. -/
theorem Walking.dropFrontier (h : Walking w s) (hseen : ∀ x ∈ ids, s.gc_seen.has x = true)
    (hlinks : ∀ x ∈ ids, s.Live x → ∀ y, w.objs.Link x y → s.Reached y) :
    Walking w (dropFrontier ids s) := by
  have hadv := advances_dropFrontier hseen
  refine hadv.walking h (fun x hx hf => ?_) (fun x hx _ => .inl hx) h.bits
  by_cases hmem : x ∈ ids
  · exact .inr fun hl y hxy => hadv.reached y (hlinks x hmem hl y hxy)
  · refine .inl ⟨hx, ?_⟩
    rw [has_dropFrontier] at hf
    simpa [hmem] using hf

/-- The heartbeat of a fence leaves the tables of the chain alone. -/
theorem holds_phaseFence {I : Db → Prop} (hs : I s) (hrest : ∀ u, I (s.restOf u)) (job : GcJob)
    (now : ℤ) (chain : Option ChainId) (want : Option GcPhase) :
    (phaseFence job now chain want).Holds I s fun _ t => ∃ u, t = s.restOf u := by
  unfold phaseFence heartbeat
  rw [Span.holds_read_bind]
  split_ifs
  · exact Span.holds_pure hs ⟨s, rfl⟩
  · have htouch : I (touchLease job.id job.lease now s) :=
      hrest (touchLease job.id job.lease now s)
    rw [Span.bind_assoc, Span.holds_read_bind, Span.bind_assoc]
    refine Span.holds_exec_bind htouch ?_
    split_ifs
    · exact Span.holds_pure htouch ⟨touchLease job.id job.lease now s, rfl⟩
    · exact (Span.holds_fail htouch).bind fun _ _ _ hP => hP

end GitEdge
