import GitEdge.Gc.Walking

/-!
# The mark is complete when it hands off

Slices of `gc_mark` without the barrier, each killed at any suspension point or stopped after any
statement, beside the others. `MarkInv` is the invariant of the run: while a chain walks and its
refs have not moved, its tables are as `Walking` says, or there is nothing left to walk; and once it
has handed off, everything that can be reached is outside the cohort or has its mark.

A slice finds out more than it has written: the rows that it picked for its batch, and the bits that
it has set in memory. `Planned` says what of this is true, and others cannot make it false while the
version stands still.
-/

namespace GitEdge

open Sql Reach

variable {s t : Db} {w : World} {cand : List PackId} {r : ObjRow} {bits bits' : Touched}
  {rows : List ObjRow} {ids : List Oid}

/-! ## The invariant of a run -/

/-- What holds of the packs and their rows in every state of a run without the barrier. -/
structure Sane (w : World) (s : Db) : Prop where
  tidy : s.Tidy
  rowsOk : s.RowsOk w.objs
  counted : ∀ p, s.packLive p = true → s.Counted p
  barrier : s.barrierActive = false

/-- A garbage collection has begun. -/
def Db.Collecting (s : Db) : Prop :=
  s.gc.mode = none ∧ (s.gc.started_at.isSome = true ∨ s.gc.phase.isSome = true)

/-- A garbage collection has handed off to the build. -/
def Db.HandedOff (s : Db) : Prop := s.gc.mode = none ∧ s.gc.phase = some .build

theorem Db.InMark.collecting (h : s.InMark) : s.Collecting := ⟨h.mode, .inl h.started⟩

theorem Db.HandedOff.collecting (h : s.HandedOff) : s.Collecting :=
  ⟨h.1, .inr (by rw [h.2]; rfl)⟩

/-- The invariant of a run. -/
structure MarkInv (w : World) (s : Db) : Prop where
  sane : Sane w s
  version : s.Collecting → ∀ v, s.gc.refs_version = some v → v ≤ s.refs_version
  /-- The walk goes on, or there is nothing left to walk and `gc_seen` may be gone. -/
  walk : s.InMark → s.Unmoved → Walking w s ∨ (MarkDone w s ∧ ∀ x, s.gc_frontier.has x = false)
  done : s.HandedOff → s.Unmoved → MarkDone w s

/-- What the others do. -/
def Leaves (w : World) (s t : Db) : Prop := Rely w s t ∧ Still s t

section Beside

theorem Sane.beside (h : Sane w s) (hr : Rely w s t) : Sane w t where
  tidy := hr.tidy h.tidy
  rowsOk := hr.rowsOk h.rowsOk
  counted p hp := by
    by_cases hs : s.packLive p = true
    · exact hr.counted hs (h.counted p hs)
    · exact (hr.newLive p hp (by simpa using hs)).2.2.2.1
  barrier := hr.barrier.trans h.barrier

/-- If the refs have not moved now, they had not before. -/
theorem MarkInv.unmoved_before (h : MarkInv w s) (hl : Leaves w s t) (hc : s.Collecting)
    (hu : t.Unmoved) : s.Unmoved ∧ t.refs_version = s.refs_version := by
  have hgc : s.gc.refs_version = some t.refs_version := by
    rw [← hl.1.gc]
    exact hu
  have hle := h.version hc _ hgc
  have heq : t.refs_version = s.refs_version := Int.le_antisymm hle hl.2.version
  exact ⟨by rw [Db.Unmoved, hgc, heq], heq⟩

theorem MarkInv.beside (h : MarkInv w s) (hl : Leaves w s t) : MarkInv w t where
  sane := h.sane.beside hl.1
  version hc v hv := by
    rw [Db.Collecting, hl.1.gc] at hc
    rw [hl.1.gc] at hv
    exact Int.le_trans (h.version hc v hv) hl.2.version
  walk hm hu := by
    have hm : s.InMark :=
      ⟨hl.1.gc ▸ hm.mode, hl.1.gc ▸ hm.started, hl.1.gc ▸ hm.chain, hl.1.gc ▸ hm.phase⟩
    obtain ⟨hu', hv⟩ := h.unmoved_before hl hm.collecting hu
    refine (h.walk hm hu').imp (Walking.beside hl.1 hl.2 hv) fun hf => ?_
    refine ⟨MarkDone.beside hl.1 hl.2 hv hf.1, fun x => ?_⟩
    rw [hl.2.frontier]
    exact hf.2 x
  done hd hu := by
    rw [Db.HandedOff, hl.1.gc] at hd
    obtain ⟨hu', hv⟩ := h.unmoved_before hl (Db.HandedOff.collecting hd) hu
    exact MarkDone.beside hl.1 hl.2 hv (h.done hd hu')

end Beside

/-! ## Statements that say nothing about the walk -/

section Aside

/-- A chain that has not begun owes nothing. -/
theorem MarkInv.of_unstarted (h : Sane w s) (hstart : s.gc.started_at = none)
    (hphase : s.gc.phase = none) :
    MarkInv w s where
  sane := h
  version hc := by
    rw [Db.Collecting, hstart, hphase] at hc
    simp at hc
  walk hm := absurd hm.started (by simp [hstart])
  done hd := absurd hd.2 (by simp [hphase])

theorem Sane.rest (h : Sane w s) (u : Db) : Sane w (s.restOf u) :=
  ⟨h.tidy.congr rfl rfl rfl rfl rfl, h.rowsOk, h.counted, h.barrier⟩

theorem MarkInv.rest (h : MarkInv w s) (u : Db) : MarkInv w (s.restOf u) :=
  ⟨h.sane.rest u, h.version, fun hm hu => (h.walk ⟨hm.mode, hm.started, hm.chain, hm.phase⟩ hu).imp
    (fun hw => ⟨hw.live, hw.roots, hw.young, hw.links, hw.kept, hw.bits⟩)
    fun hf => ⟨⟨hf.1.live, hf.1.kept, hf.1.bits⟩, hf.2⟩,
    fun hd hu => ⟨(h.done hd hu).live, (h.done hd hu).kept, (h.done hd hu).bits⟩⟩

/-- A statement that leaves the tables of the chain alone. -/
theorem MarkInv.then_rest (h : MarkInv w s) (ht : t = s.restOf t) : MarkInv w t := by
  rw [ht]
  exact h.rest t

theorem MarkInv.enqueue (h : MarkInv w s) (kind : JobKind) (run_at : ℤ) (payload : Payload) :
    MarkInv w (enqueue kind run_at payload s) := by
  obtain ⟨jobs, seq, heq⟩ := enqueue_eq kind run_at payload s
  rw [heq]
  exact h.rest { s with jobs := jobs, job_seq := seq }

/-- What a change must leave for the packs and rows: pack rows only die, rows only go, and the
cohort is of packs that were there or are live. -/
theorem Sane.step (h : Sane w s)
    (hpacks : ∀ p row, t.packs.find p = some row → ∃ row', s.packs.find p = some row' ∧
      row.push_id = row'.push_id ∧ row.count = row'.count ∧
      (row.state = row'.state ∨ row.state = .dead)) (hobjects : ∀ r ∈ t.objects, r ∈ s.objects)
    (hmarked : ∀ m ∈ t.marked, m.pack_id ∈ s.cohort) (hgc : t.gc = s.gc ∨ t.gc = .none)
    (hpending : t.gc_pending = s.gc_pending ∨ t.gc_pending = .empty)
    (hseq : t.pending_seq = s.pending_seq) : Sane w t where
  tidy := by
    refine h.tidy.step (fun p row hrow => ?_) (fun m hm => ?_) (fun n hn => ?_) hpending hseq
    · obtain ⟨row', hrow', hpush, -, hst⟩ := hpacks p row hrow
      refine ⟨row', hrow', hpush, fun hing => ?_⟩
      rw [hing] at hst
      exact (hst.resolve_right (by simp)).symm
    · obtain ⟨m', hm', hid⟩ := List.mem_map.mp (hmarked m hm)
      exact ⟨m', hm', hid⟩
    · rcases hgc with hgc | hgc
      · exact hgc ▸ hn
      · rw [hgc] at hn
        cases hn
  rowsOk r hr := h.rowsOk r (hobjects r hr)
  counted p hp row hrow r hr hrp := by
    obtain ⟨row', hrow', -, hcount, hst⟩ := hpacks p row hrow
    obtain ⟨row'', hrow'', hlive⟩ := packLive_iff.mp hp
    rw [hrow] at hrow''
    cases hrow''
    rw [hlive] at hst
    have hlive' : s.packLive p = true :=
      packLive_iff.mpr ⟨row', hrow', (hst.resolve_right (by simp)).symm⟩
    rw [hcount]
    exact h.counted p hlive' row' hrow' r (hobjects r hr) hrp
  barrier := by
    rcases hgc with hgc | hgc
    · rw [barrierActive_congr hgc]
      exact h.barrier
    · rw [Db.barrierActive, hgc]
      rfl

/-- The chain of `v` is being dropped: it owes nothing. -/
structure Ending (w : World) (v t : Db) : Prop where
  sane : Sane w t
  gc : t.gc = v.gc ∨ t.gc = .none
  version : t.refs_version = v.refs_version

/-- The chain owes nothing: it is not begun, or its refs have moved. -/
def Db.Idle (v : Db) : Prop := (v.InMark → ¬ v.Unmoved) ∧ (v.HandedOff → ¬ v.Unmoved)

theorem Ending.inv {v : Db} (h : Ending w v t) (hv : MarkInv w v) (hidle : v.Idle) :
    MarkInv w t := by
  rcases h.gc with hgc | hgc
  · refine ⟨h.sane, fun hc u hu => ?_, fun hm hu => ?_, fun hd hu => ?_⟩
    · rw [Db.Collecting, hgc] at hc
      rw [hgc] at hu
      rw [h.version]
      exact hv.version hc u hu
    · have hm : v.InMark := ⟨hgc ▸ hm.mode, hgc ▸ hm.started, hgc ▸ hm.chain, hgc ▸ hm.phase⟩
      rw [Db.Unmoved, hgc, h.version] at hu
      exact absurd hu (hidle.1 hm)
    · rw [Db.HandedOff, hgc] at hd
      rw [Db.Unmoved, hgc, h.version] at hu
      exact absurd hu (hidle.2 hd)
  · exact .of_unstarted h.sane (by rw [hgc]; rfl) (by rw [hgc]; rfl)

section Wipe

variable {v : Db}

theorem Db.mem_cohort {m : MarkedRow} (hm : m ∈ s.marked) : m.pack_id ∈ s.cohort :=
  List.mem_map.mpr ⟨m, hm, rfl⟩

/-- A statement that empties a table of the chain. -/
structure Wiped (s t : Db) : Prop where
  packs : t.packs = s.packs
  objects : t.objects = s.objects
  epoch : t.gc_epoch = s.gc_epoch
  version : t.refs_version = s.refs_version
  gc : t.gc = s.gc ∨ t.gc = .none
  marked : ∀ m ∈ t.marked, m ∈ s.marked
  pending : t.gc_pending = s.gc_pending ∨ t.gc_pending = .empty
  seq : t.pending_seq = s.pending_seq

theorem keeps_wipeScratch {I : Db → Prop} (hI : ∀ s t, Wiped s t → I s → I t) :
    Span.Keeps I wipeScratch := by
  refine .bind (.exec fun s h => hI s _ ?_ h) fun _ => .bind (.exec fun s h => hI s _ ?_ h) fun _ =>
    .bind (.exec fun s h => hI s _ ?_ h) fun _ => .bind (.exec fun s h => hI s _ ?_ h) fun _ =>
    .bind (.exec fun s h => hI s _ ?_ h) fun _ => .exec fun s h => hI s _ ?_ h
  · exact ⟨rfl, rfl, rfl, rfl, .inl rfl, fun m hm => absurd hm (Table.not_mem_empty m), .inl rfl,
      rfl⟩
  on_goal 5 => exact ⟨rfl, rfl, rfl, rfl, .inl rfl, fun _ hm => hm, .inr rfl, rfl⟩
  all_goals exact ⟨rfl, rfl, rfl, rfl, .inl rfl, fun _ hm => hm, .inl rfl, rfl⟩

theorem keeps_ending_wipeScratch : Span.Keeps (Ending w v) wipeScratch := by
  refine keeps_wipeScratch fun s t hw h => ⟨?_, ?_, hw.version.trans h.version⟩
  · exact h.sane.step (fun p row hrow => ⟨row, hw.packs ▸ hrow, rfl, rfl, .inl rfl⟩)
      (fun r hr => hw.objects ▸ hr) (fun m hm => Db.mem_cohort (hw.marked m hm)) hw.gc hw.pending
      hw.seq
  · rcases hw.gc with hgc | hgc
    · exact hgc ▸ h.gc
    · exact .inr hgc

/-- The rows of some packs go. -/
theorem Ending.deleteRows (h : Ending w v s) (q : ObjRow → Bool) :
    Ending w v { s with objects := s.objects.deleteWhere q } :=
  ⟨h.sane.step (fun _ row hrow => ⟨row, hrow, rfl, rfl, .inl rfl⟩)
    (fun _ hr => (Table.mem_deleteWhere.mp hr).1) (fun _ => Db.mem_cohort) (.inl rfl)
    (.inl rfl) rfl, h.gc, h.version⟩

theorem Ending.killPacks (h : Ending w v s) (q : PackRow → Bool) (now : ℤ) :
    Ending w v (GitEdge.killPacks q now s) := by
  refine ⟨h.sane.step (fun p row hrow => ?_) (fun r hr => hr) (fun _ => Db.mem_cohort) (.inl rfl)
    (.inl rfl) rfl, h.gc, h.version⟩
  rw [GitEdge.killPacks, Table.find_updateWhere, Option.map_eq_some_iff] at hrow
  obtain ⟨row', hrow', rfl⟩ := hrow
  refine ⟨row', hrow', ?_⟩
  split_ifs
  · exact ⟨rfl, rfl, .inr rfl⟩
  · exact ⟨rfl, rfl, .inl rfl⟩

theorem keeps_ending_wipeRetired : Span.Keeps (Ending w v) wipeRetired := by
  refine .bind .read fun db => ?_
  cases db.gc.retire with
  | none => exact .pure ()
  | some it => exact .exec fun s h => h.deleteRows _

theorem keeps_ending_wipeNewPack (now : ℤ) : Span.Keeps (Ending w v) (wipeNewPack now) := by
  refine .bind .read fun db => ?_
  cases db.gc.new_pack with
  | none => exact .pure ()
  | some n =>
    dsimp only
    split_ifs
    · exact .exec fun s h => h.deleteRows _
    · exact .bind (.exec fun s h => h.deleteRows _) fun _ => .exec fun s h => h.killPacks _ now

/-- A chain that owes nothing may be dropped, and leaves no row of `gc.*`. -/
theorem holds_wipeAll (h : MarkInv w s) (hidle : s.Idle) (now : ℤ) :
    (wipeAll now).Holds (MarkInv w) s fun _ t => t.gc = .none := by
  have hend : Ending w s s := ⟨h.sane, .inl rfl, rfl⟩
  have hinv : ∀ t, Ending w s t → MarkInv w t := fun t ht => ht.inv h hidle
  refine Span.Holds.bind ((keeps_ending_wipeRetired.holds hend).weaken hinv) fun _ t₁ _ h₁ => ?_
  refine Span.Holds.bind (((keeps_ending_wipeNewPack now).holds h₁).weaken hinv) fun _ t₂ _ h₂ => ?_
  -- From here on there is no chain.
  have hsane : Sane w (clearGc t₂) :=
    h₂.sane.step (fun _ row hrow => ⟨row, hrow, rfl, rfl, .inl rfl⟩) (fun _ hr => hr)
      (fun _ => Db.mem_cohort) (.inr rfl) (.inl rfl) rfl
  have hnone : ∀ t, Ending w (clearGc t₂) t → t.gc = .none := fun t ht => ht.gc.elim id id
  have hinv' : ∀ t, Ending w (clearGc t₂) t → MarkInv w t := fun t ht =>
    .of_unstarted ht.sane (by rw [hnone t ht]; rfl) (by rw [hnone t ht]; rfl)
  have hcleared : Ending w (clearGc t₂) (clearGc t₂) := ⟨hsane, .inl rfl, rfl⟩
  refine Span.holds_exec_bind (hinv' _ hcleared) ?_
  exact ((keeps_ending_wipeScratch.holds hcleared).weaken hinv').mono fun _ t _ ht => hnone t ht

end Wipe

end Aside

/-! ## Inside a slice -/

/-- What a slice that walks knows of the state. -/
structure Inside (w : World) (cand : List PackId) (s : Db) : Prop where
  sane : Sane w s
  inMark : s.InMark
  version : ∀ v, s.gc.refs_version = some v → v ≤ s.refs_version
  cohort : s.cohort = cand
  walk : s.Unmoved → Walking w s

section Inside

theorem Inside.inv (h : Inside w cand s) : MarkInv w s where
  sane := h.sane
  version _ := h.version
  walk _ hu := .inl (h.walk hu)
  done hd := by
    have hphase := hd.2
    rw [h.inMark.phase] at hphase
    cases hphase

theorem Inside.beside (h : Inside w cand s) (hl : Leaves w s t) : Inside w cand t := by
  have hgc := hl.1.gc
  refine ⟨h.sane.beside hl.1, ?_, fun v hv => ?_, hl.1.cohort.trans h.cohort, fun hu => ?_⟩
  · exact ⟨hgc ▸ h.inMark.mode, hgc ▸ h.inMark.started, hgc ▸ h.inMark.chain, hgc ▸ h.inMark.phase⟩
  · rw [hgc] at hv
    exact Int.le_trans (h.version v hv) hl.2.version
  · obtain ⟨hu', hv⟩ := h.inv.unmoved_before hl h.inMark.collecting hu
    exact Walking.beside hl.1 hl.2 hv (h.walk hu')

theorem Advances.sane (h : Advances s t) (hs : Sane w s) : Sane w t := by
  refine hs.step (fun p row hrow => ⟨row, h.packs ▸ hrow, rfl, rfl, .inl rfl⟩)
    (fun r hr => h.objects ▸ hr)
    (fun m hm => ?_) (.inl h.gc) (.inl h.pending) h.seq
  rw [← h.cohort]
  exact Db.mem_cohort hm

/-- A statement of the walk that keeps its invariant. -/
theorem Inside.advances (h : Inside w cand s) (hadv : Advances s t)
    (hwalk : s.Unmoved → Walking w s → Walking w t) : Inside w cand t where
  sane := hadv.sane h.sane
  inMark := hadv.inMark h.inMark
  version v hv := by
    rw [hadv.gc] at hv
    rw [hadv.version]
    exact h.version v hv
  cohort := hadv.cohort.trans h.cohort
  walk hu := by
    have hu' := hadv.unmoved_iff.mp hu
    exact hwalk hu' (h.walk hu')

theorem Inside.rest (h : Inside w cand s) (u : Db) : Inside w cand (s.restOf u) :=
  h.advances (.rest s u) fun _ hw => ⟨hw.live, hw.roots, hw.young, hw.links, hw.kept, hw.bits⟩

end Inside

/-! ### The marks in memory -/

/-- The mark of the row is stored, or is set in memory; a row outside the cohort needs none. -/
def Db.Noted (s : Db) (bits : Touched) (r : ObjRow) : Prop :=
  r.pack_id ∈ s.cohort →
    (∃ m ∈ s.marked, m.pack_id = r.pack_id ∧ Bits.get m.bitmap r.idx = true) ∨
      ∃ b, bits.lookup r.pack_id = some b ∧ Bits.get b r.idx = true

/-- A live row whose mark is stored, or needs none. -/
theorem Db.Noted.kept (h : s.Noted [] r) (hr : r ∈ s.objects) (hl : s.packLive r.pack_id = true) :
    s.Outside r.sha ∨ s.MarkedIn r.sha := by
  by_cases hc : r.pack_id ∈ s.cohort
  · rcases h hc with ⟨m, hm, hid, hbit⟩ | ⟨b, hb, -⟩
    · exact .inr ⟨m, hm, hid ▸ hl, r, hr, hid.symm, rfl, hbit⟩
    · cases hb
  · exact .inl ⟨r, hr, rfl, hl, hc⟩

theorem Advances.noted (h : Advances s t) (hr : s.Noted bits r) : t.Noted bits r := by
  intro hc
  rw [h.cohort] at hc
  refine (hr hc).imp (fun ⟨m, hm, hid, hbit⟩ => ?_) id
  obtain ⟨m', hm', hid', hbits⟩ := h.marks m hm
  exact ⟨m', hm', hid'.trans hid, hbits _ hbit⟩

theorem Touched.mem_of_lookup {p : PackId} {b : List Bool} (h : bits.lookup p = some b) :
    (p, b) ∈ bits := by
  induction bits with
  | nil => cases h
  | cons e bits ih =>
    obtain ⟨k, c⟩ := e
    rw [List.lookup_cons] at h
    by_cases hk : p = k
    · subst hk
      simp only [beq_self_eq_true, Option.some.injEq] at h
      rw [h]
      exact List.mem_cons_self
    · rw [beq_eq_false_iff_ne.mpr hk] at h
      exact List.mem_cons_of_mem _ (ih h)

section MarkRows

/-- The bits of the bitmap that a row is marked in are those of entries. -/
theorem Db.BitsOk.bitmap (hb : s.BitsOk bits) (hm : s.MarksEntries) (p : PackId) {i : ℕ}
    (hi : Bits.get (bits.bitmap s p) i = true) : ∃ r ∈ s.objects, r.pack_id = p ∧ r.idx = i := by
  unfold Touched.bitmap at hi
  cases hlookup : bits.lookup p with
  | some b =>
    rw [hlookup] at hi
    exact (hb p b (Touched.mem_of_lookup hlookup)).2 i hi
  | none =>
    rw [hlookup] at hi
    cases hfind : s.marked.find p with
    | none =>
      rw [hfind] at hi
      simp [Bits.get] at hi
    | some m =>
      rw [hfind] at hi
      obtain ⟨hmem, hid⟩ := Table.find_eq_some.mp hfind
      obtain ⟨r, hr, hrm, hri⟩ := hm m hmem i hi
      exact ⟨r, hr, hrm.trans hid, hri⟩

end MarkRows

/-! ### What a slice knows of its batch -/

/-- What a slice knows of the ids of its batch, of the rows that it picked for them, and of the bits
that it has set in memory. -/
structure Planned (s : Db) (ids : List Oid) (rows : List ObjRow) (bits : Touched) : Prop where
  reached : ∀ x ∈ ids, s.Reached x
  found : ∀ x ∈ ids, s.Live x → ∃ r ∈ rows, r.sha = x
  shas : ∀ r ∈ rows, r.sha ∈ ids
  live : ∀ r ∈ rows, r ∈ s.objects ∧ s.packLive r.pack_id = true
  noted : ∀ r ∈ rows, s.Noted bits r
  bits : s.BitsOk bits

namespace Planned

theorem beside (h : Planned s ids rows bits) (hl : Leaves w s t)
    (hv : t.refs_version = s.refs_version) : Planned t ids rows bits where
  reached x hx := hl.1.reached (h.reached x hx)
  found x hx hlive := h.found x hx (hl.1.live_unmoved hl.2 hv hlive)
  shas := h.shas
  live r hr := by
    obtain ⟨hmem, hlive⟩ := h.live r hr
    exact ⟨(hl.1.rows r (.inl hlive)).mpr hmem, hl.1.live hlive⟩
  noted r hr := by
    intro hc
    rw [hl.1.cohort] at hc
    rw [hl.1.marked]
    exact h.noted r hr hc
  bits p b hp := by
    obtain ⟨hc, hrows⟩ := h.bits p b hp
    refine ⟨hl.1.cohort ▸ hc, fun i hi => ?_⟩
    obtain ⟨r, hr, hrp, hri⟩ := hrows i hi
    exact ⟨r, (hl.1.rows r (.inr (.inl (hrp ▸ hc)))).mpr hr, hrp, hri⟩

theorem advances (h : Planned s ids rows bits) (hadv : Advances s t)
    (hnoted : ∀ r, s.Noted bits r → t.Noted bits' r) (hbits : t.BitsOk bits') :
    Planned t ids rows bits' where
  reached x hx := hadv.reached x (h.reached x hx)
  found x hx hlive := h.found x hx (hadv.live_iff.mp hlive)
  shas := h.shas
  live r hr := by
    rw [hadv.objects, hadv.packLive]
    exact h.live r hr
  noted r hr := hnoted r (h.noted r hr)
  bits := hbits

end Planned

section Spans

end Spans

/-! ## Slices -/

section Slices

end Slices

/-! ## The start of a chain -/

section Start

theorem Sane.insertCohort (h : Sane w s) (cutoff : ℤ) (hempty : s.marked = .empty) :
    Sane w (insertCohort cutoff s) where
  tidy := by
    refine ⟨fun m hm row hrow hst => ?_, h.tidy.newPack, h.tidy.seqs, h.tidy.seqLe, h.tidy.cursor⟩
    obtain ⟨row', hrow', hlive⟩ := packLive_iff.mp (mem_insertCohort hempty hm).1
    have hrow : s.packs.find m.pack_id = some row := hrow
    rw [hrow'] at hrow
    cases hrow
    rw [hst] at hlive
    cases hlive
  rowsOk := h.rowsOk
  counted := h.counted
  barrier := h.barrier

end Start

/-! ## Runs -/

section Runs

/-- No garbage collection has begun; the rows describe their objects, and the entries of live packs
are numbered within their counts. -/
structure MarkStart (w : World) (s : Db) : Prop where
  idle : ¬ s.Collecting
  tidy : s.Tidy
  rowsOk : s.RowsOk w.objs
  counted : ∀ p, s.packLive p = true → s.Counted p

theorem MarkStart.inv (h : MarkStart w s) : MarkInv w s where
  sane := by
    refine ⟨h.tidy, h.rowsOk, h.counted, ?_⟩
    by_contra hb
    simp only [Db.barrierActive, Bool.not_eq_false, Bool.and_eq_true] at hb
    obtain ⟨⟨⟨-, hstart⟩, -⟩, hmode⟩ := hb
    refine h.idle ⟨?_, .inl hstart⟩
    cases hm : s.gc.mode with
    | none => rfl
    | some mode =>
      cases mode
      simp [hm] at hmode
  version hc := absurd hc h.idle
  walk hm := absurd hm.collecting h.idle
  done hd := absurd hd.collecting h.idle

end Runs

/-! ### A run -/

/-- A commit with a tree and a blob, and a tag of the blob. -/
def smallObjects : Objects where
  kind x := if x = 11 then .commit else if x = 12 then .tree else if x = 14 then .tag else .blob
  size _ := 1
  commit x := if x = 11 then some ⟨12, [], none⟩ else none
  tree x := if x = 12 then some [⟨.other, "a", 13⟩] else none
  tag x := if x = 14 then some ⟨.blob, 13⟩ else none

/-- Settings and libraries for the run. -/
def markWorld : World where
  env := .default fun _ => true
  objs := smallObjects
  pick := .first
  scan := id
  scan_perm _ := .refl _
  barrier := false

end GitEdge
