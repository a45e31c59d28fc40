import GitEdge.Gc.Build
import GitEdge.Jobs.ImportCommit

/-!
# What happens beside a chain

A slice of a chain runs alone among the jobs, but at each of its suspension points the routes and
the spans of the other jobs run: pushes and imports post rows and commit, the janitor drops packs,
refs are pinned. `Others` is one such step, each a synchronous span, and `Rely` is what a slice may
rely on: nobody else writes the tables of the chain, the rows of its packs or those of a live pack,
and under the barrier what is promoted or becomes a root is fed to the walk.

The steps assume what the code that posts rows and requests commits does: the rows describe the
objects that they name and are numbered within the pack, a new pack has a new id, and a push commits
its own pack.
-/

namespace GitEdge

open Sql

variable {s t : Db} {w : World} {p pack : PackId} {push : PushId} {row : PackRow} {x : Oid}

/-! ## Facts about rows -/

/-- A row describes the object that it names. -/
structure RowOk (objs : Objects) (r : ObjRow) : Prop where
  kind : r.kind = objs.kind r.sha
  size : r.size = objs.size r.sha
  len : 0 < r.len
  sha : r.sha ≠ 0

/-- All rows describe their objects. -/
def Db.RowsOk (objs : Objects) (s : Db) : Prop := ∀ r ∈ s.objects, RowOk objs r

/-- No row names the pack. -/
structure Db.FreshPack (s : Db) (p : PackId) : Prop where
  packs : ∀ r ∈ s.packs, r.id ≠ p
  objects : ∀ o ∈ s.objects, o.pack_id ≠ p
  marked : ∀ m ∈ s.marked, m.pack_id ≠ p
  pending : ∀ q ∈ s.gc_pending, q.pack_id ≠ p
  new_pack : s.gc.new_pack ≠ some p

/-- No two objects of the pack have one entry number. -/
def Db.Injective (s : Db) (p : PackId) : Prop :=
  ∀ r ∈ s.objects, ∀ r' ∈ s.objects, r.pack_id = p → r'.pack_id = p → r.idx = r'.idx → r = r'

/-- The entry numbers of the pack are below its count. -/
def Db.Counted (s : Db) (p : PackId) : Prop :=
  ∀ row, s.packs.find p = some row → ∀ r ∈ s.objects, r.pack_id = p → r.idx < row.count

/-- The pack may be committed: its entries are numbered within its count. -/
structure Db.Ready (s : Db) (p : PackId) : Prop where
  injective : s.Injective p
  counted : ∀ row, s.packs.find p = some row → row.state = .ingesting →
    ∀ r ∈ s.objects, r.pack_id = p → r.idx < row.count

/-- The pack, if there is a row of it, is the push's. -/
def Db.Owned (s : Db) (push : PushId) (p : PackId) : Prop :=
  ∀ row, s.packs.find p = some row → row.push_id = some push

/-- The pack is a push's, and not committed. -/
def Db.Ingesting (s : Db) (p : PackId) : Prop :=
  ∃ row, s.packs.find p = some row ∧ row.state = .ingesting ∧ row.push_id.isSome

/-! ## Steps -/

/-- What a route leaves. -/
def landing {α : Type} (x : Span Db Error α) (s : Db) : Db :=
  match (x.run s).res with
  | .error e => if e.undoes then s else (x.run s).state
  | .ok _ => (x.run s).state

/-- The tables that a chain does not read: queues, pushes, tokens, and the staging of imports. -/
def Db.restOf (s u : Db) : Db :=
  { u with
    head := s.head
    refs_version := s.refs_version
    gc_epoch := s.gc_epoch
    gc := s.gc
    refs := s.refs
    packs := s.packs
    objects := s.objects
    marked := s.marked
    gc_frontier := s.gc_frontier
    gc_seen := s.gc_seen
    gc_parts := s.gc_parts
    gc_tail := s.gc_tail
    gc_pending := s.gc_pending
    pending_seq := s.pending_seq
    pins := s.pins
    r2 := s.r2 }

/-- The upload that the cursor of a build names. -/
def Db.upload (s : Db) : Option ℕ := s.gc.pos.bind (·.upload)

/-- A step beside the slice of a chain. -/
inductive Others (w : World) (s : Db) : Db → Prop
  /-- `push_index`. -/
  | index (now : ℤ) (m : PackDto) (rows : List PostedRow) (hrows : ∀ r ∈ rows, RowOk w.objs r.row)
      (hnew : s.packs.has m.id = false → s.FreshPack m.id) :
      Others w s (landing (pushIndex now m rows) s)
  /-- `commit_push`. -/
  | commit (now : ℤ) (req : CommitRequest)
      (hpack : ∀ p, req.pack_id = some p → s.Owned req.push_id p ∧ s.Ready p) :
      Others w s (landing (commitPush w.env now req) s)
  /-- The pack row of an import that starts. -/
  | importPack (now : ℤ) (p : PackId) (push : PushId) (hnew : s.FreshPack p) :
      Others w s { s with
        packs := s.packs.insertIgnore ⟨p, .ingesting, 0, 0, some push, now, none⟩ }
  /-- The rows that an import posts. -/
  | importRows (p : PackId) (rows : List PostedRow) (hrows : ∀ r ∈ rows, RowOk w.objs r.row)
      (hp : s.Ingesting p) : Others w s ((insertObjects p rows).run s).state
  /-- `commit_meta`, the last span of an import. -/
  | importCommit (now : ℤ) (id : ℕ) (lease : Lease) (p : ImportPayload) (c : ImportCursor)
      (m : PackMeta) (hpack : s.Owned p.push p.pack ∧ s.Injective p.pack ∧
        ∀ r ∈ s.objects, r.pack_id = p.pack → r.idx < m.count) :
      Others w s ((commitMeta w.env now id lease p c m).run s).state
  /-- The janitor drops the rows of a pack that was given up, and marks it dead. -/
  | janitorKill (now : ℤ) (p : PackId) (hp : s.Ingesting p) :
      Others w s (killPacks (fun r => r.id = p && r.state = .ingesting) now
        (deleteObjects (fun q => q = p) s))
  /-- The janitor drops a dead pack without rows. -/
  | janitorDrop (p : PackId) (hrows : ∀ r ∈ s.objects, r.pack_id ≠ p) :
      Others w s { s with packs := s.packs.deleteWhere fun r => r.id = p && r.state = .dead }
  /-- `pin`. -/
  | pin (name : String) (sha : Oid) (hat : s.target name = some sha) :
      Others w s { s with
        pins := s.pins.upsert ⟨name, sha⟩ (fun r => { r with sha := sha }) fun _ => rfl }
  /-- `unpin`. -/
  | unpin (name : String) :
      Others w s { s with pins := s.pins.deleteWhere fun r => r.name = name }
  /-- Requests to the bucket that do not touch live packs and the pack of the chain. The upload that
  the cursor of the chain names may expire; the ids of new uploads are new. -/
  | bucket (r2 : R2) (h : ∀ p, s.packLive p = true ∨ s.gc.new_pack = some p →
      r2.objects.find p = s.r2.objects.find p)
      (hu : ∀ u ∈ r2.uploads, u ∈ s.r2.uploads ∨
        (s.gc.new_pack ≠ some u.pack ∧ s.upload ≠ some u.id))
      (hk : ∀ u ∈ s.r2.uploads, s.gc.new_pack = some u.pack → u ∈ r2.uploads ∨
        s.upload = some u.id) :
      Others w s { s with r2 := r2 }
  /-- Everything that leaves the tables of this model's chains alone. -/
  | rest (u : Db) : Others w s (s.restOf u)

/-! ## What a slice relies on -/

/-- The bookkeeping of packs and pending rows. -/
structure Db.Tidy (s : Db) : Prop where
  /-- The packs of the cohort were committed. -/
  cohort : ∀ m ∈ s.marked, ∀ row, s.packs.find m.pack_id = some row → row.state ≠ .ingesting
  /-- The new pack is no push's. -/
  newPack : ∀ n, s.gc.new_pack = some n → ∀ row, s.packs.find n = some row → row.push_id = none
  seqs : (s.gc_pending.rows.map (·.seq)).Nodup
  seqLe : ∀ q ∈ s.gc_pending, q.seq ≤ s.pending_seq
  /-- A pack is not paged before it is committed. -/
  cursor : ∀ q ∈ s.gc_pending, ∀ row, s.packs.find q.pack_id = some row → row.state = .ingesting →
    q.cursor = -1

/-- Tidiness reads the packs, the cohort, the new pack and the pending rows only. -/
theorem Db.Tidy.congr (h : s.Tidy) (hpacks : t.packs = s.packs) (hmarked : t.marked = s.marked)
    (hnew : t.gc.new_pack = s.gc.new_pack) (hpending : t.gc_pending = s.gc_pending)
    (hseq : t.pending_seq = s.pending_seq) : t.Tidy where
  cohort m hm row hrow := h.cohort m (hmarked ▸ hm) row (hpacks ▸ hrow)
  newPack n hn row hrow := h.newPack n (hnew ▸ hn) row (hpacks ▸ hrow)
  seqs := by rw [hpending]; exact h.seqs
  seqLe q hq := by rw [hseq]; exact h.seqLe q (hpending ▸ hq)
  cursor q hq row hrow := h.cursor q (hpending ▸ hq) row (hpacks ▸ hrow)

/-- What a change of the packs must leave for the bookkeeping: no pack goes back to be ingested, and
the chain forgets. -/
theorem Db.Tidy.step (h : s.Tidy)
    (hpacks : ∀ p row, t.packs.find p = some row → ∃ row', s.packs.find p = some row' ∧
      row.push_id = row'.push_id ∧ (row.state = .ingesting → row'.state = .ingesting))
    (hmarked : ∀ m ∈ t.marked, ∃ m' ∈ s.marked, m'.pack_id = m.pack_id)
    (hnew : ∀ n, t.gc.new_pack = some n → s.gc.new_pack = some n)
    (hpending : t.gc_pending = s.gc_pending ∨ t.gc_pending = .empty)
    (hseq : t.pending_seq = s.pending_seq) : t.Tidy := by
  have hsub : ∀ q ∈ t.gc_pending, q ∈ s.gc_pending := by
    intro q hq
    rcases hpending with heq | heq
    · exact heq ▸ hq
    · exact absurd (heq ▸ hq) (Table.not_mem_empty q)
  refine ⟨fun m hm row hrow hst => ?_, fun n hn row hrow => ?_, ?_, fun q hq => ?_,
    fun q hq row hrow hst => ?_⟩
  · obtain ⟨m', hm', hid⟩ := hmarked m hm
    obtain ⟨row', hrow', -, hing⟩ := hpacks _ row hrow
    exact h.cohort m' hm' row' (hid ▸ hrow') (hing hst)
  · obtain ⟨row', hrow', hpush, -⟩ := hpacks n row hrow
    rw [hpush]
    exact h.newPack n (hnew n hn) row' hrow'
  · rcases hpending with heq | heq
    · rw [heq]
      exact h.seqs
    · rw [heq]
      exact List.nodup_nil
  · rw [hseq]
    exact h.seqLe q (hsub q hq)
  · obtain ⟨row', hrow', -, hing⟩ := hpacks _ row hrow
    exact h.cursor q (hsub q hq) row' hrow' (hing hst)

/-- A pack that the chain names, or that is live: nobody else changes it. -/
def Db.Fixed (s : Db) (p : PackId) : Prop :=
  s.packLive p = true ∨ p ∈ s.cohort ∨ s.gc.new_pack = some p

/-- What the others may have done while a slice waited. -/
structure Rely (w : World) (s t : Db) : Prop where
  gc : t.gc = s.gc
  marked : t.marked = s.marked
  seen : t.gc_seen = s.gc_seen
  parts : t.gc_parts = s.gc_parts
  /-- Of the saved buffer a part may be lost. -/
  tail : t.tailBytes.Sublist s.tailBytes
  frontier : ∀ x, s.gc_frontier.has x = true → t.gc_frontier.has x = true
  /-- Nobody else feeds the walk what it has seen. -/
  fed : ∀ x, t.gc_frontier.has x = true → s.gc_frontier.has x = true ∨ s.gc_seen.has x = false
  pending : ∀ q ∈ s.gc_pending, s.packLive q.pack_id = true → q ∈ t.gc_pending
  tidy : s.Tidy → t.Tidy
  rowsOk : s.RowsOk w.objs → t.RowsOk w.objs
  /-- A live pack, or the new one before it dies, keeps its row. -/
  packs : ∀ p row, s.packs.find p = some row →
    row.state = .live ∨ (s.gc.new_pack = some p ∧ row.state ≠ .dead) → t.packs.find p = some row
  /-- Nobody else gives the new pack a row, or takes it from the dead. -/
  newRow : ∀ n row, s.gc.new_pack = some n → t.packs.find n = some row → row.state ≠ .dead →
    s.packs.find n = some row
  rows : ∀ r, s.Fixed r.pack_id → (r ∈ t.objects ↔ r ∈ s.objects)
  /-- A pack goes live only when it is a push's; under the barrier it is then pending. -/
  newLive : ∀ p, t.packLive p = true → s.packLive p = false →
    p ∉ s.cohort ∧ s.gc.new_pack ≠ some p ∧ t.Injective p ∧ t.Counted p ∧
      (s.barrierActive = true → ∃ q ∈ t.gc_pending, q.pack_id = p ∧ q.cursor = -1)
  /-- A new root is fed to the walk. -/
  roots : s.barrierActive = true → ∀ x ∈ t.rootIds, x ≠ 0 →
    x ∈ s.rootIds ∨ t.gc_frontier.has x = true ∨ s.gc_seen.has x = true
  /-- Nobody else stores a live pack or the new one, or uploads to it. -/
  objects : ∀ p, s.packLive p = true ∨ s.gc.new_pack = some p →
    t.r2.objects.find p = s.r2.objects.find p
  uploads : ∀ u ∈ t.r2.uploads,
    u ∈ s.r2.uploads ∨ (s.gc.new_pack ≠ some u.pack ∧ s.upload ≠ some u.id)
  /-- An upload of the new pack expires only when the cursor names it. -/
  expire : ∀ u ∈ s.r2.uploads, s.gc.new_pack = some u.pack →
    u ∈ t.r2.uploads ∨ s.upload = some u.id

theorem barrierActive_congr (h : t.gc = s.gc) : t.barrierActive = s.barrierActive := by
  unfold Db.barrierActive
  rw [h]

namespace Rely

variable {u : Db}

theorem live (h : Rely w s t) (hp : s.packLive p = true) : t.packLive p = true := by
  obtain ⟨row, hrow, hlive⟩ := packLive_iff.mp hp
  exact packLive_iff.mpr ⟨row, h.packs p row hrow (.inl hlive), hlive⟩

theorem cohort (h : Rely w s t) : t.cohort = s.cohort := by
  unfold Db.cohort
  rw [h.marked]

theorem barrier (h : Rely w s t) : t.barrierActive = s.barrierActive := barrierActive_congr h.gc

theorem upload (h : Rely w s t) : t.upload = s.upload := by rw [Db.upload, h.gc, Db.upload]

theorem fixed (h : Rely w s t) (hp : s.Fixed p) : t.Fixed p := by
  rcases hp with hp | hp | hp
  · exact .inl (h.live hp)
  · exact .inr (.inl (h.cohort ▸ hp))
  · exact .inr (.inr (h.gc ▸ hp))

theorem injective (h : Rely w s t) (hp : s.Fixed p) (hi : s.Injective p) : t.Injective p := by
  intro r hr r' hr' hrp hrp'
  exact hi r ((h.rows r (hrp ▸ hp)).mp hr) r' ((h.rows r' (hrp' ▸ hp)).mp hr') hrp hrp'

theorem counted (h : Rely w s t) (hp : s.packLive p = true) (hc : s.Counted p) : t.Counted p := by
  intro row hrow r hr hrp
  obtain ⟨row', hrow', hlive⟩ := packLive_iff.mp hp
  rw [h.packs p row' hrow' (.inl hlive)] at hrow
  cases hrow
  exact hc row hrow' r ((h.rows r (hrp ▸ .inl hp)).mp hr) hrp

protected theorem refl (w : World) (s : Db) : Rely w s s where
  gc := rfl
  marked := rfl
  seen := rfl
  parts := rfl
  tail := .refl _
  frontier _ hx := hx
  fed _ hx := .inl hx
  pending _ hq _ := hq
  tidy h := h
  rowsOk h := h
  packs _ _ h _ := h
  newRow _ _ _ h _ := h
  rows _ _ := Iff.rfl
  newLive p hp hp' := by simp [hp] at hp'
  roots _ _ hx _ := .inl hx
  objects _ _ := rfl
  uploads _ hu := .inl hu
  expire _ hu _ := .inl hu

protected theorem trans (h : Rely w s t) (h' : Rely w t u) : Rely w s u where
  gc := h'.gc.trans h.gc
  marked := h'.marked.trans h.marked
  seen := h'.seen.trans h.seen
  parts := h'.parts.trans h.parts
  tail := h'.tail.trans h.tail
  frontier x hx := h'.frontier x (h.frontier x hx)
  fed x hx := by
    rcases h'.fed x hx with hx | hx
    · exact h.fed x hx
    · exact .inr (h.seen ▸ hx)
  pending q hq hl := h'.pending q (h.pending q hq hl) (h.live hl)
  tidy hs := h'.tidy (h.tidy hs)
  rowsOk hs := h'.rowsOk (h.rowsOk hs)
  packs p row hrow hp := by
    refine h'.packs p row (h.packs p row hrow hp) (hp.imp id fun hn => ?_)
    exact ⟨h.gc ▸ hn.1, hn.2⟩
  newRow n row hn hrow hst := h.newRow n row hn (h'.newRow n row (h.gc ▸ hn) hrow hst) hst
  rows r hr := (h'.rows r (h.fixed hr)).trans (h.rows r hr)
  newLive p hp hp' := by
    by_cases ht : t.packLive p = true
    · -- The pack went live before: what holds of it then is kept.
      obtain ⟨hcohort, hnew, hinj, hcount, hpend⟩ := h.newLive p ht hp'
      refine ⟨hcohort, hnew, h'.injective (.inl ht) hinj, h'.counted ht hcount, fun hb => ?_⟩
      obtain ⟨q, hq, hqp, hcur⟩ := hpend hb
      exact ⟨q, h'.pending q hq (by rw [hqp]; exact ht), hqp, hcur⟩
    · have := h'.newLive p hp (by simpa using ht)
      rwa [h.cohort, h.gc, h.barrier] at this
  roots hb x hx h0 := by
    rcases h'.roots (h.barrier.trans hb) x hx h0 with hx | hx | hx
    · rcases h.roots hb x hx h0 with hx | hx | hx
      · exact .inl hx
      · exact .inr (.inl (h'.frontier x hx))
      · exact .inr (.inr hx)
    · exact .inr (.inl hx)
    · exact .inr (.inr (h.seen ▸ hx))
  objects p hp := (h'.objects p (hp.imp h.live fun hn => h.gc ▸ hn)).trans (h.objects p hp)
  uploads u hu := by
    rcases h'.uploads u hu with hu | hu
    · exact h.uploads u hu
    · rw [h.gc, h.upload] at hu
      exact .inr hu
  expire u hu hn := by
    rcases h.expire u hu hn with hu | hu
    · have := h'.expire u hu (h.gc ▸ hn)
      rwa [h.upload] at this
    · exact .inr hu

/-- A step that changes no pack and no row. -/
theorem of_same_packs (hgc : t.gc = s.gc) (hmarked : t.marked = s.marked)
    (hseen : t.gc_seen = s.gc_seen) (hparts : t.gc_parts = s.gc_parts)
    (htail : t.gc_tail = s.gc_tail) (hpacks : t.packs = s.packs) (hobjects : t.objects = s.objects)
    (hr2 : t.r2 = s.r2)
    (hfrontier : ∀ x, s.gc_frontier.has x = true → t.gc_frontier.has x = true)
    (hfed : ∀ x, t.gc_frontier.has x = true → s.gc_frontier.has x = true ∨ s.gc_seen.has x = false)
    (hpending : ∀ q ∈ s.gc_pending, s.packLive q.pack_id = true → q ∈ t.gc_pending)
    (htidy : s.Tidy → t.Tidy)
    (hroots : s.barrierActive = true → ∀ x ∈ t.rootIds, x ≠ 0 →
      x ∈ s.rootIds ∨ t.gc_frontier.has x = true ∨ s.gc_seen.has x = true) : Rely w s t where
  gc := hgc
  marked := hmarked
  seen := hseen
  parts := hparts
  tail := by
    unfold Db.tailBytes
    rw [htail]
  frontier := hfrontier
  fed := hfed
  pending := hpending
  tidy := htidy
  rowsOk h r hr := h r (hobjects ▸ hr)
  packs p row hrow _ := by rw [hpacks, hrow]
  newRow n row _ hrow _ := hpacks ▸ hrow
  rows r _ := by rw [hobjects]
  newLive p hp hp' := by simp [Db.packLive, hpacks] at hp hp'; simp [hp] at hp'
  roots := hroots
  objects n _ := by rw [hr2]
  uploads u hu := .inl (hr2 ▸ hu)
  expire u hu _ := .inl (by rwa [hr2])

/-- A step that leaves the tables of the chain alone. -/
theorem of_rest (w : World) (s u : Db) : Rely w s (s.restOf u) :=
  of_same_packs rfl rfl rfl rfl rfl rfl rfl rfl (Rely.refl w s).frontier (Rely.refl w s).fed
    (Rely.refl w s).pending
    (fun h => h.congr rfl rfl rfl rfl rfl) (Rely.refl w s).roots

/-- A step that leaves the tables of the chain alone, after the others. -/
theorem then_rest (h : Rely w s t) (hu : u = t.restOf u) : Rely w s u := by
  rw [hu]
  exact h.trans (of_rest w t u)

end Rely

/-! ## Commits -/

theorem mem_addPending {q : PendingRow} :
    q ∈ (addPending pack s).gc_pending ↔
      q ∈ s.gc_pending ∨ (s.gc_pending.has pack = false ∧ q = ⟨s.pending_seq + 1, pack, -1⟩) := by
  unfold addPending
  by_cases hhas : s.gc_pending.has pack = true
  · simp [hhas]
  · simp [hhas, Table.mem_insertIgnore]

/-- The pending row that the barrier writes before a promotion. -/
theorem rely_withPending (w : World) (htidy : s.Tidy) (pack : PackId) :
    Rely w s (withPending s.barrierActive pack s) := by
  by_cases hb : s.barrierActive = true
  · have heq : withPending s.barrierActive pack s = bumpRefsVersion (addPending pack s) := by
      rw [withPending, if_pos hb]
    rw [heq]
    have hs := Rely.refl w s
    have hmem : ∀ q, q ∈ (bumpRefsVersion (addPending pack s)).gc_pending ↔
        q ∈ s.gc_pending ∨ (s.gc_pending.has pack = false ∧ q = ⟨s.pending_seq + 1, pack, -1⟩) :=
      fun q => mem_addPending
    obtain ⟨pending, seq, version, hw⟩ := withPending_eq true pack s
    rw [withPending, if_pos rfl] at hw
    have htidy' : (bumpRefsVersion (addPending pack s)).Tidy := by
      by_cases hhas : s.gc_pending.has pack = true
      · have hid : addPending pack s = s := by rw [addPending, if_pos hhas]
        rw [hid]
        exact ⟨htidy.cohort, htidy.newPack, htidy.seqs, htidy.seqLe, htidy.cursor⟩
      · have hnew : addPending pack s = { s with
            gc_pending := s.gc_pending.insertIgnore ⟨s.pending_seq + 1, pack, -1⟩
            pending_seq := s.pending_seq + 1 } := by
          rw [addPending, if_neg hhas]
        rw [hnew]
        have hno : s.gc_pending.has (PendingRow.pack_id ⟨s.pending_seq + 1, pack, -1⟩) = false := by
          simpa using hhas
        refine ⟨htidy.cohort, htidy.newPack, ?_, fun q hq => ?_, fun q hq row hrow hst => ?_⟩
        · show ((s.gc_pending.insertIgnore _).rows.map _).Nodup
          rw [Table.rows_insertIgnore_of_not_has hno, List.map_append, List.nodup_append]
          refine ⟨htidy.seqs, by simp, ?_⟩
          intro a ha b hb
          obtain ⟨q, hq, rfl⟩ := List.mem_map.mp ha
          have := htidy.seqLe q hq
          simp only [List.map_cons, List.map_nil, List.mem_singleton] at hb
          omega
        · rcases Table.mem_insertIgnore.mp hq with hq | ⟨rfl, -⟩
          · exact (htidy.seqLe q hq).trans (Nat.le_succ _)
          · exact Nat.le_refl _
        · rcases Table.mem_insertIgnore.mp hq with hq | ⟨rfl, -⟩
          · exact htidy.cursor q hq row hrow hst
          · rfl
    rw [hw] at hmem htidy' ⊢
    exact Rely.of_same_packs rfl rfl rfl rfl rfl rfl rfl rfl hs.frontier hs.fed
      (fun q hq _ => (hmem q).mpr (.inl hq)) (fun _ => htidy') hs.roots
  · have heq : withPending s.barrierActive pack s = s := by rw [withPending, if_neg hb]
    rw [heq]
    exact Rely.refl w s

theorem promotable_iff :
    promotable push pack row = true ↔
      row.id = pack ∧ row.state = .ingesting ∧ row.push_id = some push := by
  simp [promotable]

/-- A promotion touches the row of a pack that was ingesting only. -/
theorem find_promote (h : (promote push pack s).packs.find p = some row) :
    ∃ row', s.packs.find p = some row' ∧ row.push_id = row'.push_id ∧ row.count = row'.count ∧
      (row = row' ∨ (row'.state = .ingesting ∧ row.state = .live)) := by
  simp only [promote, Table.find_updateWhere, Option.map_eq_some_iff] at h
  obtain ⟨row', hrow', rfl⟩ := h
  refine ⟨row', hrow', ?_⟩
  split_ifs with hp
  · exact ⟨rfl, rfl, .inr ⟨(promotable_iff.mp hp).2.1, rfl⟩⟩
  · exact ⟨rfl, rfl, .inl rfl⟩

/-- The promotion of a push's pack. -/
theorem rely_promote (w : World) (htidy : s.Tidy) (hready : s.Ready pack)
    (hpend : s.barrierActive = true →
      (∃ row, s.packs.find pack = some row ∧ row.state = .ingesting) →
      ∃ q ∈ s.gc_pending, q.pack_id = pack ∧ q.cursor = -1) : Rely w s (promote push pack s) where
  gc := rfl
  marked := rfl
  seen := rfl
  parts := rfl
  tail := .refl _
  frontier _ hx := hx
  fed _ hx := .inl hx
  pending _ hq _ := hq
  tidy _ := by
    refine ⟨fun m hm row hrow => ?_, fun n hn row hrow => ?_, htidy.seqs, htidy.seqLe,
      fun q hq row hrow hst => ?_⟩
    · obtain ⟨row', hrow', -, -, rfl | ⟨-, hlive⟩⟩ := find_promote hrow
      · exact htidy.cohort m hm row hrow'
      · rw [hlive]
        decide
    · obtain ⟨row', hrow', hid, -⟩ := find_promote hrow
      rw [hid]
      exact htidy.newPack n hn row' hrow'
    · obtain ⟨row', hrow', -, -, rfl | ⟨-, hlive⟩⟩ := find_promote hrow
      · exact htidy.cursor q hq row hrow' hst
      · rw [hlive] at hst
        cases hst
  rowsOk h := h
  packs p row hrow hp := by
    simp only [promote, Table.find_updateWhere, hrow, Option.map_some]
    rw [if_neg]
    intro hprom
    obtain ⟨-, hst, hpush⟩ := promotable_iff.mp hprom
    rcases hp with hp | ⟨hp, -⟩
    · rw [hst] at hp
      cases hp
    · rw [htidy.newPack p hp row hrow] at hpush
      cases hpush
  newRow n row hn hrow _ := by
    simp only [promote, Table.find_updateWhere, Option.map_eq_some_iff] at hrow
    obtain ⟨row', hrow', rfl⟩ := hrow
    rw [hrow', if_neg]
    intro hprom
    have hpush := (promotable_iff.mp hprom).2.2
    rw [htidy.newPack n hn row' hrow'] at hpush
    cases hpush
  rows _ _ := Iff.rfl
  newLive p hp hp' := by
    rcases packLive_promote.mp hp with hp | ⟨row, hrow, hprom⟩
    · simp [hp] at hp'
    · obtain ⟨hid, hst, hpush⟩ := promotable_iff.mp hprom
      have hpp : p = pack := (Table.find_eq_some.mp hrow).2.symm.trans hid
      subst hpp
      refine ⟨fun hc => ?_, fun hn => ?_, hready.injective, fun row' hrow' r hr hrp => ?_,
        fun hb => ?_⟩
      · obtain ⟨m, hm, rfl⟩ := List.mem_map.mp hc
        exact htidy.cohort m hm row hrow hst
      · rw [htidy.newPack p hn row hrow] at hpush
        cases hpush
      · obtain ⟨row'', hrow'', -, hc, -⟩ := find_promote hrow'
        rw [hrow] at hrow''
        cases hrow''
        rw [hc]
        exact hready.counted row hrow hst r hr hrp
      · exact hpend hb ⟨row, hrow, hst⟩
  roots _ _ hx _ := .inl hx
  objects _ _ := rfl
  uploads _ hu := .inl hu
  expire _ hu _ := .inl hu

/-- Step 3 of a commit. -/
theorem rely_promotePending (w : World) (htidy : s.Tidy) (hready : s.Ready pack) :
    Rely w s (promote push pack (withPending s.barrierActive pack s)) := by
  have hwith := rely_withPending w htidy pack
  obtain ⟨pending, seq, version, heq⟩ := withPending_eq s.barrierActive pack s
  refine hwith.trans (rely_promote w (hwith.tidy htidy) ?_ fun hb hing => ?_)
  · rw [heq]
    exact ⟨hready.injective, hready.counted⟩
  · rw [hwith.barrier] at hb
    have hpacks : (withPending s.barrierActive pack s).packs = s.packs := by rw [heq]
    rw [hpacks] at hing
    obtain ⟨row, hrow, hst⟩ := hing
    rw [withPending, if_pos hb]
    show ∃ q ∈ (addPending pack s).gc_pending, _
    by_cases hhas : s.gc_pending.has pack = true
    · obtain ⟨q, hq, hqp⟩ := Table.has_iff.mp hhas
      exact ⟨q, mem_addPending.mpr (.inl hq), hqp, htidy.cursor q hq row (hqp ▸ hrow) hst⟩
    · exact ⟨_, mem_addPending.mpr (.inr ⟨by simpa using hhas, rfl⟩), rfl, rfl⟩

/-- What a landing writes. -/
theorem landed_eq (barrier : Bool) (push : PushId) (who : String) (now : ℤ) (c : Cmd) (s : Db) :
    landed barrier push who now c s =
      { s with
        gc_frontier := if barrier = true ∧ c.new ≠ 0 then
          c.feeds.foldl (feedFrontier 1 s.gc_seen) s.gc_frontier else s.gc_frontier
        refs := c.write now s.refs
        refs_version := if barrier then s.refs_version + 1 else s.refs_version
        reflog := s.reflog ++ [⟨c.name, c.old, c.new, push, who, now⟩] } := by
  unfold landed
  cases barrier
  · rfl
  · by_cases h0 : c.new = 0 <;> simp [h0, logRef, bumpRefsVersion, barrierFeedLanding]

theorem mem_rootIds :
    x ∈ s.rootIds ↔ (∃ r ∈ s.refs, r.target = x ∨ r.peeledId = some x) ∨ ∃ p ∈ s.pins, p.sha = x := by
  simp only [Db.rootIds, List.mem_append, List.mem_map, List.mem_filterMap, Table.mem_def]
  constructor
  · rintro ((⟨r, hr, h⟩ | ⟨r, hr, h⟩) | h)
    · exact .inl ⟨r, hr, .inl h⟩
    · exact .inl ⟨r, hr, .inr h⟩
    · exact .inr h
  · rintro (⟨r, hr, h | h⟩ | h)
    · exact .inl (.inl ⟨r, hr, h⟩)
    · exact .inl (.inr ⟨r, hr, h⟩)
    · exact .inr h

/-- A pin of the target of a ref adds no root. -/
theorem rootIds_of_pin {name : String} {sha : Oid} (hat : s.target name = some sha)
    (hx : x ∈ Db.rootIds { s with
      pins := s.pins.upsert ⟨name, sha⟩ (fun r => { r with sha := sha }) fun _ => rfl }) :
    x ∈ s.rootIds := by
  rcases mem_rootIds.mp hx with hx | ⟨q, hq, rfl⟩
  · exact mem_rootIds.mpr (.inl hx)
  · have htarget : sha ∈ s.rootIds := by
      obtain ⟨row, hrow, rfl⟩ := Option.map_eq_some_iff.mp hat
      exact mem_rootIds.mpr (.inl ⟨row, (Table.find_eq_some.mp hrow).1, .inl rfl⟩)
    rcases Table.mem_upsert.mp hq with ⟨hq, -⟩ | ⟨o, -, -, rfl⟩ | ⟨rfl, -⟩
    · exact mem_rootIds.mpr (.inr ⟨q, hq, rfl⟩)
    · exact htarget
    · exact htarget

/-- A pin that goes adds no root either. -/
theorem rootIds_of_unpin {name : String}
    (hx : x ∈ Db.rootIds { s with pins := s.pins.deleteWhere fun r => r.name = name }) :
    x ∈ s.rootIds := by
  rcases mem_rootIds.mp hx with hx | ⟨q, hq, rfl⟩
  · exact mem_rootIds.mpr (.inl hx)
  · exact mem_rootIds.mpr (.inr ⟨q, (Table.mem_deleteWhere.mp hq).1, rfl⟩)

/-- A command that lands. -/
theorem rely_landed (w : World) {env : Env} {head : String} {scopes : List (Option String)}
    {c : Cmd} (push : PushId) (who : String) (now : ℤ) (hj : s.judge env head scopes c = none) :
    Rely w s (landed s.barrierActive push who now c s) := by
  have hnull := refuse_null (judge_eq_none.mp hj).1
  rw [landed_eq]
  refine Rely.of_same_packs rfl rfl rfl rfl rfl rfl rfl rfl (fun x hx => ?_) (fun x hx => ?_)
    (fun _ hq _ => hq) (fun h => h.congr rfl rfl rfl rfl rfl) fun hb x hx h0 => ?_
  · show (if _ then _ else s.gc_frontier).has x = true
    split_ifs
    · rw [has_feed, hx, Bool.true_or]
    · exact hx
  · replace hx : (if _ then _ else s.gc_frontier).has x = true := hx
    split_ifs at hx
    · rw [has_feed] at hx
      simp only [Bool.or_eq_true, Bool.and_eq_true, Bool.not_eq_true'] at hx
      exact hx.imp id And.right
    · exact .inl hx
  · rcases mem_rootIds.mp hx with ⟨r, hr, hx⟩ | hx
    · rcases row_of_write hr with hr | ⟨hn, ht, hp⟩ | ⟨ho, hn, -⟩
      · exact .inl (mem_rootIds.mpr (.inl ⟨r, hr, hx⟩))
      · -- The command's own target or peeled target: it was fed.
        have hfeed : x ∈ c.feeds := by
          rcases hx with rfl | hx
          · simp [Cmd.feeds, ht]
          · rw [RefRow.peeledId, hp] at hx
            simp [Cmd.feeds, hx, h0]
        by_cases hs : s.gc_seen.has x = true
        · exact .inr (.inr hs)
        · refine .inr (.inl ?_)
          show (if _ then _ else s.gc_frontier).has x = true
          rw [if_pos ⟨hb, hn⟩, has_feed]
          simp [hfeed, hs]
      · exact absurd ⟨ho, hn⟩ hnull
    · exact .inl (mem_rootIds.mpr (.inr hx))

/-- The writes of a push. -/
theorem rely_landCommands (w : World) (env : Env) (head : String) (push : PushId) (who : String)
    (now : ℤ) (scopes : List (Option String)) (cs : List Cmd) (s : Db) :
    Rely w s (landCommands env head push who now s.barrierActive scopes cs s).2 := by
  induction cs generalizing s with
  | nil => exact Rely.refl w s
  | cons c cs ih =>
    simp only [landCommands]
    by_cases hj : s.judge env head scopes c = none
    · rw [if_pos hj]
      have h := rely_landed w push who now hj
      have := ih (landed s.barrierActive push who now c s)
      rw [h.barrier] at this
      exact h.trans this
    · rw [if_neg hj]
      exact ih s

/-- Steps 4 to 7 of a commit. -/
theorem rely_commitRefs (w : World) (env : Env) (req : CommitRequest) (now : ℤ) (head : String)
    (scopes : List (Option String)) (s : Db) :
    Rely w s ((commitRefs env req now s.barrierActive head scopes).run s).state := by
  obtain ⟨-, jobs, seq, events, dropped, heq⟩ :=
    commitRefs_eq env req now s.barrierActive head scopes s
  rw [heq]
  have hland := rely_landCommands w env head req.push_id req.principal now scopes req.commands s
  obtain ⟨version, hd, hsettled⟩ := settled_eq
    ((landCommands env head req.push_id req.principal now s.barrierActive scopes req.commands
      s).1.any fun r => r.2.isNone) req
    (landCommands env head req.push_id req.principal now s.barrierActive scopes req.commands s).2
  rw [hsettled]
  generalize (landCommands env head req.push_id req.principal now s.barrierActive scopes
    req.commands s).2 = t at hland ⊢
  refine hland.trans ?_
  exact Rely.of_same_packs rfl rfl rfl rfl rfl rfl rfl rfl (fun _ h => h) (fun _ h => .inl h)
    (fun _ hq _ => hq) (fun h => h.congr rfl rfl rfl rfl rfl) fun _ _ hx _ => .inl hx

/-- Fewer pending rows are as tidy. -/
theorem Db.Tidy.deletePending (h : s.Tidy) (p : PendingRow → Bool) :
    ({ s with gc_pending := s.gc_pending.deleteWhere p } : Db).Tidy where
  cohort := h.cohort
  newPack := h.newPack
  seqs := h.seqs.sublist (List.Sublist.map _ List.filter_sublist)
  seqLe q hq := h.seqLe q (Table.mem_deleteWhere.mp hq).1
  cursor q hq := h.cursor q (Table.mem_deleteWhere.mp hq).1

/-- Step 3 of a commit, with or without a pack. -/
theorem rely_step3 (w : World) {req : CommitRequest} {P : Db} (htidy : s.Tidy)
    (hpack : ∀ p, req.pack_id = some p → s.Ready p) (h : Step3 req s P) : Rely w s P := by
  cases h with
  | noPack _ => exact Rely.refl w s
  | pack hp one jobs seq =>
    exact (rely_promotePending w htidy (hpack _ hp)).then_rest rfl

/-- The end of an atomic push whose dry run failed: the packs are as they were, and so are the
pending rows of the live ones. -/
theorem rely_rejectAtomic (w : World) {req : CommitRequest} {P : Db} (now : ℤ) (htidy : s.Tidy)
    (h : Step3 req s P) (results : List RefResult) :
    Rely w s ((rejectAtomic req now s.barrierActive results).run P).state := by
  obtain ⟨hrefs, -, hpacks⟩ := rejectAtomic_nothing now h results
  have hstate := (rejectAtomic_eq req now s.barrierActive results P).2
  rw [hstate] at hrefs hpacks ⊢
  cases h with
  | noPack hp =>
    rw [hp]
    exact (Rely.refl w s).then_rest rfl
  | pack hp one jobs seq =>
    rename_i pack
    rw [hp] at hrefs hpacks ⊢
    obtain ⟨row, hrow, hprom⟩ : ∃ row ∈ s.packs, promotable req.push_id pack row = true := by
      have : 0 < (s.packs.rows.filter (promotable req.push_id pack)).length := by
        simp only [Table.countWhere] at one
        omega
      obtain ⟨row, hrow⟩ := List.exists_mem_of_length_pos this
      exact ⟨row, (List.mem_filter.mp hrow).1, (List.mem_filter.mp hrow).2⟩
    obtain ⟨hid, hst, -⟩ := promotable_iff.mp hprom
    have hfind : s.packs.find pack = some row := Table.find_eq_some.mpr ⟨hrow, hid⟩
    have hwith := rely_withPending w htidy pack
    have htidy' := hwith.tidy htidy
    have hpend := hwith.pending
    have hwpacks : (withPending s.barrierActive pack s).packs = s.packs := by
      obtain ⟨_, _, _, heq⟩ := withPending_eq s.barrierActive pack s
      rw [heq]
    cases hb : s.barrierActive with
    | false =>
      rw [hb] at hrefs hpacks htidy' hpend hwpacks
      simp only [Bool.false_eq_true, if_false] at hrefs hpacks ⊢
      exact Rely.of_same_packs rfl rfl rfl rfl rfl hpacks rfl rfl (fun _ h => h)
        (fun _ h => .inl h) hpend
        (fun _ => htidy'.congr (hpacks.trans hwpacks.symm) rfl rfl rfl rfl)
        fun hb' => by simp [hb] at hb'
    | true =>
      rw [hb] at hrefs hpacks htidy' hpend hwpacks
      simp only [if_true] at hrefs hpacks ⊢
      obtain ⟨pending, seq', version, heq⟩ := withPending_eq true pack s
      rw [heq] at hrefs hpacks htidy' hpend hwpacks ⊢
      refine Rely.of_same_packs rfl rfl rfl rfl rfl hpacks rfl rfl (fun _ h => h)
        (fun _ h => .inl h) (fun q hq hl => ?_)
        (fun _ => (htidy'.deletePending fun q => q.pack_id = pack).congr
          (hpacks.trans hwpacks.symm) rfl rfl rfl rfl) fun _ x hx _ => ?_
      · refine Table.mem_deleteWhere.mpr ⟨hpend q hq hl, ?_⟩
        -- A pending pack that is live is not the one that was demoted.
        by_contra hne
        simp only [decide_eq_false_iff_not, not_not] at hne
        obtain ⟨row', hrow', hlive⟩ := packLive_iff.mp hl
        rw [hne, hfind] at hrow'
        cases hrow'
        rw [hst] at hlive
        cases hlive
      · left
        rw [mem_rootIds] at hx ⊢
        rw [hrefs] at hx
        exact hx

/-- `commit_push`, when it ends. -/
theorem rely_commitPush (w : World) (env : Env) (now : ℤ) (req : CommitRequest) (htidy : s.Tidy)
    (hpack : ∀ p, req.pack_id = some p → s.Ready p) :
    Rely w s ((commitPush env now req).run s).state := by
  rcases commitPush_cases env now req s with ⟨m, -, hs⟩ | ⟨-, -, why, -, hs⟩ | ⟨m, -, hs⟩ |
    ⟨pack, m, hp, -, -, hs⟩ | ⟨scopes, P, -, hstep, -, hs⟩
  · rw [hs]
    exact Rely.refl w s
  · rw [hs]
    exact (Rely.refl w s).then_rest rfl
  · rw [hs]
    exact (Rely.refl w s).then_rest rfl
  · rw [hs]
    exact rely_promotePending w htidy (hpack pack hp)
  · rw [hs]
    have hrely := rely_step3 w htidy hpack hstep
    have hcommit :
        Rely w s ((commitRefs env req now s.barrierActive P.head scopes).run P).state := by
      have := rely_commitRefs w env req now P.head scopes P
      rw [hrely.barrier] at this
      exact hrely.trans this
    cases hat : req.atomic with
    | false =>
      rw [commitCommands_not_atomic env req now s.barrierActive scopes hat]
      exact hcommit
    | true =>
      rw [commitCommands_atomic env req now s.barrierActive scopes hat]
      split_ifs
      · exact hcommit
      · exact rely_rejectAtomic w now htidy hstep _

/-! ## Rows and packs of others -/

/-- A pack that a push or an import writes is none of the chain's, and not live. -/
theorem Db.Ingesting.not_fixed (h : s.Ingesting p) (htidy : s.Tidy) : ¬ s.Fixed p := by
  obtain ⟨row, hrow, hst, hpush⟩ := h
  rintro (hl | hc | hn)
  · obtain ⟨row', hrow', hlive⟩ := packLive_iff.mp hl
    rw [hrow] at hrow'
    cases hrow'
    rw [hst] at hlive
    cases hlive
  · obtain ⟨m, hm, rfl⟩ := List.mem_map.mp hc
    exact htidy.cohort m hm row hrow hst
  · rw [htidy.newPack p hn row hrow] at hpush
    cases hpush

/-- The rows of packs that are none of the chain's, and not live, may change. -/
theorem rely_objects (w : World) (objects : Table ObjRow fun o => (o.sha, o.pack_id))
    (hok : s.RowsOk w.objs → ∀ r ∈ objects, RowOk w.objs r)
    (hrows : ∀ r, s.Fixed r.pack_id → (r ∈ objects ↔ r ∈ s.objects)) :
    Rely w s { s with objects := objects } :=
  { Rely.refl w s with
    tidy := fun h => h.congr rfl rfl rfl rfl rfl
    rowsOk := hok
    rows := hrows
    newLive := fun p hp hp' => by
      have hp : s.packLive p = true := hp
      simp [hp] at hp' }

/-- The rows that a push or an import posts. -/
theorem rely_insertObjects (w : World) (hfix : ¬ s.Fixed p) (rows : List PostedRow)
    (hrows : ∀ r ∈ rows, RowOk w.objs r.row) : Rely w s ((insertObjects p rows).run s).state := by
  have hkeeps : Span.Keeps (fun t => Rely w s t ∧ ¬ t.Fixed p) (insertObjects p rows) := by
    unfold insertObjects
    split_ifs
    · exact .fail _
    · refine .each fun r hr => .bind (.exec fun t ht => ?_) fun _ =>
        .each fun q _ => .exec fun t ht => ?_
      · refine ⟨ht.1.trans (rely_objects w _ (fun hok o ho => ?_) fun o ho => ?_), ht.2⟩
        · rcases Table.mem_insertIgnore.mp ho with ho | ⟨rfl, -⟩
          · exact hok o ho
          · exact ⟨(hrows r hr).kind, (hrows r hr).size, (hrows r hr).len, (hrows r hr).sha⟩
        · rw [Table.mem_insertIgnore]
          refine ⟨fun h => h.elim id fun hnew => absurd ho ?_, .inl⟩
          rw [hnew.1]
          exact ht.2
      · exact ⟨ht.1.then_rest rfl, ht.2⟩
  exact (hkeeps.state ⟨Rely.refl w s, hfix⟩).1

/-- What others do to pack rows apart from commits: a row is new, or it is a push's that is not
committed and does not go live, or it stays; and a row that goes is dead. -/
structure PackStep (s : Db) (packs : Table PackRow PackRow.id) : Prop where
  origin : ∀ p row, packs.find p = some row → s.packs.find p = some row ∨
    (s.FreshPack p ∧ row.state = .ingesting) ∨
    ∃ row', s.packs.find p = some row' ∧ row'.state = .ingesting ∧ row'.push_id.isSome ∧
      row.state ≠ .live
  keeps : ∀ p row, s.packs.find p = some row → packs.find p = some row ∨ row.state = .dead ∨
    (row.state = .ingesting ∧ row.push_id.isSome)

theorem rely_packs (w : World) {packs : Table PackRow PackRow.id} (htidy : s.Tidy)
    (h : PackStep s packs) : Rely w s { s with packs := packs } := by
  -- No row of the new pack, and none of a cohort pack, is a push's that is not committed.
  have hnew : ∀ n row, s.gc.new_pack = some n → packs.find n = some row →
      s.packs.find n = some row := by
    intro n row hn hrow
    rcases h.origin n row hrow with hs | ⟨hf, -⟩ | ⟨row', hs, -, hpush, -⟩
    · exact hs
    · exact absurd hn hf.new_pack
    · rw [htidy.newPack n hn row' hs] at hpush
      cases hpush
  have htidy' : ({ s with packs := packs } : Db).Tidy := by
    refine ⟨fun m hm row hrow hst => ?_, fun n hn row hrow =>
      htidy.newPack n hn row (hnew n row hn hrow), htidy.seqs, htidy.seqLe,
      fun q hq row hrow hst => ?_⟩
    · rcases h.origin _ row hrow with hs | ⟨hf, -⟩ | ⟨row', hs, hst', -⟩
      · exact htidy.cohort m hm row hs hst
      · exact hf.marked m hm rfl
      · exact htidy.cohort m hm row' hs hst'
    · rcases h.origin _ row hrow with hs | ⟨hf, -⟩ | ⟨row', hs, hst', -⟩
      · exact htidy.cursor q hq row hs hst
      · exact absurd rfl (hf.pending q hq)
      · exact htidy.cursor q hq row' hs hst'
  refine { Rely.refl w s with
    tidy := fun _ => htidy'
    rowsOk := id
    packs := fun p row hrow hp => ?_
    newRow := fun n row hn hrow _ => hnew n row hn hrow
    newLive := fun p hp hp' => ?_ }
  · rcases h.keeps p row hrow with hk | hk | ⟨hst, hpush⟩
    · exact hk
    · rcases hp with hp | ⟨-, hp⟩
      · rw [hk] at hp
        cases hp
      · exact absurd hk hp
    · rcases hp with hp | ⟨hn, -⟩
      · rw [hst] at hp
        cases hp
      · rw [htidy.newPack p hn row hrow] at hpush
        cases hpush
  · exfalso
    obtain ⟨row, hrow, hlive⟩ := packLive_iff.mp hp
    rcases h.origin p row hrow with hs | ⟨-, hst⟩ | ⟨-, -, -, -, hst⟩
    · have := packLive_iff.mpr ⟨row, hs, hlive⟩
      rw [hp'] at this
      cases this
    · rw [hst] at hlive
      cases hlive
    · exact hst hlive

/-- An update of the rows of packs that are a push's and not committed. -/
theorem packStep_update (q : PackRow → Bool) (f : PackRow → PackRow) (hf : ∀ r, (f r).id = r.id)
    (hq : ∀ row ∈ s.packs, q row = true → row.state = .ingesting ∧ row.push_id.isSome)
    (hst : ∀ row, row.state = .ingesting → (f row).state ≠ .live) :
    PackStep s (s.packs.updateWhere q f hf) where
  origin p row hrow := by
    rw [Table.find_updateWhere, Option.map_eq_some_iff] at hrow
    obtain ⟨row', hrow', rfl⟩ := hrow
    by_cases hqr : q row' = true
    · obtain ⟨hing, hpush⟩ := hq row' (Table.find_eq_some.mp hrow').1 hqr
      rw [if_pos hqr]
      exact .inr (.inr ⟨row', hrow', hing, hpush, hst row' hing⟩)
    · rw [if_neg hqr]
      exact .inl hrow'
  keeps p row hrow := by
    rw [Table.find_updateWhere, hrow, Option.map_some]
    by_cases hqr : q row = true
    · exact .inr (.inr (hq row (Table.find_eq_some.mp hrow).1 hqr))
    · rw [if_neg hqr]
      exact .inl rfl

/-- A new row. -/
theorem packStep_insert (hnew : s.FreshPack row.id) (hst : row.state = .ingesting) :
    PackStep s (s.packs.insertIgnore row) where
  origin p row' hrow' := by
    rcases Table.mem_insertIgnore.mp (Table.find_eq_some.mp hrow').1 with h | ⟨rfl, -⟩
    · exact .inl (Table.find_eq_some.mpr ⟨h, (Table.find_eq_some.mp hrow').2⟩)
    · have hid := (Table.find_eq_some.mp hrow').2
      exact .inr (.inl ⟨hid ▸ hnew, hst⟩)
  keeps p row' hrow' := by
    obtain ⟨hmem, hid⟩ := Table.find_eq_some.mp hrow'
    exact .inl (Table.find_eq_some.mpr ⟨Table.mem_insertIgnore.mpr (.inl hmem), hid⟩)

theorem owns_iff {m : PackDto} :
    m.owns row = true ↔ row.id = m.id ∧ row.state = .ingesting ∧ row.push_id = some m.push_id := by
  simp [PackDto.owns]

/-- The upsert of `push_index`. -/
theorem rely_upsert (w : World) (now : ℤ) (m : PackDto) (htidy : s.Tidy)
    (hnew : s.packs.has m.id = false → s.FreshPack m.id) : Rely w s (m.upsert now s) := by
  unfold PackDto.upsert
  split_ifs with hhas
  · refine rely_packs w htidy (packStep_update _ _ _ (fun row _ h => ?_) fun row h => ?_)
    · obtain ⟨-, hst, hpush⟩ := owns_iff.mp h
      exact ⟨hst, by rw [hpush]; rfl⟩
    · show row.state ≠ _
      rw [h]
      decide
  · exact rely_packs w htidy (packStep_insert (hnew (by simpa using hhas)) rfl)

/-- After an upsert that changed one row, the pack is the push's. -/
theorem upsert_ingesting {m : PackDto} (now : ℤ)
    (h : (if s.packs.has m.id then s.packs.countWhere m.owns else 1) = 1) :
    (m.upsert now s).Ingesting m.id := by
  unfold PackDto.upsert
  split_ifs at h ⊢ with hhas
  · have hpos : 0 < (s.packs.rows.filter m.owns).length := by
      simp only [Table.countWhere] at h
      omega
    obtain ⟨row, hrow⟩ := List.exists_mem_of_length_pos hpos
    obtain ⟨hmem, howns⟩ := List.mem_filter.mp hrow
    obtain ⟨hid, hst, hpush⟩ := owns_iff.mp howns
    refine ⟨{ row with count := m.count, bytes := m.bytes }, ?_, hst, ?_⟩
    · rw [Table.find_updateWhere, Table.find_eq_some.mpr ⟨hmem, hid⟩, Option.map_some, if_pos howns]
    · show row.push_id.isSome = true
      rw [hpush]
      rfl
  · refine ⟨m.row now, Table.find_eq_some.mpr ⟨Table.mem_insertIgnore.mpr (.inr ⟨rfl, ?_⟩), rfl⟩,
      rfl, rfl⟩
    show s.packs.has m.id = false
    simpa using hhas

/-- `push_index`. -/
theorem rely_pushIndex (w : World) (now : ℤ) (m : PackDto) (rows : List PostedRow) (htidy : s.Tidy)
    (hrows : ∀ r ∈ rows, RowOk w.objs r.row) (hnew : s.packs.has m.id = false → s.FreshPack m.id) :
    Rely w s ((pushIndex now m rows).run s).state := by
  unfold pushIndex
  rw [Span.run_read_bind]
  by_cases hlen : 10000 < rows.length
  · rw [if_pos hlen]
    exact Rely.refl w s
  · rw [if_neg hlen]
    by_cases hopen : (!(s.pushes.find m.push_id).any fun p => p.state = .open) = true
    · rw [if_pos hopen]
      exact Rely.refl w s
    · rw [if_neg hopen, Span.run_exec_bind]
      have hup := rely_upsert w now m htidy hnew
      by_cases h1 : (if s.packs.has m.id then s.packs.countWhere m.owns else 1) = 1
      · rw [if_neg (not_not.mpr h1)]
        exact hup.trans
          (rely_insertObjects w ((upsert_ingesting now h1).not_fixed (hup.tidy htidy)) rows hrows)
      · rw [if_pos h1]
        exact hup

/-- A route whose span is undone does nothing. -/
theorem Rely.landing {α : Type} {x : Span Db Error α} (h : Rely w s (x.run s).state) :
    Rely w s (landing x s) := by
  unfold GitEdge.landing
  split
  · split_ifs
    · exact Rely.refl w s
    · exact h
  · exact h

/-- `commit_meta`. -/
theorem rely_commitMeta (w : World) (env : Env) (now : ℤ) (id : ℕ) (lease : Lease)
    (p : ImportPayload) (c : ImportCursor) (m : PackMeta) (htidy : s.Tidy)
    (howned : s.Owned p.push p.pack) (hinj : s.Injective p.pack)
    (hcount : ∀ r ∈ s.objects, r.pack_id = p.pack → r.idx < m.count) :
    Rely w s ((commitMeta env now id lease p c m).run s).state := by
  by_cases hepoch : c.check_epoch = some s.gc_epoch
  · by_cases hlease : s.leaseHeld id lease = true
    · rw [commitMeta_state env now id lease p c m s hepoch hlease]
      have hpost : Rely w s (postPackMeta p m s) := by
        refine rely_packs w htidy (packStep_update _ _ _ (fun row hrow h => ?_) fun row h => ?_)
        · simp only [Bool.and_eq_true, decide_eq_true_eq] at h
          refine ⟨h.2, ?_⟩
          rw [howned row (Table.find_eq_some.mpr ⟨hrow, h.1⟩)]
          rfl
        · show row.state ≠ _
          rw [h]
          decide
      have hprep : Rely w s (prepared now id lease p m s) := hpost.then_rest rfl
      have hready : (prepared now id lease p m s).Ready p.pack := by
        refine ⟨hinj, fun row hrow hst r hr hrp => ?_⟩
        simp only [prepared, advanceEpoch, postPackMeta, touchLease, Table.find_updateWhere,
          Option.map_eq_some_iff] at hrow
        obtain ⟨row', hrow', rfl⟩ := hrow
        have hid : row'.id = p.pack := (Table.find_eq_some.mp hrow').2
        split_ifs at hst ⊢ with hif
        · exact hcount r hr hrp
        · simp [hid, hst] at hif
      have hcommit := rely_commitPush w env now p.request (hprep.tidy htidy) fun q hq => by
        cases hq
        exact hready
      refine (hprep.trans hcommit).trans ?_
      generalize (commitPush env now p.request).run (prepared now id lease p m s) = o
      refine Rely.trans (t := { o.state with head := o.state.remoteHead p o.res }) ?_ ?_
      · exact Rely.of_same_packs rfl rfl rfl rfl rfl rfl rfl rfl (fun _ h => h) (fun _ h => .inl h)
          (fun _ hq _ => hq) (fun h => h.congr rfl rfl rfl rfl rfl) fun _ _ hx _ => .inl hx
      · unfold dropStaging
        simp only [Span.run_exec_bind, Span.run_exec]
        exact (Rely.refl w _).then_rest rfl
    · unfold commitMeta heartbeat
      simp only [Span.run_read_bind, hepoch, ne_eq, not_true_eq_false, if_false, Span.bind_assoc,
        Span.run_exec_bind, hlease, Bool.false_eq_true, Span.run_fail_bind]
      exact (Rely.refl w s).then_rest rfl
  · unfold commitMeta
    simp only [Span.run_read_bind, ne_eq, hepoch, not_false_eq_true, if_true, Span.run_pure]
    exact Rely.refl w s

/-- A step beside a slice does no more than the slice relies on. -/
theorem Others.rely (h : Others w s t) (htidy : s.Tidy) : Rely w s t := by
  cases h with
  | index now m rows hrows hnew => exact (rely_pushIndex w now m rows htidy hrows hnew).landing
  | commit now req hpack =>
    exact (rely_commitPush w w.env now req htidy fun p hp => (hpack p hp).2).landing
  | importPack now p push hnew => exact rely_packs w htidy (packStep_insert hnew rfl)
  | importRows p rows hrows hp => exact rely_insertObjects w (hp.not_fixed htidy) rows hrows
  | importCommit now id lease p c m hpack =>
    exact rely_commitMeta w w.env now id lease p c m htidy hpack.1 hpack.2.1 hpack.2.2
  | janitorKill now p hp =>
    have hrows : Rely w s (deleteObjects (fun q => q = p) s) := by
      refine rely_objects w _ (fun hok r hr => hok r (Table.mem_deleteWhere.mp hr).1) fun r hr => ?_
      rw [Table.mem_deleteWhere, and_iff_left]
      simp only [decide_eq_false_iff_not]
      rintro rfl
      exact hp.not_fixed htidy hr
    refine hrows.trans
      (rely_packs w (hrows.tidy htidy) (packStep_update _ _ _ (fun row hrow h => ?_)
      fun row _ => by simp))
    simp only [Bool.and_eq_true, decide_eq_true_eq] at h
    obtain ⟨row', hrow', -, hpush⟩ := hp
    have heq : s.packs.find p = some row := Table.find_eq_some.mpr ⟨hrow, h.1⟩
    rw [hrow'] at heq
    cases heq
    exact ⟨h.2, hpush⟩
  | janitorDrop p hrows =>
    refine rely_packs w htidy ⟨fun q row hrow => ?_, fun q row hrow => ?_⟩
    · rw [Table.find_deleteWhere, Option.filter_eq_some_iff] at hrow
      exact .inl hrow.1
    · rw [Table.find_deleteWhere, hrow]
      by_cases hd : row.state = .dead
      · exact .inr (.inl hd)
      · left
        simp [hd]
  | pin name sha hat =>
    exact Rely.of_same_packs rfl rfl rfl rfl rfl rfl rfl rfl (fun _ h => h) (fun _ h => .inl h)
      (fun _ hq _ => hq) (fun h => h.congr rfl rfl rfl rfl rfl)
      fun _ x hx _ => .inl (rootIds_of_pin hat hx)
  | unpin name =>
    exact Rely.of_same_packs rfl rfl rfl rfl rfl rfl rfl rfl (fun _ h => h) (fun _ h => .inl h)
      (fun _ hq _ => hq) (fun h => h.congr rfl rfl rfl rfl rfl)
      fun _ x hx _ => .inl (rootIds_of_unpin hx)
  | bucket r2 h hu hk =>
    exact { Rely.refl w s with
      tidy := fun h => h.congr rfl rfl rfl rfl rfl
      rowsOk := id
      newLive := fun p hp hp' => by
        have hp : s.packLive p = true := hp
        simp [hp] at hp'
      objects := h
      uploads := hu
      expire := hk }
  | rest u => exact Rely.of_rest w s u

end GitEdge
