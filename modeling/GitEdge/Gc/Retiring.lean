import GitEdge.Gc.Handoff
import GitEdge.Gc.Pending
import GitEdge.Gc.Sweep
import GitEdge.Repo.Atomic

/-!
# A sweep loses nothing unless the epoch moves

The slices of `gc_sweep` beside the others. A push or an import that checked its links trusts them
as long as `gc_epoch` stands still, so a retirement that does not move the epoch must not take the
last live row of an object.

`Db.Copied` is what the build leaves: the entries that were built have rows in the new pack, and the
rows of the new pack have rows in the cohort. The fenced swap retires without a move of the epoch
only packs whose entries were all built, and the fallback only packs whose entries were built or
have live rows elsewhere; and the new pack is dropped only while the cohort is whole. Each statement
keeps `Db.Copied`, so a retirement that was stopped may be taken up again. There is one exception:
`wipe_all` deletes the rows of the new pack before it marks the pack dead, and a slice that is
stopped between the two leaves a live pack without rows (`Db.Hollow`), which a later check would
take for the copies. `sweep_lossless` is about all other stops.
-/

namespace GitEdge

open Sql

variable {s t s₀ : Db} {x : Oid} {c : PackRow → Bool} {p : PackId} {α : Type} {w : World}
  {y : Sys Db Error Reply SliceOutcome}

/-! ## Spans that leave the chain alone -/

section Rest

variable {I : Db → Prop} (hrest : ∀ s u : Db, I s → I (s.restOf u))
include hrest

/-- A statement that leaves the tables of the chain alone. -/
theorem keeps_rest {f : Db → Db} (hf : ∀ s, f s = s.restOf (f s)) :
    Span.Keeps I (Span.exec f : Span Db Error Unit) :=
  .exec fun s hs => by
    rw [hf s]
    exact hrest s _ hs

theorem keeps_rest_enqueue (kind : JobKind) (run_at : ℤ) (payload : Payload) :
    Span.Keeps I (Span.exec (enqueue kind run_at payload) : Span Db Error Unit) := by
  refine keeps_rest hrest fun s => ?_
  obtain ⟨jobs, seq, heq⟩ := enqueue_eq kind run_at payload s
  rw [heq]
  rfl

theorem keeps_rest_trigger (env : Env) (now : ℤ) : Span.Keeps I (trigger env now) := by
  refine .bind .read fun db => ?_
  dsimp only
  split
  · exact .pure ()
  · exact .bind (keeps_rest_enqueue hrest _ _ _) fun _ => keeps_rest hrest fun _ => rfl

theorem keeps_rest_releaseHold (env : Env) (now : ℤ) : Span.Keeps I (releaseHold env now) := by
  refine .bind (keeps_rest hrest fun _ => rfl) fun _ => .bind .read fun db => ?_
  split_ifs
  · exact keeps_rest hrest fun _ => rfl
  · exact .pure ()

theorem keeps_rest_heartbeat (id : ℕ) (lease : Lease) (now : ℤ) :
    Span.Keeps I (heartbeat id lease now) := by
  refine .bind .read fun db => .bind (keeps_rest hrest fun _ => rfl) fun _ => ?_
  split_ifs
  · exact .pure ()
  · exact .fail _

theorem keeps_rest_phaseFence (job : GcJob) (now : ℤ) (chain : Option ChainId)
    (want : Option GcPhase) : Span.Keeps I (phaseFence job now chain want) := by
  refine .bind .read fun db => ?_
  split_ifs
  · exact .pure _
  · exact .bind (keeps_rest_heartbeat hrest _ _ now) fun _ => .pure _

end Rest

/-! ## What the walk leaves alone -/

/-- A statement that leaves the packs, the rows, the epoch, the record of the build and the state of
the chain. -/
structure Quiet (s t : Db) : Prop where
  packs : t.packs = s.packs
  objects : t.objects = s.objects
  epoch : t.gc_epoch = s.gc_epoch
  phase : t.gc.phase = s.gc.phase
  started : t.gc.started_at = s.gc.started_at
  newPack : t.gc.new_pack = s.gc.new_pack
  retire : t.gc.retire = s.gc.retire
  built : t.marked.rows.map (fun m => (m.pack_id, m.built)) =
    s.marked.rows.map fun m => (m.pack_id, m.built)
  tidy : s.Tidy → t.Tidy

namespace Quiet

theorem of_rest (s u : Db) : Quiet s (s.restOf u) :=
  ⟨rfl, rfl, rfl, rfl, rfl, rfl, rfl, rfl, fun h => h.congr rfl rfl rfl rfl rfl⟩

/-- A statement that leaves the tables of the chain alone. -/
theorem then_rest (ht : t = s.restOf t) : Quiet s t := by
  rw [ht]
  exact of_rest s t

theorem packLive (h : Quiet s t) (p : PackId) : t.packLive p = s.packLive p := by
  rw [Db.packLive, h.packs, Db.packLive]

theorem cohort (h : Quiet s t) : t.cohort = s.cohort := by
  have hfst := congrArg (List.map Prod.fst) h.built
  rwa [List.map_map, List.map_map] at hfst

theorem mem_marked (h : Quiet s t) {m : MarkedRow} (hm : m ∈ t.marked) :
    ∃ m' ∈ s.marked, m'.pack_id = m.pack_id ∧ m'.built = m.built := by
  have hmem : (m.pack_id, m.built) ∈ t.marked.rows.map fun m => (m.pack_id, m.built) :=
    List.mem_map.mpr ⟨m, hm, rfl⟩
  rw [h.built] at hmem
  obtain ⟨m', hm', heq⟩ := List.mem_map.mp hmem
  exact ⟨m', hm', congrArg Prod.fst heq, congrArg Prod.snd heq⟩

theorem putGc (f : GcMeta → GcMeta) (s : Db) (hphase : (f s.gc).phase = s.gc.phase)
    (hstart : (f s.gc).started_at = s.gc.started_at) (hnew : (f s.gc).new_pack = s.gc.new_pack)
    (hretire : (f s.gc).retire = s.gc.retire) : Quiet s (putGc f s) :=
  ⟨rfl, rfl, rfl, hphase, hstart, hnew, hretire, rfl, fun h => h.congr rfl rfl hnew rfl rfl⟩

theorem of_walk (s : Db) (frontier : Table FrontierRow FrontierRow.sha) (seen : Table Oid id) :
    Quiet s { s with gc_frontier := frontier, gc_seen := seen } :=
  ⟨rfl, rfl, rfl, rfl, rfl, rfl, rfl, rfl, fun h => h.congr rfl rfl rfl rfl rfl⟩

theorem flushBitmap (p : PackId × List Bool) (s : Db) : Quiet s (flushBitmap p s) := by
  have hbuilt : (GitEdge.flushBitmap p s).marked.rows.map (fun m => (m.pack_id, m.built)) =
      s.marked.rows.map fun m => (m.pack_id, m.built) := by
    show (s.marked.rows.map _).map _ = s.marked.rows.map _
    rw [List.map_map]
    refine List.map_congr_left fun m _ => ?_
    by_cases hp : m.pack_id = p.1 <;> simp [hp]
  refine ⟨rfl, rfl, rfl, rfl, rfl, rfl, rfl, hbuilt, fun h => h.step (fun _ row hrow => ?_)
    (fun m hm => ?_) (fun _ hn => hn) (.inl rfl) rfl⟩
  · exact ⟨row, hrow, rfl, id⟩
  · obtain ⟨m', hm', rfl⟩ := mem_flushBitmap.mp hm
    refine ⟨m', hm', ?_⟩
    split_ifs <;> rfl

/-- Rows of `gc_pending` that go. -/
theorem deletePending (c : PendingRow → Bool) (s : Db) :
    Quiet s { s with gc_pending := s.gc_pending.deleteWhere c } :=
  ⟨rfl, rfl, rfl, rfl, rfl, rfl, rfl, rfl, fun h => h.deletePending c⟩

/-- The cursor of a row of a pack that is not ingesting. -/
theorem moveCursor {row : PendingRow} (cursor : ℤ)
    (hlive : ∀ q ∈ s.gc_pending, s.packLive q.pack_id = true) :
    Quiet s (GitEdge.moveCursor row cursor s) := by
  refine ⟨rfl, rfl, rfl, rfl, rfl, rfl, rfl, rfl, fun h => ⟨h.cohort, h.newPack, ?_,
    fun q hq => ?_, fun q hq pack hpack hst => ?_⟩⟩
  · rw [seqs_moveCursor]
    exact h.seqs
  · obtain ⟨q', hq', rfl⟩ := mem_moveCursor.mp hq
    split_ifs <;> exact h.seqLe q' hq'
  · -- The pack of a pending row is live here.
    obtain ⟨q', hq', rfl⟩ := mem_moveCursor.mp hq
    obtain ⟨pack', hpack', hlive'⟩ := packLive_iff.mp (hlive q' hq')
    have hid : s.packs.find q'.pack_id = some pack := by
      split_ifs at hpack <;> exact hpack
    rw [hpack'] at hid
    cases hid
    rw [hlive'] at hst
    cases hst

/-! ## Spans of the walk -/

section Walk

variable {I S : Db → Prop} (hI : ∀ s t, Quiet s t → I s → I t) (w : World) (job : GcJob) (now : ℤ)
  (chain : Option ChainId) (want : Option GcPhase)
include hI

theorem keeps_commitIds (ids misses kids : List Oid) (bits : Touched) (gen : ℕ) (barrier : Bool) :
    Span.Keeps I (commitIds ids misses kids bits gen barrier) := by
  unfold commitIds
  refine .bind (.each fun p _ => .exec fun s hs => hI _ _ (.flushBitmap p s) hs) fun _ => ?_
  refine .bind (.exec fun s hs => hI _ _ (.of_walk s _ _) hs) fun _ => ?_
  refine .bind (.exec fun s hs => hI _ _ (.of_walk s _ _) hs) fun _ => ?_
  refine .bind (.exec fun s hs => hI _ _ (.of_walk s _ _) hs) fun _ => ?_
  split_ifs
  · exact .exec fun s hs => hI _ _ (.of_walk s _ _) hs
  · exact .pure ()

theorem keeps_chunkKids (objs : Objects) (gen : ℕ) (barrier : Bool) (ls : List ObjRow)
    (kids : List Oid) (bits : Touched) :
    Span.Keeps I (chunkKids objs gen barrier ls kids bits) := by
  induction ls generalizing kids bits with
  | nil => exact .pure _
  | cons l ls ih =>
    unfold chunkKids
    split
    · exact .fail _
    · split_ifs
      · exact .bind (keeps_commitIds hI _ _ _ _ _ _) fun _ => ih _ _
      · exact ih _ _

theorem keeps_deltaRound : Span.Keeps I (Span.exec deltaRound : Span Db Error Unit) :=
  .exec fun s hs => hI _ _ (.putGc _ s rfl rfl rfl rfl) hs

theorem keeps_phaseFence : Span.Keeps I (phaseFence job now chain want) :=
  keeps_rest_phaseFence (fun s u hs => hI _ _ (.of_rest s u) hs) job now chain want

/-- A page of a pending pack. The rows of dead packs have gone, so that the cursor that moves is
that of a live one. -/
theorem keeps_pendingPage : Span.Keeps I (pendingPage job now chain want) := by
  refine .bind .read fun db => ?_
  split_ifs
  · exact .pure _
  refine .bind (keeps_phaseFence hI job now chain want) fun held => ?_
  split_ifs
  · exact .pure _
  refine Span.keeps_of_holds fun t ht => ?_
  have hdrop : I (dropDeadPending t) := hI _ _ (.deletePending _ t) ht
  have hlive : ∀ q ∈ (dropDeadPending t).gc_pending, t.packLive q.pack_id = true := fun q hq => by
    simpa using (Table.mem_deleteWhere.mp hq).2
  refine Span.holds_exec_bind hdrop (Span.holds_read_bind.mpr ?_)
  cases hrow : (dropDeadPending t).firstPending with
  | none =>
    exact ((keeps_deltaRound hI).holds hdrop).bind fun _ v hv _ => Span.holds_pure hv trivial
  | some row =>
    refine Span.Holds.bind (P := fun _ _ => True) ?_ fun _ v hv _ => Span.holds_pure hv trivial
    unfold pageSpan
    rw [Span.holds_read_bind]
    refine Span.holds_exec_bind (hI _ _ (.of_walk _ _ _) hdrop) ?_
    refine Span.Holds.bind (P := fun _ _ => True) (Span.holds_exec
      (hI _ _ (.moveCursor _ hlive) (hI _ _ (.of_walk _ _ _) hdrop)) trivial) fun _ v hv _ => ?_
    refine (Span.Keeps.holds ?_ hv).mono fun _ _ _ _ => trivial
    dsimp only
    generalize (!decide (pendingRows ≤ List.length _) && _) = last
    split_ifs
    · exact .bind (.exec fun s hs => hI _ _ (.deletePending _ s) hs) fun _ => keeps_deltaRound hI
    · exact keeps_deltaRound hI

theorem keeps_planBatch (cand : List PackId) (bits : Touched) :
    Span.Keeps I (planBatch w job now chain want true cand bits) := by
  unfold planBatch
  dsimp only
  rw [if_pos rfl]
  refine .bind (keeps_pendingPage hI job now chain want) fun paged => ?_
  split_ifs
  · exact .pure _
  refine .bind .read fun db => ?_
  split_ifs
  on_goal 1 =>
    refine .bind (keeps_phaseFence hI job now chain want) fun held => ?_
    split_ifs
  on_goal 1 => refine .bind (keeps_deltaRound hI) fun _ => ?_
  -- What follows the count of a round only reads.
  all_goals
    refine .bind (.pure _) fun counted => ?_
    split_ifs
    · exact .pure _
    refine .bind .read fun db' => ?_
    split
    · exact .fail _
    · exact .pure _

theorem holdsAt_walkChunks (hs : I s) (gen : ℕ) (chunks : List (List ObjRow)) (bits : Touched)
    (r : Reply) :
    (walkChunks w job chain want gen true chunks bits r).HoldsAt S I s fun _ _ => True := by
  induction chunks generalizing s bits r with
  | nil => exact Process.holdsAt_pure hs trivial
  | cons chunk chunks ih =>
    unfold walkChunks request
    refine ((Process.holdsAt_ask hs).bind fun r t ht _ => ?_ : Process.HoldsAt S I s _
      fun _ _ => True).bind fun r' t ht _ => ?_
    · cases r.err with
      | none => exact Process.holdsAt_pure ht trivial
      | some e => exact Process.holdsAt_fail ht
    refine (Process.holdsAt_keeps (.bind (keeps_phaseFence hI job _ chain want) fun held => ?_)
      ht).bind fun held u hu _ => ?_
    · split_ifs
      · exact .pure _
      · exact .bind (keeps_chunkKids hI _ _ _ _ _ _) fun _ =>
          .bind (keeps_commitIds hI _ _ _ _ _ _) fun _ => .pure _
    · split_ifs
      · exact Process.holdsAt_pure hu trivial
      · exact Process.holdsAt_pure hu trivial
      · exact ih hu _ _

/-- `walk_step` leaves the packs, the rows and the record of the build alone. -/
theorem holdsAt_walkStep (hs : I s) (cand : List PackId) (bits : Touched) (r : Reply) :
    (walkStep w job chain want true cand bits r).HoldsAt S I s fun _ _ => True := by
  unfold walkStep
  refine (Process.holdsAt_keeps (keeps_planBatch hI w job r.now chain want cand bits) hs).bind
    fun plan t ht _ => ?_
  rcases plan with _ | ⟨_ | ⟨f, batch⟩, rows, bits'⟩
  · exact Process.holdsAt_pure ht trivial
  · exact Process.holdsAt_pure ht trivial
  refine (holdsAt_walkChunks hI w job chain want ht _ _ bits' r).bind fun left u hu _ => ?_
  rcases left with _ | ⟨bits₂, r₂⟩
  · exact Process.holdsAt_pure hu trivial
  dsimp only
  rw [if_pos rfl]
  split_ifs
  · exact Process.holdsAt_pure hu trivial
  refine (Process.holdsAt_keeps (.bind (keeps_phaseFence hI job _ chain want) fun held => ?_)
    hu).bind fun held v hv _ => ?_
  · rw [if_pos rfl]
    split_ifs
    · exact .pure _
    · exact .bind (keeps_commitIds hI _ _ _ _ _ _) fun _ => .pure _
  · split_ifs <;> exact Process.holdsAt_pure hv trivial

end Walk

end Quiet

/-! ## The invariant -/

/-- What the build leaves to the sweep. -/
structure Db.Copied (s : Db) : Prop where
  apart : ∀ n, s.gc.new_pack = some n → n ∉ s.cohort
  /-- Only packs of the cohort are retired. -/
  intent : ∀ it, s.gc.retire = some it → ∀ p ∈ it.ids, p ∈ s.cohort
  counted : ∀ p ∈ s.cohort, s.packLive p = true → s.Counted p
  /-- An entry that was built has a row in the new pack. -/
  built : s.newPackLive = true → ∀ m ∈ s.marked, ∀ b, m.built = some b → ∀ r ∈ s.objects,
    r.pack_id = m.pack_id → Bits.get b r.idx = true →
    ∃ n, s.gc.new_pack = some n ∧ ∃ r' ∈ s.objects, r'.pack_id = n ∧ r'.sha = r.sha
  /-- The new pack holds copies only. -/
  sources : s.CohortLive → ∀ n, s.gc.new_pack = some n → ∀ r ∈ s.objects, r.pack_id = n →
    ∃ r' ∈ s.objects, r'.pack_id ∈ s.cohort ∧ r'.sha = r.sha

/-- The new pack is live and has no rows: `wipe_all` was stopped between its two statements about
it. -/
def Db.Hollow (s : Db) : Prop :=
  ∃ n, s.gc.new_pack = some n ∧ s.packLive n = true ∧ ∀ r ∈ s.objects, r.pack_id ≠ n

/-- A state in which a slice may be stopped. -/
def Db.Whole (s : Db) : Prop := ¬ s.Hollow

/-- A sweep that has not moved the epoch: what was live still is. -/
structure Sweeping (s₀ s : Db) : Prop where
  epoch : s.gc_epoch = s₀.gc_epoch
  tidy : s.Tidy
  copied : s.Copied
  live : ∀ x, s₀.Live x → s.Live x

/-- The chain is over, and the epoch did not move. -/
structure Over (s₀ s : Db) : Prop where
  epoch : s.gc_epoch = s₀.gc_epoch
  tidy : s.Tidy
  gc : s.gc.phase = none ∧ s.gc.started_at = none ∧ s.gc.new_pack = none
  live : ∀ x, s₀.Live x → s.Live x

/-- The sweep goes on; once the epoch has moved, nothing is asked of it. -/
def Running (s₀ s : Db) : Prop := s₀.gc_epoch < s.gc_epoch ∨ Sweeping s₀ s

/-- The chain has come to its end. -/
def Ended (s₀ s : Db) : Prop := s₀.gc_epoch < s.gc_epoch ∨ Over s₀ s

/-- Nothing was lost, or the epoch moved. -/
def Lossless (s₀ s : Db) : Prop := Running s₀ s ∨ Over s₀ s

section Quietly

theorem Quiet.live (h : Quiet s t) (hx : s.Live x) : t.Live x := by
  obtain ⟨r, hr, hrx, hl⟩ := hx
  refine ⟨r, h.objects ▸ hr, hrx, ?_⟩
  rw [h.packLive]
  exact hl

/-- What must stay of the packs that the chain names, for the copies to be there. -/
theorem Db.Copied.transfer (hs : s.Copied) (hnew : t.gc.new_pack = s.gc.new_pack)
    (hretire : t.gc.retire = s.gc.retire) (hcohort : t.cohort = s.cohort)
    (hmarked : ∀ m ∈ t.marked, ∃ m' ∈ s.marked, m'.pack_id = m.pack_id ∧ m'.built = m.built)
    (hlive : ∀ p, p ∈ s.cohort ∨ s.gc.new_pack = some p → t.packLive p = true →
      s.packLive p = true)
    (hrows : ∀ r, r.pack_id ∈ s.cohort ∨ s.gc.new_pack = some r.pack_id → (r ∈ t.objects →
      r ∈ s.objects) ∧ (t.packLive r.pack_id = true → r ∈ s.objects → r ∈ t.objects))
    (hcounted : ∀ p, s.packLive p = true → s.Counted p → t.Counted p) : t.Copied where
  apart n hn := by
    rw [hcohort]
    exact hs.apart n (hnew ▸ hn)
  intent it hit p hp := by
    rw [hcohort]
    exact hs.intent it (hretire ▸ hit) p hp
  counted p hp hl := by
    rw [hcohort] at hp
    have hl' := hlive p (.inl hp) hl
    exact hcounted p hl' (hs.counted p hp hl')
  built hall m hm b hb r hr hrm hbit := by
    obtain ⟨m', hm', hid, hbuilt⟩ := hmarked m hm
    have hin : r.pack_id ∈ s.cohort := hrm ▸ hid ▸ List.mem_map.mpr ⟨m', hm', rfl⟩
    have hall' : s.newPackLive = true := by
      unfold Db.newPackLive at hall ⊢
      rw [hnew, Option.all_eq_true] at hall
      rw [Option.all_eq_true]
      exact fun n hn => hlive n (.inr hn) (hall n hn)
    obtain ⟨n, hn, r', hr', hrn, hsha⟩ := hs.built hall' m' hm' b (hbuilt.trans hb) r
      ((hrows r (.inl hin)).1 hr) (hrm.trans hid.symm) hbit
    -- The new pack is live.
    rw [Db.newPackLive, hnew, hn] at hall
    exact ⟨n, hnew ▸ hn, r', (hrows r' (.inr (hrn ▸ hn))).2 (hrn ▸ hall) hr', hrn, hsha⟩
  sources hcl n hn r hr hrn := by
    rw [hnew] at hn
    have hcl' : s.CohortLive := fun p hp => hlive p (.inl hp) (hcl p (hcohort ▸ hp))
    obtain ⟨r', hr', hin, hsha⟩ :=
      hs.sources hcl' n hn r ((hrows r (.inr (hrn ▸ hn))).1 hr) hrn
    exact ⟨r', (hrows r' (.inl hin)).2 (hcl _ (hcohort ▸ hin)) hr', hcohort ▸ hin, hsha⟩

theorem Db.Copied.quiet (hs : s.Copied) (h : Quiet s t) : t.Copied :=
  hs.transfer h.newPack h.retire h.cohort (fun _ => h.mem_marked)
    (fun p _ hl => by rwa [h.packLive] at hl) (fun r _ => by simp [h.objects])
    fun p _ hc => by rwa [Db.Counted, h.packs, h.objects]

theorem Sweeping.quiet (hs : Sweeping s₀ s) (h : Quiet s t) : Sweeping s₀ t where
  epoch := h.epoch.trans hs.epoch
  tidy := h.tidy hs.tidy
  copied := hs.copied.quiet h
  live x hx := h.live (hs.live x hx)

theorem Over.quiet (hs : Over s₀ s) (h : Quiet s t) : Over s₀ t where
  epoch := h.epoch.trans hs.epoch
  tidy := h.tidy hs.tidy
  gc := by
    rw [h.phase, h.started, h.newPack]
    exact hs.gc
  live x hx := h.live (hs.live x hx)

/-- A statement that leaves the epoch alone. -/
theorem Running.step (hs : Running s₀ s) (hepoch : t.gc_epoch = s.gc_epoch)
    (h : Sweeping s₀ s → Sweeping s₀ t) : Running s₀ t :=
  hs.imp (fun hm => hepoch ▸ hm) h

theorem Running.quiet (hs : Running s₀ s) (h : Quiet s t) : Running s₀ t :=
  hs.step h.epoch fun hw => hw.quiet h

theorem Running.bumped (hs : Running s₀ s) : s₀.gc_epoch < (bumpEpoch s).gc_epoch :=
  Int.lt_add_one_of_le (hs.elim le_of_lt fun hw => hw.epoch.ge)

theorem Ended.quiet (hs : Ended s₀ s) (h : Quiet s t) : Ended s₀ t :=
  hs.imp (fun hm => h.epoch ▸ hm) fun ho => ho.quiet h

theorem Ended.lossless (hs : Ended s₀ s) : Lossless s₀ s := hs.imp .inl id

theorem Lossless.quiet (s t : Db) (h : Quiet s t) (hs : Lossless s₀ s) : Lossless s₀ t :=
  hs.imp (fun hr => hr.quiet h) fun ho => ho.quiet h

end Quietly

/-! ## Statements of a retirement -/

theorem packLive_killPacks {now : ℤ} :
    (killPacks c now s).packLive p = true ↔
      ∃ row, s.packs.find p = some row ∧ row.state = .live ∧ c row = false := by
  simp only [packLive_iff, killPacks, Table.find_updateWhere, Option.map_eq_some_iff]
  constructor
  · rintro ⟨row, ⟨row', hrow', rfl⟩, hst⟩
    refine ⟨row', hrow', ?_⟩
    by_cases hc : c row' = true
    · simp [hc] at hst
    · rw [if_neg hc] at hst
      exact ⟨hst, by simpa using hc⟩
  · rintro ⟨row, hrow, hst, hc⟩
    exact ⟨row, ⟨row, hrow, by simp [hc]⟩, hst⟩

theorem packLive_of_killPacks {now : ℤ} (h : (killPacks c now s).packLive p = true) :
    s.packLive p = true := by
  obtain ⟨row, hrow, hst, -⟩ := packLive_killPacks.mp h
  exact packLive_iff.mpr ⟨row, hrow, hst⟩

/-- Packs that die keep their bookkeeping. -/
theorem Db.Tidy.killPacks (h : s.Tidy) (c : PackRow → Bool) (now : ℤ) :
    (killPacks c now s).Tidy := by
  refine h.step (fun p row hrow => ?_) (fun m hm => ⟨m, hm, rfl⟩) (fun _ hn => hn) (.inl rfl) rfl
  simp only [GitEdge.killPacks, Table.find_updateWhere, Option.map_eq_some_iff] at hrow
  obtain ⟨row', hrow', rfl⟩ := hrow
  refine ⟨row', hrow', ?_⟩
  split_ifs
  · refine ⟨rfl, fun hst => ?_⟩
    cases hst
  · exact ⟨rfl, id⟩

/-- The entries of packs that die stay numbered within their counts. -/
theorem Db.Counted.killPacks (h : s.Counted p) (c : PackRow → Bool) (now : ℤ) :
    (killPacks c now s).Counted p := by
  intro row hrow r hr hrp
  simp only [GitEdge.killPacks, Table.find_updateWhere, Option.map_eq_some_iff] at hrow
  obtain ⟨row', hrow', rfl⟩ := hrow
  have hlt := h row' hrow' r hr hrp
  split_ifs <;> exact hlt

section Delete

variable {c : ObjRow → Bool} (hc : ∀ r, c r = true → s.packLive r.pack_id = false)
include hc

/-- A delete of rows of packs that are not live leaves the others. -/
theorem mem_deleteRows {r : ObjRow} (hr : r ∈ s.objects) (hl : s.packLive r.pack_id = true) :
    r ∈ s.objects.deleteWhere c := by
  refine Table.mem_deleteWhere.mpr ⟨hr, Bool.eq_false_iff.mpr fun hcr => ?_⟩
  rw [hc r hcr] at hl
  cases hl

theorem live_deleteRows (hx : s.Live x) :
    Db.Live { s with objects := s.objects.deleteWhere c } x := by
  obtain ⟨r, hr, hrx, hl⟩ := hx
  exact ⟨r, mem_deleteRows hc hr hl, hrx, hl⟩

end Delete

namespace Sweeping

/-- Rows of packs that are not live go. -/
theorem deleteRows (h : Sweeping s₀ s) {c : ObjRow → Bool}
    (hc : ∀ r, c r = true → s.packLive r.pack_id = false) :
    Sweeping s₀ { s with objects := s.objects.deleteWhere c } := by
  refine ⟨h.epoch, h.tidy.congr rfl rfl rfl rfl rfl, ?_,
    fun x hx => live_deleteRows hc (h.live x hx)⟩
  exact h.copied.transfer rfl rfl rfl (fun m hm => ⟨m, hm, rfl, rfl⟩) (fun _ _ hl => hl)
    (fun r _ => ⟨fun hr => (Table.mem_deleteWhere.mp hr).1, fun hl hr => mem_deleteRows hc hr hl⟩)
    fun p _ hcount row hrow r hr => hcount row hrow r (Table.mem_deleteWhere.mp hr).1

theorem deleteNotLive (h : Sweeping s₀ s) (c : PackId → Bool) :
    Sweeping s₀ (deleteNotLive c s) :=
  h.deleteRows fun r hr => by simpa using (Bool.and_eq_true_iff.mp hr).2

/-- Packs of the cohort die, and what they hold is live elsewhere. -/
theorem kill (h : Sweeping s₀ s) (now : ℤ) (hkeep : ∀ x, s.Live x → (killPacks c now s).Live x) :
    Sweeping s₀ (killPacks c now s) := by
  refine ⟨h.epoch, h.tidy.killPacks c now, ?_, fun x hx => hkeep x (h.live x hx)⟩
  exact h.copied.transfer rfl rfl rfl (fun m hm => ⟨m, hm, rfl, rfl⟩)
    (fun _ _ => packLive_of_killPacks) (fun _ _ => ⟨id, fun _ => id⟩) fun p _ hc =>
    hc.killPacks c now

/-- The new pack is dropped with its rows, while the cohort is whole or the pack is not live. -/
theorem dropNew (h : Sweeping s₀ s) {n : PackId} (hn : s.gc.new_pack = some n) (now : ℤ)
    (hwhole : s.packLive n = true → s.CohortLive) :
    Sweeping s₀ (killPacks (fun r => r.id = n && (r.state = .ingesting || r.state = .live)) now
      (deleteObjects (fun p => p = n) s)) := by
  set c : PackRow → Bool := fun r => r.id = n && (r.state = .ingesting || r.state = .live) with hc
  -- Another pack stays live, and its rows stay.
  have hother : ∀ p, p ≠ n → s.packLive p = true →
      (killPacks c now (deleteObjects (fun p => p = n) s)).packLive p = true := by
    intro p hp hl
    obtain ⟨row, hrow, hst⟩ := packLive_iff.mp hl
    have hid : row.id = p := (Table.find_eq_some.mp hrow).2
    exact packLive_killPacks.mpr ⟨row, hrow, hst, by simp [hc, hid, hp]⟩
  have hgone : ¬ (killPacks c now (deleteObjects (fun p => p = n) s)).packLive n = true := by
    intro hl
    obtain ⟨row, hrow, hst, hcr⟩ := packLive_killPacks.mp hl
    have hid : row.id = n := (Table.find_eq_some.mp hrow).2
    simp [hc, hid, hst] at hcr
  have hstay : ∀ r ∈ s.objects, r.pack_id ≠ n → r ∈ s.objects.deleteWhere fun o => o.pack_id = n :=
    fun r hr hrn => Table.mem_deleteWhere.mpr ⟨hr, by simpa using hrn⟩
  refine ⟨h.epoch, (h.tidy.congr rfl rfl rfl rfl rfl : (deleteObjects _ s).Tidy).killPacks c now,
    h.copied.transfer rfl rfl rfl (fun m hm => ⟨m, hm, rfl, rfl⟩)
      (fun _ _ hl => packLive_of_killPacks (s := deleteObjects (fun p => p = n) s) hl)
      (fun r _ => ⟨fun hr => (Table.mem_deleteWhere.mp hr).1,
        fun hl hr => hstay r hr fun hrn => hgone (hrn ▸ hl)⟩) fun p _ hcount => ?_,
    fun x hx => ?_⟩
  · refine Db.Counted.killPacks (fun row hrow r hr => ?_) c now
    exact hcount row hrow r (Table.mem_deleteWhere.mp hr).1
  · obtain ⟨r, hr, hrx, hl⟩ := h.live x hx
    by_cases hrn : r.pack_id = n
    · -- A row of the new pack is a copy of one in the cohort.
      have hcl := hwhole (hrn ▸ hl)
      obtain ⟨r', hr', hcohort, hsha⟩ := h.copied.sources hcl n hn r hr hrn
      have hne : r'.pack_id ≠ n := fun heq => h.copied.apart n hn (heq ▸ hcohort)
      exact ⟨r', hstay r' hr' hne, hsha.trans hrx, hother _ hne (hcl _ hcohort)⟩
    · exact ⟨r, hstay r hr hrn, hrx, hother _ hrn hl⟩

/-- The packs to retire are recorded. -/
theorem putRetire (h : Sweeping s₀ s) (it : Option RetireIntent)
    (hids : ∀ i, it = some i → ∀ p ∈ i.ids, p ∈ s.cohort) :
    Sweeping s₀ (putGc (fun g => { g with retire := it }) s) where
  epoch := h.epoch
  tidy := h.tidy.congr rfl rfl rfl rfl rfl
  copied := ⟨h.copied.apart, hids, h.copied.counted, h.copied.built, h.copied.sources⟩
  live := h.live

end Sweeping

/-- The chain is forgotten. -/
theorem Over.of_clearGc (hepoch : s.gc_epoch = s₀.gc_epoch) (htidy : s.Tidy)
    (hlive : ∀ x, s₀.Live x → s.Live x) : Over s₀ (clearGc s) where
  epoch := hepoch
  tidy := htidy.step (fun _ row hrow => ⟨row, hrow, rfl, id⟩) (fun m hm => ⟨m, hm, rfl⟩)
    (fun _ hn => nomatch hn) (.inl rfl) rfl
  gc := ⟨rfl, rfl, rfl⟩
  live := hlive

/-! ## What a retirement may take -/

/-- `cohort_live` counts the live packs of the cohort. -/
theorem cohortLive_iff : s.cohortLive = true ↔ s.marked.size ≠ 0 ∧ s.CohortLive := by
  set live := (s.packs.rows.filter fun p => p.id ∈ s.cohort && p.state = .live).map
    (·.id) with hlive
  have hmem : ∀ p, p ∈ live ↔ p ∈ s.cohort ∧ s.packLive p = true := by
    intro p
    simp only [hlive, List.mem_map, List.mem_filter, packLive_iff, Table.find_eq_some,
      Bool.and_eq_true, decide_eq_true_eq]
    constructor
    · rintro ⟨row, ⟨hrow, hin, hst⟩, rfl⟩
      exact ⟨hin, row, ⟨hrow, rfl⟩, hst⟩
    · rintro ⟨hin, row, ⟨hrow, rfl⟩, hst⟩
      exact ⟨row, ⟨hrow, hin, hst⟩, rfl⟩
  have hnodup : live.Nodup := s.packs.nodup.sublist (List.filter_sublist.map _)
  have hcount : s.cohortLive = true ↔ s.marked.size ≠ 0 ∧ live.length = s.cohort.length := by
    simp [Db.cohortLive, hlive, Db.cohort, Table.countWhere, Table.size]
  rw [hcount]
  refine and_congr_right fun _ => ⟨fun hlen p hp => ?_, fun hcl => ?_⟩
  · -- As many distinct ids within the cohort as the cohort has are all of it.
    have hperm := (hnodup.subperm fun p hp => ((hmem p).mp hp).1).perm_of_length_le hlen.ge
    exact ((hmem p).mp (hperm.mem_iff.mpr hp)).2
  · refine ((List.perm_ext_iff_of_nodup hnodup s.marked.nodup).mpr fun p => ?_).length_eq
    exact (hmem p).trans (and_iff_left_of_imp (hcl p))

/-- A bitmap that is not lossy has each bit below the count. -/
theorem get_of_not_lossy {b : List Bool} {count i : ℕ} (h : bitmapLossy b count = false)
    (hi : i < count) : Bits.get b i = true := by
  have hcount : count ≤ (b.take count).count true := by
    exact Nat.not_lt.mp (of_decide_eq_false h)
  have hlen : (b.take count).length ≤ count := List.length_take_le count b
  -- All bits that were taken are set, and there are as many as the count says.
  have hall : (b.take count).count true = (b.take count).length :=
    Nat.le_antisymm List.count_le_length (hlen.trans hcount)
  have hlt : i < (b.take count).length := by omega
  have hset := List.count_eq_length.mp hall _ (List.getElem_mem hlt)
  rw [List.getElem_take] at hset
  rw [List.length_take] at hlt
  rw [Bits.get, List.getD_eq_getElem?_getD, List.getElem?_eq_getElem (by omega), Option.getD_some,
    ← hset]

theorem mem_cohortPacks {c : MarkedRow × PackRow} (h : c ∈ s.cohortPacks) :
    c.1 ∈ s.marked ∧ s.packs.find c.1.pack_id = some c.2 := by
  obtain ⟨m, hm, hfind⟩ := List.mem_filterMap.mp h
  obtain ⟨row, hrow, rfl⟩ := Option.map_eq_some_iff.mp hfind
  exact ⟨hm, hrow⟩

/-- Each live row of the packs has a live row of the same object elsewhere. -/
def Db.Spared (s : Db) (ids : List PackId) : Prop :=
  ∀ r ∈ s.objects, r.pack_id ∈ ids → s.packLive r.pack_id = true →
    ∃ r' ∈ s.objects, r'.sha = r.sha ∧ s.packLive r'.pack_id = true ∧ r'.pack_id ∉ ids

section Spared

variable {ids : List PackId}

/-- An entry that was built has a live row outside the cohort. -/
theorem Db.Copied.copy (h : s.Copied) (hlive : s.newPackLive = true)
    (hids : ∀ p ∈ ids, p ∈ s.cohort) {m : MarkedRow} (hm : m ∈ s.marked) {b : List Bool}
    (hb : m.built = some b) {r : ObjRow} (hr : r ∈ s.objects) (hrm : r.pack_id = m.pack_id)
    (hbit : Bits.get b r.idx = true) :
    ∃ r' ∈ s.objects, r'.sha = r.sha ∧ s.packLive r'.pack_id = true ∧ r'.pack_id ∉ ids := by
  obtain ⟨n, hn, r', hr', hrn, hsha⟩ := h.built hlive m hm b hb r hr hrm hbit
  have hnl : s.packLive n = true := by rwa [Db.newPackLive, hn] at hlive
  refine ⟨r', hr', hsha, hrn ▸ hnl, fun hmem => ?_⟩
  exact h.apart n hn (hids n (hrn ▸ hmem))

/-- The fenced swap takes packs of the cohort. -/
theorem mem_swapIntent (h : p ∈ s.swapIntent.ids) : p ∈ s.cohort := by
  obtain ⟨c, hc, rfl⟩ := List.mem_map.mp h
  exact List.mem_map.mpr ⟨c.1, (mem_cohortPacks (List.mem_filter.mp hc).1).1, rfl⟩

/-- A fenced swap that is not lossy takes packs whose entries were all built. -/
theorem Db.Copied.spared_swap (h : s.Copied) (hlive : s.newPackLive = true)
    (hlossy : s.swapIntent.lossy = false) : s.Spared s.swapIntent.ids := by
  intro r hr hrp hl
  obtain ⟨c, hc, hid⟩ := List.mem_map.mp hrp
  obtain ⟨hpacks, hswap⟩ := List.mem_filter.mp hc
  obtain ⟨hm, hrow⟩ := mem_cohortPacks hpacks
  rw [MarkedRow.swappable, Option.any_eq_true] at hswap
  obtain ⟨b, hb, -⟩ := hswap
  have hfull : bitmapLossy b c.2.count = false := by
    have hnone := (List.any_eq_false.mp hlossy) c hc
    simpa [hb] using hnone
  have hidx : r.idx < c.2.count := by
    have hcount := h.counted r.pack_id (mem_swapIntent hrp) hl
    exact hcount c.2 (hid ▸ hrow) r hr rfl
  exact h.copy hlive (fun p => mem_swapIntent) hm hb hr hid.symm (get_of_not_lossy hfull hidx)

theorem mem_spareIds (h : p ∈ s.spareSet.map fun c => c.1.pack_id) : p ∈ s.cohort := by
  obtain ⟨c, hc, rfl⟩ := List.mem_map.mp h
  exact List.mem_map.mpr ⟨c.1, (mem_cohortPacks (List.mem_filter.mp hc).1).1, rfl⟩

/-- The fallback takes packs whose entries were built, or have live rows outside the cohort. -/
theorem Db.Copied.spared_fallback (h : s.Copied) (hlive : s.newPackLive = true) :
    s.Spared (s.spareSet.map fun c => c.1.pack_id) := by
  intro r hr hrp hl
  obtain ⟨c, hc, hid⟩ := List.mem_map.mp hrp
  obtain ⟨hpacks, hspare⟩ := List.mem_filter.mp hc
  obtain ⟨hm, -⟩ := mem_cohortPacks hpacks
  rw [Db.spare, Option.any_eq_true] at hspare
  obtain ⟨b, hb, hall⟩ := hspare
  by_cases hneed : r.idx ∈ s.needed c.1.pack_id
  · have hbit : Bits.get b r.idx = true := List.all_eq_true.mp hall _ hneed
    exact h.copy hlive (fun p => mem_spareIds) hm hb hr hid.symm hbit
  · -- Some live row outside the cohort is why the entry is not needed.
    have helse : (s.objects.rows.any fun o' => o'.sha = r.sha && s.packLive o'.pack_id &&
        o'.pack_id ∉ s.cohort) = true := by
      by_contra hno
      refine hneed (List.mem_map.mpr ⟨r, Table.mem_select.mpr ⟨hr, ?_⟩, rfl⟩)
      rw [Bool.not_eq_true] at hno
      rw [Bool.and_eq_true, decide_eq_true_eq, hno]
      exact ⟨hid.symm, rfl⟩
    obtain ⟨r', hr', hcond⟩ := List.any_eq_true.mp helse
    simp only [Bool.and_eq_true, decide_eq_true_eq] at hcond
    exact ⟨r', hr', hcond.1.1, hcond.1.2, fun hmem => hcond.2 (mem_spareIds hmem)⟩

/-- What is live stays live when packs die that are spared. -/
theorem Db.Spared.live (h : s.Spared ids) (hc : ∀ row, c row = true → row.id ∈ ids) (now : ℤ)
    (hx : s.Live x) : (killPacks c now s).Live x := by
  have hstay : ∀ p, p ∉ ids → s.packLive p = true → (killPacks c now s).packLive p = true := by
    intro p hp hl
    obtain ⟨row, hrow, hst⟩ := packLive_iff.mp hl
    have hid : row.id = p := (Table.find_eq_some.mp hrow).2
    refine packLive_killPacks.mpr ⟨row, hrow, hst, Bool.eq_false_iff.mpr fun hcr => hp ?_⟩
    exact hid ▸ hc row hcr
  obtain ⟨r, hr, hrx, hl⟩ := hx
  by_cases hmem : r.pack_id ∈ ids
  · obtain ⟨r', hr', hsha, hl', hne⟩ := h r hr hmem hl
    exact ⟨r', hr', hsha.trans hrx, hstay _ hne hl'⟩
  · exact ⟨r, hr, hrx, hstay _ hmem hl⟩

/-- After that none of the packs is live. -/
theorem not_live_of_retired (ids : List PackId) (now : ℤ) (s : Db) (hp : p ∈ ids) :
    (killPacks (fun p => p.id ∈ ids && p.state = .live) now s).packLive p = false := by
  rw [Bool.eq_false_iff]
  intro hl
  obtain ⟨row, hrow, hst, hc⟩ := packLive_killPacks.mp hl
  have hid : row.id = p := (Table.find_eq_some.mp hrow).2
  simp [hid, hp, hst] at hc

end Spared

/-! ## Spans of the sweep -/

theorem Over.wiped (h : Over s₀ s) (hw : Wiped s t) : Over s₀ t where
  epoch := hw.epoch.trans h.epoch
  tidy := by
    refine h.tidy.step (fun p row hrow => ⟨row, hw.packs ▸ hrow, rfl, id⟩)
      (fun m hm => ⟨m, hw.marked m hm, rfl⟩) (fun n hn => ?_) hw.pending hw.seq
    rcases hw.gc with hgc | hgc
    · exact hgc ▸ hn
    · rw [hgc] at hn
      cases hn
  gc := by
    rcases hw.gc with hgc | hgc
    · exact hgc ▸ h.gc
    · rw [hgc]
      exact ⟨rfl, rfl, rfl⟩
  live x hx := by
    obtain ⟨r, hr, hrx, hl⟩ := h.live x hx
    refine ⟨r, hw.objects ▸ hr, hrx, ?_⟩
    rwa [Db.packLive, hw.packs]

/-- A span that loses nothing from `s` on, unless the epoch moves. -/
abbrev Sparing (s₀ s : Db) (x : Span Db Error α) : Prop :=
  x.HoldsAt Db.Whole (Lossless s₀) s fun _ _ => True

namespace Ended

theorem rest (s u : Db) (h : Ended s₀ s) : Ended s₀ (s.restOf u) := h.quiet (.of_rest s u)

/-- The tables of the chain go. -/
theorem wiped (h : Ended s₀ s) (hw : Wiped s t) : Ended s₀ t :=
  h.imp (fun hm => hw.epoch ▸ hm) fun ho => ho.wiped hw

theorem keeps_endOfChain (env : Env) (now : ℤ) (stats : ℕ × ℕ × ℕ × ℕ) (lossy fallback : Bool)
    (sm : SwapMeta) : Span.Keeps (Ended s₀) (endOfChain env now stats lossy fallback sm) := by
  refine .bind (keeps_rest rest fun _ => rfl) fun _ => .bind (keeps_rest rest fun _ => rfl) fun _ =>
    .bind (keeps_rest rest fun _ => rfl) fun _ => .bind (.exec fun s h => ?_) fun _ =>
    .bind (keeps_wipeScratch fun _ _ hw h => h.wiped hw) fun _ =>
    .bind (keeps_rest_trigger rest env now) fun _ => keeps_rest_releaseHold rest env now
  exact h.wiped ⟨rfl, rfl, rfl, rfl, .inr rfl, fun _ hm => hm, .inl rfl, rfl⟩

/-- A span at the end of the chain. -/
theorem holdsAt {x : Span Db Error α} (hx : Span.Keeps (Ended s₀) x) (h : Ended s₀ s) :
    Sparing s₀ s x :=
  ((hx.holds h).weaken fun _ => lossless).holdsAt.mono fun _ _ _ _ => trivial

end Ended

section Spans

theorem Lossless.holdsAt_pure {a : α} (h : Lossless s₀ s) :
    Sparing s₀ s (pure a : Span Db Error α) :=
  Span.Holds.holdsAt (Span.holds_pure (P := fun _ _ => True) h trivial)

namespace Running

variable (env : Env) (now : ℤ) (sm : SwapMeta)

/-- A statement that keeps the sweep. -/
theorem holdsAt_exec {f : Db → Db} (h : Running s₀ (f s)) :
    (Span.exec f : Span Db Error Unit).HoldsAt Db.Whole (Lossless s₀) s fun _ t => Running s₀ t :=
  (Span.holds_exec (.inl h) h).holdsAt

/-- The statement at which the chain is over. -/
theorem holdsAt_clearGc (h : Running s₀ s) :
    (Span.exec clearGc : Span Db Error Unit).HoldsAt Db.Whole (Lossless s₀) s fun _ t =>
    Ended s₀ t := by
  have hend : Ended s₀ (clearGc s) := h.imp id fun hw => .of_clearGc hw.epoch hw.tidy hw.live
  exact (Span.holds_exec hend.lossless hend).holdsAt

theorem holdsAt_endOfChain (h : Running s₀ s) (stats : ℕ × ℕ × ℕ × ℕ) (lossy fallback : Bool) :
    Sparing s₀ s (endOfChain env now stats lossy fallback sm) := by
  unfold endOfChain
  refine (holdsAt_exec (h.quiet (.then_rest rfl))).bind fun _ t _ ht => ?_
  refine (holdsAt_exec (ht.quiet (.then_rest rfl))).bind fun _ u _ hu => ?_
  refine (holdsAt_exec (hu.quiet (.then_rest rfl))).bind fun _ v _ hv => ?_
  refine hv.holdsAt_clearGc.bind fun _ o _ ho => ?_
  exact Ended.holdsAt (.bind (keeps_wipeScratch fun _ _ hw h => h.wiped hw) fun _ => .bind
    (keeps_rest_trigger Ended.rest env now) fun _ => keeps_rest_releaseHold Ended.rest env now) ho

theorem holdsAt_wipeNewPack (h : Running s₀ s) :
    (wipeNewPack now).HoldsAt Db.Whole (Lossless s₀) s fun _ t => Running s₀ t := by
  unfold wipeNewPack
  rw [Span.holdsAt_read_bind]
  cases hn : s.gc.new_pack with
  | none => exact (Span.holds_pure (P := fun _ t => Running s₀ t) (.inl h) h).holdsAt
  | some n =>
    dsimp only
    split_ifs with hkeep
    · exact holdsAt_exec (h.step rfl fun hw => hw.deleteNotLive _)
    · have hwhole : s.packLive n = true → s.CohortLive := by
        intro hl
        exact (cohortLive_iff.mp (by simpa [hl] using hkeep)).2
      refine Span.holdsAt_exec_bind (fun hstop => ?_)
        (holdsAt_exec (h.step rfl fun hw => hw.dropNew hn now hwhole))
      -- Between the two statements the pack has no rows, so the slice stops here only if it is
      -- not live.
      refine .inl (h.step rfl fun hw => hw.deleteRows fun r hr => ?_)
      rw [Bool.eq_false_iff, of_decide_eq_true hr]
      intro hl
      refine hstop ⟨n, hn, hl, fun r hr hrn => ?_⟩
      have hne := of_decide_eq_false (Table.mem_deleteWhere.mp hr).2
      exact hne hrn

theorem holdsAt_wipeAll (h : Running s₀ s) :
    (wipeAll now).HoldsAt Db.Whole (Lossless s₀) s fun _ t => Ended s₀ t := by
  have hretired : wipeRetired.HoldsAt Db.Whole (Lossless s₀) s fun _ t => Running s₀ t := by
    unfold wipeRetired
    rw [Span.holdsAt_read_bind]
    cases s.gc.retire with
    | none => exact (Span.holds_pure (P := fun _ t => Running s₀ t) (.inl h) h).holdsAt
    | some it => exact holdsAt_exec (h.step rfl fun hw => hw.deleteNotLive _)
  unfold wipeAll
  refine hretired.bind fun _ t _ ht => (ht.holdsAt_wipeNewPack now).bind fun _ u _ hu => ?_
  refine hu.holdsAt_clearGc.bind fun _ o _ ho => ?_
  exact (((keeps_wipeScratch fun _ _ hw h => Ended.wiped h hw).holds ho).weaken
    fun _ => Ended.lossless).holdsAt

theorem holdsAt_abort (h : Running s₀ s) : Sparing s₀ s (abort env now) := by
  refine Span.holdsAt_read_bind.mpr ?_
  refine (h.holdsAt_wipeAll now).bind fun _ t ht hend => ?_
  split_ifs
  · exact ht.holdsAt_pure
  · exact Ended.holdsAt (.bind (keeps_rest_enqueue Ended.rest _ _ _) fun _ => .pure _) hend

theorem holdsAt_wipePath (h : Running s₀ s) (fallback : Bool) :
    Sparing s₀ s (wipePath env now sm fallback) := by
  refine Span.holdsAt_read_bind.mpr ?_
  have hrows : Running s₀ (deleteNotLive (fun p => p ∈ s.cohort) s) :=
    h.step rfl fun hw => hw.deleteNotLive _
  refine Span.holdsAt_exec_bind (fun _ => .inl hrows) ?_
  refine (hrows.holdsAt_wipeAll now).bind fun _ u _ hu => ?_
  exact Ended.holdsAt (Ended.keeps_endOfChain env now _ _ _ sm) hu

theorem holdsAt_retireFinish (h : Running s₀ s) {it : RetireIntent}
    (hspared : Sweeping s₀ s → s.Spared it.ids) : Sparing s₀ s (retireFinish env now it sm) := by
  unfold retireFinish
  set u := killPacks (fun p => p.id ∈ it.ids && p.state = .live) now s with hu
  have hkilled : Running s₀ u :=
    h.step rfl fun hw => hw.kill now fun x hx => (hspared hw).live (by simp +contextual) now hx
  refine Span.holdsAt_exec_bind (fun _ => .inl hkilled) ?_
  rw [Span.holdsAt_read_bind]
  have hdropped : Running s₀ (deleteObjects (fun p => p ∈ it.ids) u) := hkilled.step rfl
    fun hw => hw.deleteRows fun r hr => not_live_of_retired it.ids now s (of_decide_eq_true hr)
  exact (holdsAt_exec hdropped).bind fun _ t _ ht => ht.holdsAt_endOfChain env now sm _ _ _

theorem holdsAt_retireSpan (h : Running s₀ s) {it : RetireIntent}
    (hids : ∀ p ∈ it.ids, p ∈ s.cohort)
    (hspared : it.lossy = false → Sweeping s₀ s → s.Spared it.ids) :
    Sparing s₀ s (retireSpan env now it sm) := by
  set u := putGc (fun g => { g with retire := some it }) s with hu
  have hput : Running s₀ u :=
    h.step rfl fun hw => hw.putRetire _ fun i hi => Option.some.inj hi ▸ hids
  unfold retireSpan
  refine Span.holdsAt_exec_bind (fun _ => .inl hput) ?_
  dsimp only
  split_ifs with hlossy
  · -- The epoch moves before the first pack dies.
    have hbump := hput.bumped
    refine Span.holdsAt_exec_bind (fun _ => .inl (.inl hbump)) ?_
    exact holdsAt_retireFinish env now sm (.inl hbump) fun hw => absurd hw.epoch hbump.ne'
  · refine hput.holdsAt_retireFinish env now sm fun hw => ?_
    rcases h with hm | hs
    · exact absurd hw.epoch (ne_of_gt hm)
    · exact hspared (by simpa using hlossy) hs

theorem holdsAt_fencedSwap (h : Running s₀ s) : Sparing s₀ s (fencedSwap env now sm) := by
  refine Span.holdsAt_read_bind.mpr ?_
  split_ifs with hwipe
  · exact h.holdsAt_wipePath env now sm false
  · have hlive : s.newPackLive = true := by
      simp only [Bool.or_eq_true, not_or, Bool.not_eq_true', Bool.not_eq_false] at hwipe
      exact hwipe.1.2
    exact h.holdsAt_retireSpan env now sm (fun p => mem_swapIntent)
      fun hlossy hw => hw.copied.spared_swap hlive hlossy

theorem holdsAt_fallbackSpan (h : Running s₀ s) : Sparing s₀ s (fallbackSpan env now sm) := by
  refine Span.holdsAt_read_bind.mpr ?_
  split_ifs with hwipe
  · exact h.holdsAt_wipePath env now sm true
  · have hlive : s.newPackLive = true := by
      simp only [Bool.or_eq_true, not_or, Bool.not_eq_true', Bool.not_eq_false] at hwipe
      exact hwipe.1.1.2
    exact h.holdsAt_retireSpan env now sm (fun p => mem_spareIds)
      fun _ hw => hw.copied.spared_fallback hlive

theorem holdsAt_resumeIntent (h : Running s₀ s) (it : RetireIntent) :
    Sparing s₀ s (resumeIntent env now it) := by
  refine Span.holdsAt_read_bind.mpr ?_
  dsimp only
  split_ifs with hall hnone
  · -- None of the packs died: the check decides again.
    exact (holdsAt_exec (h.step rfl fun hw => hw.putRetire none fun _ hi => nomatch hi)).bind
      fun _ t ht _ => ht.holdsAt_pure
  · -- All of them died, so there is nothing left to spare.
    have hdead : s.Spared it.ids := by
      intro r hr hrp hl
      obtain ⟨row, hrow, hst⟩ := packLive_iff.mp hl
      obtain ⟨hmem, hid⟩ := Table.find_eq_some.mp hrow
      have hcount := (Bool.and_eq_true_iff.mp hnone).2
      have hzero := List.length_eq_zero_iff.mp (of_decide_eq_true hcount)
      have hin : row ∈ s.packs.rows.filter fun p => p.id ∈ it.ids && p.state = .live :=
        List.mem_filter.mpr ⟨hmem, by simp [hid, hrp, hst]⟩
      exact absurd hin (hzero ▸ List.not_mem_nil)
    exact (h.holdsAt_retireFinish env now _ fun _ => hdead).bind fun _ t ht _ => ht.holdsAt_pure
  · exact (h.holdsAt_wipePath env now _ _).bind fun _ t ht _ => ht.holdsAt_pure

end Running

/-! ## Slices -/

/-- A span behind the fence of the sweep. -/
theorem Lossless.holdsAt_fenced (h : Lossless s₀ s) (job : GcJob) (now : ℤ) (chain : Option ChainId)
    {x : Span Db Error α} {a : α} (hx : ∀ t, Running s₀ t → Sparing s₀ t x) : Sparing s₀ s
      (phaseFence job now chain (some .sweep) >>= fun held => if !held then pure a else x) := by
  rcases h with h | h
  · have hfence : (phaseFence job now chain (some .sweep)).HoldsAt Db.Whole (Lossless s₀) s
        fun _ t => Running s₀ t :=
      (((keeps_rest_phaseFence (fun s u hs => Running.quiet hs (.of_rest s u)) job now chain
        _).holds h).weaken fun _ => .inl).holdsAt
    refine hfence.bind fun held t ht hr => ?_
    split_ifs
    · exact ht.holdsAt_pure
    · exact hx t hr
  · -- The phase is not the sweep's.
    have hfence : (phaseFence job now chain (some .sweep)).HoldsAt Db.Whole (Lossless s₀) s
        fun held t => held = false := by
      unfold phaseFence
      rw [Span.holdsAt_read_bind, if_pos (by simp [h.gc.1])]
      exact Span.Holds.holdsAt (Span.holds_pure (.inr h) rfl)
    refine hfence.bind fun held t ht hP => ?_
    rw [hP]
    exact ht.holdsAt_pure

namespace Lossless

variable (env : Env) (job : GcJob) (now : ℤ) (chain : Option ChainId)

theorem holdsAt_retireResume (h : Lossless s₀ s) :
    Sparing s₀ s (retireResume env job now chain) := by
  refine Span.holdsAt_read_bind.mpr ?_
  cases s.gc.retire with
  | none => exact h.holdsAt_pure
  | some it =>
    exact h.holdsAt_fenced job now chain fun t ht => ht.holdsAt_resumeIntent env now it

theorem holdsAt_swapCheck (h : Lossless s₀ s) : Sparing s₀ s (swapCheck env job now chain) := by
  refine h.holdsAt_fenced job now chain fun t ht => ?_
  have hdrop : Running s₀ (dropDeadPending t) := ht.quiet (.deletePending _ t)
  refine Span.holdsAt_exec_bind (fun _ => .inl hdrop) (Span.holdsAt_read_bind.mpr ?_)
  generalize dropDeadPending t = u at hdrop ⊢
  have hput : ∀ sm, Running s₀ (putSwap sm u) := fun sm =>
    hdrop.quiet (.putGc _ u rfl rfl rfl rfl)
  dsimp only
  split_ifs
  · refine Span.holdsAt_exec_bind (fun _ => .inl (hput _)) ?_
    exact ((hput _).holdsAt_fencedSwap env now _).bind fun _ v hv _ => hv.holdsAt_pure
  · exact (hdrop.holdsAt_fallbackSpan env now _).bind fun _ v hv _ => hv.holdsAt_pure
  · exact Span.holdsAt_exec_bind (fun _ => .inl (hput _)) (holdsAt_pure (.inl (hput _)))

theorem holdsAt_sweepYield (h : Lossless s₀ s) : Sparing s₀ s (sweepYield job now chain) :=
  h.holdsAt_fenced job now chain fun t ht =>
    (Running.holdsAt_exec (ht.quiet (.putGc _ t rfl rfl rfl rfl))).mono fun _ _ _ _ => trivial

/-- `pr5_sweep` moves the epoch before its packs die. -/
theorem holdsAt_pr5Sweep (h : Running s₀ s) : Sparing s₀ s (pr5Sweep env now) := by
  refine Span.holdsAt_read_bind.mpr ?_
  cases s.refsMoved with
  | error e => exact Span.Holds.holdsAt (Span.holds_fail (.inl h))
  | ok moved =>
    cases moved with
    | true => exact h.holdsAt_abort env now
    | false =>
      have hbump := h.bumped
      refine Span.holdsAt_exec_bind (fun _ => .inl (.inl hbump)) ?_
      refine (((Span.Keeps.holds (I := fun t : Db => s₀.gc_epoch < t.gc_epoch) ?_ hbump).weaken
        fun _ hm => Or.inl (Or.inl hm)).holdsAt).mono fun _ _ _ _ => trivial
      -- No statement after that lowers it.
      exact .bind (.exec fun _ h => h) fun _ => .bind (.exec fun _ h => h) fun _ =>
        .bind (.exec fun _ h => h) fun _ => .bind (.exec fun _ h => h) fun _ =>
        .bind (keeps_wipeScratch fun _ _ hw hm => hw.epoch ▸ hm) fun _ => .pure _

theorem holdsAt_sweepLoop (h : Lossless s₀ s) (w : World) (cand : List PackId) (rounds : ℕ)
    (bits : Touched) (r : Reply) :
    (sweepLoop w job chain cand rounds bits r).HoldsAt Db.Whole (Lossless s₀) s
      fun _ _ => True := by
  induction rounds generalizing s bits r with
  | zero => exact Process.holdsAt_fail h
  | succ n ih =>
    unfold sweepLoop
    split_ifs
    · exact (Process.holdsAt_ofSpan (h.holdsAt_sweepYield job r.now chain)).bind
        fun _ t ht _ => Process.holdsAt_pure ht trivial
    · refine (Process.holdsAt_ofSpan (h.holdsAt_swapCheck w.env job r.now chain)).bind
        fun check t ht _ => ?_
      cases check with
      | done => exact Process.holdsAt_pure ht trivial
      | finished => exact Process.holdsAt_pure ht trivial
      | drain =>
        refine (Quiet.holdsAt_walkStep quiet w job chain _ ht cand bits r).bind
          fun step u hu _ => ?_
        rcases step with ⟨_ | _ | _, bits', r'⟩
        · exact Process.holdsAt_pure hu trivial
        · exact ih hu bits' r'
        · exact ih hu bits' r'

/-- A slice of the sweep. -/
theorem holdsAt_gcSweep (h : Lossless s₀ s) (w : World) (rounds : ℕ) (r : Reply) :
    (gcSweep w job rounds r).HoldsAt Db.Whole (Lossless s₀) s fun _ _ => True := by
  unfold gcSweep
  refine Process.holdsAt_read_bind.mpr ?_
  split_ifs with hlegacy hskip hplain
  · -- A chain without an id has begun.
    rcases h with h | h
    · exact Process.holdsAt_ofSpan (h.holdsAt_abort w.env r.now)
    · simp [Db.legacyChain, h.gc.2.1] at hlegacy
  · exact Process.holdsAt_pure h trivial
  · rcases h with h | h
    · exact Process.holdsAt_ofSpan (holdsAt_pr5Sweep w.env r.now h)
    · simp [h.gc.1] at hskip
  · refine (Process.holdsAt_ofSpan (h.holdsAt_retireResume w.env job r.now _)).bind
      fun ended t ht _ => ?_
    split_ifs
    · exact Process.holdsAt_pure ht trivial
    · exact Process.holdsAt_read_bind.mpr (ht.holdsAt_sweepLoop job _ w _ rounds [] r)

end Lossless

end Spans

/-! ## The others -/

section Beside

/-- Only a collection moves the epoch. -/
theorem Others.epoch (h : Others w s t) : t.gc_epoch = s.gc_epoch := by
  refine h.keeps (I := fun u => u.gc_epoch = s.gc_epoch) (fun _ _ _ he hu => he.trans hu)
    (fun pack u hu => ?_) (fun _ _ hu => hu) rfl
  unfold addPending
  split_ifs <;> exact hu

theorem Rely.liveObject (h : Rely w s t) (hx : s.Live x) : t.Live x := by
  obtain ⟨r, hr, hrx, hl⟩ := hx
  exact ⟨r, (h.rows r (.inl hl)).mpr hr, hrx, h.live hl⟩

theorem Db.Copied.beside (hs : s.Copied) (h : Rely w s t) : t.Copied :=
  hs.transfer (by rw [h.gc]) (by rw [h.gc]) h.cohort
    (fun m hm => ⟨m, h.marked ▸ hm, rfl, rfl⟩) (fun _ hp hl => h.live_of_live hl hp)
    (fun r hr => ⟨(h.rows r (.inr hr)).mp, fun _ => (h.rows r (.inr hr)).mpr⟩) fun _ => h.counted

/-- The others lose nothing, and leave the epoch alone. -/
theorem Lossless.beside (hs : Lossless s₀ s) (h : Others w s t) : Lossless s₀ t := by
  rcases hs with (hm | hw) | ho
  · exact .inl (.inl (h.epoch ▸ hm))
  · have hrely := h.rely hw.tidy
    exact .inl (.inr ⟨h.epoch.trans hw.epoch, hrely.tidy hw.tidy,
      hw.copied.beside hrely, fun x hx => hrely.liveObject (hw.live x hx)⟩)
  · have hrely := h.rely ho.tidy
    exact .inr ⟨h.epoch.trans ho.epoch, hrely.tidy ho.tidy, hrely.gc ▸ ho.gc,
      fun x hx => hrely.liveObject (ho.live x hx)⟩

end Beside

/-! ## Runs -/

/-- A slice of `gc_sweep` begins. -/
inductive SweepSlice (w : World) : Db → Proc SliceOutcome → Prop
  | slice (s : Db) (job : GcJob) (rounds : ℕ) (r : Reply) : SweepSlice w s (gcSweep w job rounds r)

/-- Slices of the sweep beside the others. A slice may be killed where it waits, and stopped after
any statement that does not leave the new pack live without rows. -/
def SweepStep (w : World) : Sys Db Error Reply SliceOutcome →
    Sys Db Error Reply SliceOutcome → Prop :=
  Sys.Step (Others w) (SweepSlice w) (fun _ _ => True) Db.Whole

/-- A run of the sweep. -/
theorem Lossless.of_steps (hs : Lossless s₀ s)
    (h : Relation.ReflTransGen (SweepStep w) ⟨s, none⟩ y) : Lossless s₀ y.state := by
  refine Sys.holdingAt_of_steps (fun _ _ hs hE => hs.beside hE) (fun u p hu hB => ?_) hs h
  cases hB
  exact hu.holdsAt_gcSweep _ w _ _

/-- Along a run of the sweep the epoch does not go down; and while it stands, what was live when the
sweep began is live. -/
theorem sweep_lossless (htidy : s.Tidy) (hcopied : s.Copied)
    (h : Relation.ReflTransGen (SweepStep w) ⟨s, none⟩ y) :
    s.gc_epoch ≤ y.state.gc_epoch ∧
      (y.state.gc_epoch = s.gc_epoch → ∀ x, s.Live x → y.state.Live x) := by
  have hstart : Lossless s s := .inl (.inr ⟨rfl, htidy, hcopied, fun _ hx => hx⟩)
  rcases hstart.of_steps h with (hm | hw) | ho
  · exact ⟨hm.le, fun heq => absurd heq hm.ne'⟩
  · exact ⟨hw.epoch.ge, fun _ => hw.live⟩
  · exact ⟨ho.epoch.ge, fun _ => ho.live⟩

/-- A push that recorded the epoch when the sweep began moves a ref only if everything that was live
then still is. -/
theorem commit_after_sweep (htidy : s.Tidy) (hcopied : s.Copied)
    (h : Relation.ReflTransGen (SweepStep w) ⟨s, none⟩ y) (env : Env) (now : ℤ)
    (req : CommitRequest)
    (hepoch : ∀ push, y.state.pushes.find req.push_id = some push → push.gc_epoch = s.gc_epoch)
    (hmoves : ((commitPush env now req).run y.state).state.refs ≠ y.state.refs) :
    ∀ x, s.Live x → y.state.Live x := by
  have hstart : Lossless s s := .inl (.inr ⟨rfl, htidy, hcopied, fun _ hx => hx⟩)
  rcases commitPush_effect env now req y.state with ⟨hsame, -⟩ | ⟨scopes, P, hadmits, -⟩
  · exact absurd hsame hmoves
  · obtain ⟨push, -, hpush, -, -, hstands, -⟩ := hadmits
    rcases hstart.of_steps h with (hm | hw) | ho
    · exact absurd (hstands.trans (hepoch push hpush)) hm.ne'
    · exact hw.live
    · exact ho.live

/-! ### A run -/

/-- A chain whose cohort is one pack with one entry, which was built, beside an open push. -/
def sweepStore : Db :=
  { onePush with
    packs := ⟨[⟨1, .live, 1, 36, none, 0, none⟩, ⟨2, .live, 1, 36, none, 3, none⟩,
      ⟨10, .ingesting, 1, 100, some 1, 2, none⟩], by decide⟩
    objects := ⟨[⟨13, 1, 0, 12, 1, .blob, 1⟩, ⟨13, 2, 0, 12, 1, .blob, 1⟩,
      ⟨7, 10, 0, 12, 50, .commit, 40⟩], by decide⟩
    marked := ⟨[⟨1, [true], some [true]⟩], by decide⟩
    gc := { GcMeta.none with
      chain := some 7, started_at := some 4, barrier := some 1, phase := some .sweep,
      refs_version := some 0, new_pack := some 2 }
    jobs := ⟨[⟨1, .gcSweep, 0, 0, none, .chain 7, .running, none, none, some 5, 0⟩], by decide⟩ }

/-- The state after a slice that retires the cohort. -/
def sweepEnd : Sys Db Error Reply SliceOutcome :=
  .ofPause ((gcSweep markWorld ⟨1, 5, .chain 7⟩ 8 ⟨9, false, 8, none⟩).advance sweepStore)

theorem sweepStore_tidy : sweepStore.Tidy := by
  have hcohort : ∀ m ∈ sweepStore.marked.rows, ∀ row ∈ sweepStore.packs.rows, row.id = m.pack_id →
      row.state ≠ .ingesting := by decide +kernel
  have hnew : ∀ row ∈ sweepStore.packs.rows, sweepStore.gc.new_pack = some row.id →
      row.push_id = none := by decide +kernel
  have hnone : ∀ q, q ∉ sweepStore.gc_pending := Table.not_mem_empty
  refine ⟨fun m hm row hrow => ?_, fun n hn row hrow => ?_, List.nodup_nil,
    fun q hq => absurd hq (hnone q), fun q hq => absurd hq (hnone q)⟩
  · obtain ⟨hmem, hid⟩ := Table.find_eq_some.mp hrow
    exact hcohort m hm row hmem hid
  · obtain ⟨hmem, hid⟩ := Table.find_eq_some.mp hrow
    exact hnew row hmem (hid ▸ hn)

theorem sweepStore_copied : sweepStore.Copied where
  apart := by
    rintro n hn
    cases hn
    decide +kernel
  intent _ hit := nomatch hit
  counted p hp _ row hrow r hr hrp := by
    have hall : ∀ row ∈ sweepStore.packs.rows, ∀ r ∈ sweepStore.objects.rows, r.pack_id = row.id →
        r.idx < row.count := by decide +kernel
    obtain ⟨hmem, hid⟩ := Table.find_eq_some.mp hrow
    exact hall row hmem r hr (hrp.trans hid.symm)
  built _ m hm b hb r hr hrm hbit := by
    have hall : ∀ m ∈ sweepStore.marked.rows, ∀ r ∈ sweepStore.objects.rows, r.pack_id = m.pack_id →
        ∃ r' ∈ sweepStore.objects.rows, r'.pack_id = 2 ∧ r'.sha = r.sha := by decide +kernel
    exact ⟨2, rfl, hall m hm r hr hrm⟩
  sources _ n hn r hr hrn := by
    have hall : ∀ r ∈ sweepStore.objects.rows, r.pack_id = 2 →
        ∃ r' ∈ sweepStore.objects.rows, r'.pack_id ∈ sweepStore.cohort ∧ r'.sha = r.sha := by
      decide +kernel
    cases hn
    exact hall r hr hrn

theorem sweepEnd_reached :
    Relation.ReflTransGen (SweepStep markWorld) ⟨sweepStore, none⟩ sweepEnd :=
  .single (.begin (.slice _ _ _ _))

theorem sweepStore_live : sweepStore.Live 13 :=
  ⟨⟨13, 1, 0, 12, 1, .blob, 1⟩, Table.mem_def.mpr (by decide +kernel), rfl, by decide +kernel⟩

/-- The pack of the cohort is dead, and its object lives on in the new pack. -/
theorem sweep_lossless_retires :
    sweepEnd.state.packLive 1 = false ∧ sweepEnd.state.gc_epoch = sweepStore.gc_epoch ∧
      sweepEnd.state.Live 13 := by
  have hsweep := sweep_lossless sweepStore_tidy sweepStore_copied sweepEnd_reached
  have hepoch : sweepEnd.state.gc_epoch = sweepStore.gc_epoch := by decide +kernel
  exact ⟨by decide +kernel, hepoch, hsweep.2 hepoch 13 sweepStore_live⟩

/-- The push lands after the sweep. -/
theorem commit_after_sweep_lands :
    ((commitPush (.default fun _ => true) 10 (createRefs ["refs/heads/a"])).run
      sweepEnd.state).state.refs ≠ sweepEnd.state.refs ∧ sweepEnd.state.Live 13 := by
  have hmoves : ((commitPush (.default fun _ => true) 10 (createRefs ["refs/heads/a"])).run
      sweepEnd.state).state.refs ≠ sweepEnd.state.refs := fun heq =>
    absurd (congrArg Table.size heq) (by decide +kernel)
  have hepoch : (sweepEnd.state.pushes.find 1).all
      (fun push => push.gc_epoch = sweepStore.gc_epoch) = true := by decide +kernel
  rw [Option.all_eq_true] at hepoch
  exact ⟨hmoves, commit_after_sweep sweepStore_tidy sweepStore_copied sweepEnd_reached _ 10 _
    (fun push hpush => of_decide_eq_true (hepoch push hpush)) hmoves 13 sweepStore_live⟩

end GitEdge
