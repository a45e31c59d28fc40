import GitEdge.Gc.Retiring

/-!
# A compaction loses nothing

The swap of a compaction beside the others. It may be stopped after any statement, and is then tried
again. The epoch does not move, so a push that checked its links before goes on to trust them;
`compaction_lossless` says that it may. The new pack is live before the cohort dies, and it is
dropped only while it is not live.
-/

namespace GitEdge

open Sql

/-- A pack outside the cohort with a row for each object of the cohort. -/
def Db.CopiedTo (s : Db) (n : PackId) : Prop :=
  n ∉ s.cohort ∧ ∀ r ∈ s.objects, r.pack_id ∈ s.cohort →
    ∃ r' ∈ s.objects, r'.pack_id = n ∧ r'.sha = r.sha

/-- A compaction whose pack is built, or whose chain is over. -/
structure Swapping (s₀ s : Db) : Prop where
  epoch : s.gc_epoch = s₀.gc_epoch
  tidy : s.Tidy
  live : ∀ x, s₀.Live x → s.Live x
  copies : s.cohortLive = true → ∀ n, s.gc.new_pack = some n → s.CopiedTo n

variable {s₀ s t : Db}

theorem Over.swapping (h : Over s₀ s) : Swapping s₀ s :=
  ⟨h.epoch, h.tidy, h.live, fun _ n hn => by simp [h.gc.2.2] at hn⟩

namespace Swapping

theorem rest (s u : Db) (h : Swapping s₀ s) : Swapping s₀ (s.restOf u) :=
  ⟨h.epoch, (Quiet.of_rest s u).tidy h.tidy, fun x hx => (Quiet.of_rest s u).live (h.live x hx),
    h.copies⟩

/-- A statement after which the cohort is not whole. -/
theorem broken (h : Swapping s₀ s) (hepoch : t.gc_epoch = s.gc_epoch) (htidy : t.Tidy)
    (hlive : ∀ x, s.Live x → t.Live x) (hnot : t.cohortLive = false) : Swapping s₀ t :=
  ⟨hepoch.trans h.epoch, htidy, fun x hx => hlive x (h.live x hx), fun hcl => by simp [hnot] at hcl⟩

/-- Rows of packs that are not live go. -/
theorem deleteRows (h : Swapping s₀ s) (hnot : s.cohortLive = false) {c : ObjRow → Bool}
    (hc : ∀ r, c r = true → s.packLive r.pack_id = false) :
    Swapping s₀ { s with objects := s.objects.deleteWhere c } :=
  h.broken rfl (h.tidy.congr rfl rfl rfl rfl rfl) (fun _ => live_deleteRows hc) hnot

theorem deleteNotLive (h : Swapping s₀ s) (hnot : s.cohortLive = false) (c : PackId → Bool) :
    Swapping s₀ (deleteNotLive c s) :=
  h.deleteRows hnot fun r hr => by simpa using (Bool.and_eq_true_iff.mp hr).2

/-- Packs die that are spared. -/
theorem kill (h : Swapping s₀ s) {ids : List PackId} (hspared : s.Spared ids) {c : PackRow → Bool}
    (hc : ∀ row, c row = true → row.id ∈ ids) (now : ℤ)
    (hnot : (killPacks c now s).cohortLive = false) : Swapping s₀ (killPacks c now s) :=
  h.broken rfl (h.tidy.killPacks c now) (fun _ => hspared.live hc now) hnot

/-- The chain ends, and its tables go. -/
theorem holds_end (h : Swapping s₀ s) {α : Type} {x : Span Db Error α}
    (hx : Span.Keeps (Over s₀) x) :
    (Span.exec clearGc >>= fun _ => wipeScratch >>= fun _ => x).Holds (Swapping s₀) s
      fun _ _ => True := by
  have hover : Over s₀ (clearGc s) := .of_clearGc h.epoch h.tidy h.live
  have hkeeps := Span.Keeps.bind (keeps_wipeScratch fun _ _ hw h => Over.wiped h hw) fun _ => hx
  refine Span.holds_exec_bind hover.swapping ?_
  exact ((hkeeps.holds hover).weaken fun _ => Over.swapping).mono fun _ _ _ _ => trivial

/-- The pack that was built is dropped when it is not live, and kept when it is. -/
theorem holds_wipeNewPack (h : Swapping s₀ s) (hnot : s.cohortLive = false) (now : ℤ) :
    (wipeNewPack now).Holds (Swapping s₀) s fun _ t => Swapping s₀ t := by
  unfold wipeNewPack
  rw [Span.holds_read_bind]
  cases s.gc.new_pack with
  | none => exact Span.holds_pure h h
  | some n =>
    dsimp only
    split_ifs with hkeep
    · have hrows := h.deleteNotLive hnot fun p => p ∈ s.cohort
      exact Span.holds_exec hrows hrows
    · -- The keep rule has a live pack stay, as the cohort is not whole.
      have hdead : s.packLive n = false := by simpa [hnot] using hkeep
      have hrows : Swapping s₀ (deleteObjects (fun p => p = n) s) :=
        h.deleteRows hnot fun r hr => (of_decide_eq_true hr : r.pack_id = n) ▸ hdead
      have hspared : (deleteObjects (fun p => p = n) s).Spared [n] := fun r _ hrn hl =>
        absurd (List.mem_singleton.mp hrn ▸ hl : s.packLive n = true) (Bool.eq_false_iff.mp hdead)
      refine Span.holds_exec_bind hrows ?_
      have hkilled := hrows.kill hspared
        (c := fun r => r.id = n && (r.state = .ingesting || r.state = .live))
        (by simp +contextual) now (Bool.eq_false_iff.mpr fun hcl => ?_)
      · exact Span.holds_exec hkilled hkilled
      · obtain ⟨hne, hlive⟩ := cohortLive_iff.mp hcl
        refine Bool.eq_false_iff.mp hnot (cohortLive_iff.mpr ⟨hne, fun p hp => ?_⟩)
        exact packLive_of_killPacks (hlive p hp)

theorem holds_wipeAll (h : Swapping s₀ s) (hnot : s.cohortLive = false) (now : ℤ) :
    (wipeAll now).Holds (Swapping s₀) s fun _ _ => True := by
  have hretired : wipeRetired.Holds (Swapping s₀) s fun _ t =>
      Swapping s₀ t ∧ t.cohortLive = false := by
    unfold wipeRetired
    rw [Span.holds_read_bind]
    cases s.gc.retire with
    | none => exact Span.holds_pure h ⟨h, hnot⟩
    | some it =>
      have hrows := h.deleteNotLive hnot fun p => p ∈ it.ids
      exact Span.holds_exec hrows ⟨hrows, hnot⟩
  refine hretired.bind fun _ t _ ht => (ht.1.holds_wipeNewPack ht.2 now).bind fun _ u _ hu => ?_
  exact hu.holds_end (x := pure ()) (.pure ())

/-- The new pack goes live. -/
theorem holds_promoteOutput (h : Swapping s₀ s) (hcl : s.cohortLive = true) {pack : PackId}
    (m : WriterMeta) :
    (promoteOutput pack m).Holds (Swapping s₀) s fun _ t => Swapping s₀ t ∧
      t.packLive pack = true ∧ t.objects = s.objects ∧ t.marked = s.marked := by
  unfold promoteOutput
  rw [Span.holds_read_bind]
  set go : PackRow → PackRow := fun p =>
    { p with state := .live, count := m.count, bytes := m.bytes, created_at := s.cohortCreated }
    with hgo
  set u : Db := { s with packs := s.packs.updateWhere (buildPack pack) go fun _ => rfl } with hu
  have hlive : ∀ p row, s.packs.find p = some row → row.state = .live ∨ buildPack pack row = true →
      u.packLive p = true := by
    intro p row hrow hst
    refine packLive_iff.mpr ⟨_, by rw [hu, Table.find_updateWhere, hrow]; rfl, ?_⟩
    dsimp only
    split_ifs with hb
    · rfl
    · exact hst.resolve_right hb
  have hpromoted : Swapping s₀ u := by
    refine ⟨h.epoch, h.tidy.step (fun p row hrow => ?_) (fun m hm => ⟨m, hm, rfl⟩) (fun _ hn => hn)
      (.inl rfl) rfl, fun x hx => ?_, fun _ => h.copies hcl⟩
    · rw [hu, Table.find_updateWhere, Option.map_eq_some_iff] at hrow
      obtain ⟨row', hrow', rfl⟩ := hrow
      refine ⟨row', hrow', ?_⟩
      split_ifs
      · refine ⟨rfl, fun hst => ?_⟩
        cases hst
      · exact ⟨rfl, id⟩
    · obtain ⟨r, hr, hrx, hl⟩ := h.live x hx
      obtain ⟨row, hrow, hst⟩ := packLive_iff.mp hl
      exact ⟨r, hr, hrx, hlive _ row hrow (.inl hst)⟩
  refine Span.holds_exec_bind hpromoted ?_
  split_ifs with hone
  · exact Span.holds_fail hpromoted
  · -- The update met the row of the pack.
    obtain ⟨row, hrow⟩ := List.exists_mem_of_length_pos
      (Nat.lt_of_lt_of_eq Nat.one_pos (not_not.mp hone).symm)
    obtain ⟨hmem, hb⟩ := List.mem_filter.mp hrow
    have hid : row.id = pack := of_decide_eq_true (Bool.and_eq_true_iff.mp hb).1
    exact Span.holds_pure hpromoted ⟨hpromoted,
      hlive pack row (Table.find_eq_some.mpr ⟨hmem, hid⟩) (.inr hb), rfl, rfl⟩

/-- The cohort dies after the pack with its objects went live. -/
theorem holds_retireCohort (h : Swapping s₀ s) (hne : s.marked.size ≠ 0) {pack : PackId}
    (hcopied : s.CopiedTo pack) (hpack : s.packLive pack = true) (now : ℤ) :
    (retireCohort now).Holds (Swapping s₀) s fun _ t => Swapping s₀ t := by
  have hspared : s.Spared s.cohort := by
    intro r hr hrp _
    obtain ⟨r', hr', hrn, hsha⟩ := hcopied.2 r hr hrp
    exact ⟨r', hr', hsha, hrn ▸ hpack, hrn ▸ hcopied.1⟩
  set u := killPacks (fun p => p.id ∈ s.cohort) now s with hu
  have hdead : ∀ p ∈ s.cohort, u.packLive p = false := by
    intro p hp
    refine Bool.eq_false_iff.mpr fun hl => ?_
    obtain ⟨row, hrow, -, hc⟩ := packLive_killPacks.mp hl
    exact of_decide_eq_false hc ((Table.find_eq_some.mp hrow).2 ▸ hp)
  have hnot : u.cohortLive = false := by
    obtain ⟨m, hm⟩ := List.exists_mem_of_length_pos (Nat.pos_of_ne_zero hne)
    have hp : m.pack_id ∈ s.cohort := List.mem_map.mpr ⟨m, hm, rfl⟩
    refine Bool.eq_false_iff.mpr fun hcl => ?_
    exact Bool.eq_false_iff.mp (hdead _ hp) ((cohortLive_iff.mp hcl).2 _ hp)
  have hkilled : Swapping s₀ u := h.kill hspared (fun row => of_decide_eq_true) now hnot
  have hrows : Swapping s₀ (deleteObjects (fun p => p ∈ s.cohort) u) :=
    hkilled.deleteRows hnot fun r hr => hdead _ (of_decide_eq_true hr)
  exact Span.holds_exec_bind hkilled (Span.holds_exec hrows hrows)

/-- The swap loses nothing, whichever statement it is stopped after. -/
theorem holds_swap (h : Swapping s₀ s) (hmode : s.compacting = true) (env : Env) (job : GcJob)
    (now : ℤ) (chain : Option ChainId) (pack : PackId) (m : WriterMeta) :
    (swap env job now chain pack m).Holds (Swapping s₀) s fun _ _ => True := by
  have hbeat := (keeps_rest_heartbeat (I := fun u => Swapping s₀ u ∧ u.compacting = true)
    (fun s u hs => ⟨hs.1.rest s u, hs.2⟩) job.id job.lease now).holds ⟨h, hmode⟩
  have hfence : (chainFence job now chain pack).Holds (Swapping s₀) s fun held t =>
      Swapping s₀ t ∧ (held = true → t.gc.new_pack = some pack) := by
    refine (hbeat.weaken fun _ => And.left).bind fun _ t ht hmode => ?_
    rw [Span.holds_read_bind]
    refine Span.holds_pure ht ⟨ht, fun hheld => ?_⟩
    simpa [hmode.2] using (Bool.and_eq_true_iff.mp hheld).2
  unfold swap
  refine hfence.bind fun held t _ ht => ?_
  obtain ⟨ht, hnew⟩ := ht
  split_ifs with hheld
  · exact Span.holds_pure ht trivial
  rw [Span.holds_read_bind]
  split_ifs with hcl
  · exact (ht.holds_wipeAll (by simpa using hcl) now).bind fun _ u hu _ =>
      Span.holds_pure hu trivial
  have hcl : t.cohortLive = true := by simpa using hcl
  have hcopied := ht.copies hcl pack (hnew (by simpa using hheld))
  refine (ht.holds_promoteOutput hcl m).bind fun _ u _ hu => ?_
  obtain ⟨hu, hpack, hobjects, hmarked⟩ := hu
  -- The promotion leaves the rows and the cohort, so the pack that is live now has the copies.
  have hcopied' : u.CopiedTo pack := by
    rwa [Db.CopiedTo, Db.cohort, hmarked, hobjects]
  refine (hu.holds_retireCohort (hmarked ▸ (cohortLive_iff.mp hcl).1) hcopied' hpack now).bind
    fun _ v _ hv => hv.holds_end ?_
  have hrest : ∀ s u, Over s₀ s → Over s₀ (s.restOf u) := fun s u h => h.quiet (.of_rest s u)
  exact .bind (keeps_rest hrest fun _ => rfl) fun _ =>
    .bind (keeps_rest_trigger hrest env now) fun _ => .pure _

/-- The others change no pack that the chain names. -/
theorem beside {w : World} (h : Swapping s₀ s) (ho : Others w s t) : Swapping s₀ t := by
  have hrely := ho.rely h.tidy
  refine ⟨ho.epoch.trans h.epoch, hrely.tidy h.tidy, fun x hx => hrely.liveObject (h.live x hx),
    fun hcl n hn => ?_⟩
  rw [hrely.gc] at hn
  obtain ⟨hne, hlive⟩ := cohortLive_iff.mp hcl
  have hcl' : s.cohortLive = true := cohortLive_iff.mpr ⟨hrely.marked ▸ hne, fun p hp =>
    hrely.live_of_live (hlive p (hrely.cohort ▸ hp)) (.inl hp)⟩
  obtain ⟨hapart, hcopies⟩ := h.copies hcl' n hn
  refine ⟨hrely.cohort ▸ hapart, fun r hr hrp => ?_⟩
  rw [hrely.cohort] at hrp
  obtain ⟨r', hr', hrn, hsha⟩ := hcopies r ((hrely.rows r (.inr (.inl hrp))).mp hr) hrp
  exact ⟨r', (hrely.rows r' (.inr (.inr (hrn ▸ hn)))).mpr hr', hrn, hsha⟩

end Swapping

/-- The swap begins in a chain that compacts, as `finish_build` checks. -/
inductive SwapSlice (w : World) : Db → Proc Flow → Prop
  | swap (s : Db) (hmode : s.compacting = true) (job : GcJob) (now : ℤ) (chain : Option ChainId)
    (pack : PackId) (m : WriterMeta) : SwapSlice w s (.ofSpan (swap w.env job now chain pack m))

/-- Swaps beside the others, stopped after any statement. -/
def SwapStep (w : World) : Sys Db Error Reply Flow → Sys Db Error Reply Flow → Prop :=
  Sys.Step (Others w) (SwapSlice w) (fun _ _ => True) fun _ => True

/-- Once a compaction has built its pack, the epoch stands and what was live is live, however often
the swap is stopped and tried again. -/
theorem compaction_lossless {w : World} {y : Sys Db Error Reply Flow} (htidy : s.Tidy)
    (hcopies : ∀ n, s.gc.new_pack = some n → s.CopiedTo n)
    (h : Relation.ReflTransGen (SwapStep w) ⟨s, none⟩ y) :
    y.state.gc_epoch = s.gc_epoch ∧ ∀ x, s.Live x → y.state.Live x := by
  have hend : Swapping s y.state := by
    refine Sys.holdingAt_of_steps (fun _ _ hs hE => hs.beside hE) (fun u p hu hB => ?_)
      ⟨rfl, htidy, fun _ hx => hx, fun _ => hcopies⟩ h
    cases hB with
    | swap hmode job now chain pack m =>
      exact Process.holdsAt_ofSpan (hu.holds_swap hmode w.env job now chain pack m).holdsAt
  exact ⟨hend.epoch, hend.live⟩

/-- A compaction whose swap was stopped after the new pack went live. -/
def swapStore : Db :=
  { sweepStore with gc := { sweepStore.gc with mode := some .compact, phase := some .build } }

/-- The state after the swap is tried again. -/
def swapEnd : Sys Db Error Reply Flow :=
  .ofPause ((Process.ofSpan (swap markWorld.env ⟨1, 5, .chain 7⟩ 9 (some 7) 2
    ⟨1, 36, 12, 13⟩)).advance swapStore)

/-- The cohort is dead, and its object lives on. -/
theorem compaction_lossless_retried :
    swapEnd.state.packLive 1 = false ∧ swapEnd.state.Live 13 := by
  have htidy : swapStore.Tidy := sweepStore_tidy.congr rfl rfl rfl rfl rfl
  have hreached : Relation.ReflTransGen (SwapStep markWorld) ⟨swapStore, none⟩ swapEnd :=
    .single (.begin (.swap _ rfl _ _ _ _ _))
  have hcopies : ∀ n, swapStore.gc.new_pack = some n → swapStore.CopiedTo n := by
    rintro n hn
    have hbuilt : ∀ r ∈ swapStore.objects.rows, r.pack_id ∈ swapStore.cohort →
        ∃ r' ∈ swapStore.objects.rows, r'.pack_id = 2 ∧ r'.sha = r.sha := by decide +kernel
    cases hn
    exact ⟨by decide +kernel, hbuilt⟩
  exact ⟨by decide +kernel,
    (compaction_lossless htidy hcopies hreached).2 13 sweepStore_live⟩

end GitEdge
