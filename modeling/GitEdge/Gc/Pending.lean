import GitEdge.Gc.Walking
import GitEdge.Lib.Ranks
import GitEdge.Repo.Effect
import GitEdge.Repo.Statements

/-!
# Pending packs are fed to the walk

A pack that is promoted beside a walk gets a row in `gc_pending`, and `pending_page` gives its
objects to the walk page by page: a page is cut by a window of entry numbers and by a number of
rows. `FeedInv` is what the pages, the statements of the walk and everything beside them keep: the
objects up to the cursor of a row are reached, blobs apart. The row goes when the cursor is past the
last entry, or with the pack.

The window and the number of rows are parameters here, which the knobs of the tests set;
`pendingPage` is the page without the knobs. That the entries of a live pack have distinct numbers is
an assumption on the store at the beginning, and on what is promoted later (`Db.Ready`).
-/

namespace GitEdge

open Sql

variable {s t u : Db} {cursor : ℤ} {rows : ℕ}

/-! ## The system -/

/-- A state after a statement of the span, or at its end. -/
def Stop {α : Type} (x : Span Db Error α) (s t : Db) : Prop :=
  t ∈ (x.run s).stops ∨ t = (x.run s).state

/-- A step of a walk: a page or a commit of the walk, stopped after any of its statements, or a step
of the others. -/
inductive FeedStep (w : World) (window : ℤ) (rows : ℕ) (s : Db) : Db → Prop
  | page (job : GcJob) (now : ℤ) (chain : Option ChainId) (want : Option GcPhase) {t : Db}
      (h : Stop (pendingPageWith window rows job now chain want) s t) : FeedStep w window rows s t
  | walk (ids misses kids : List Oid) (bits : Touched) (gen : ℕ) {t : Db}
      (h : Stop (commitIds ids misses kids bits gen true) s t) : FeedStep w window rows s t
  | beside {t : Db} (h : Others w s t) : FeedStep w window rows s t

/-! ## The invariant -/

/-- The objects of the pack up to an entry number are reached, blobs apart. -/
def Db.FedTo (s : Db) (p : PackId) (cursor : ℤ) : Prop :=
  ∀ r ∈ s.objects, r.pack_id = p → (r.idx : ℤ) ≤ cursor → r.kind ≠ .blob → s.Reached r.sha

/-- All objects of the pack are reached, blobs apart. -/
def Db.Fed (s : Db) (p : PackId) : Prop :=
  ∀ r ∈ s.objects, r.pack_id = p → r.kind ≠ .blob → s.Reached r.sha

/-- The invariant of the pages. -/
structure FeedInv (s : Db) : Prop where
  tidy : s.Tidy
  injective : ∀ p, s.packLive p = true → s.Injective p
  /-- A pack whose page was taken is live, and is fed up to its cursor. -/
  fed : ∀ q ∈ s.gc_pending, q.cursor = -1 ∨
    (s.packLive q.pack_id = true ∧ s.FedTo q.pack_id q.cursor)

/-- A row went only with its pack, or when the pack was fed. -/
def Spends (s t : Db) : Prop :=
  ∀ q ∈ s.gc_pending, t.gc_pending.has q.pack_id = true ∨ s.packLive q.pack_id = false ∨
    t.Fed q.pack_id

/-- What a statement of the chain leaves: the packs and rows, and what is reached of live
objects. -/
structure FeedsOn (s t : Db) : Prop where
  packs : t.packs = s.packs
  objects : t.objects = s.objects
  cohort : t.cohort = s.cohort
  newPack : t.gc.new_pack = s.gc.new_pack
  seq : t.pending_seq = s.pending_seq
  reached : ∀ x, s.Live x → s.Reached x → t.Reached x

namespace FeedsOn

protected theorem refl (s : Db) : FeedsOn s s := ⟨rfl, rfl, rfl, rfl, rfl, fun _ _ h => h⟩

theorem packLive (h : FeedsOn s t) (p : PackId) : t.packLive p = s.packLive p := by
  rw [Db.packLive, h.packs, Db.packLive]

theorem live_iff (h : FeedsOn s t) {x : Oid} : t.Live x ↔ s.Live x := by
  unfold Db.Live
  simp only [h.objects, h.packLive]

protected theorem trans (h : FeedsOn s t) (h' : FeedsOn t u) : FeedsOn s u where
  packs := h'.packs.trans h.packs
  objects := h'.objects.trans h.objects
  cohort := h'.cohort.trans h.cohort
  newPack := h'.newPack.trans h.newPack
  seq := h'.seq.trans h.seq
  reached x hl hx := h'.reached x (h.live_iff.mpr hl) (h.reached x hl hx)

theorem of_advances (h : Advances s t) : FeedsOn s t where
  packs := h.packs
  objects := h.objects
  cohort := h.cohort
  newPack := by rw [h.gc]
  seq := h.seq
  reached x _ hx := h.reached x hx

/-- What was fed of a live pack stays fed. -/
theorem fedTo (h : FeedsOn s t) {p : PackId} (hl : s.packLive p = true) (hf : s.FedTo p cursor) :
    t.FedTo p cursor := by
  intro r hr hrp hidx hk
  rw [h.objects] at hr
  exact h.reached r.sha ⟨r, hr, rfl, hrp ▸ hl⟩ (hf r hr hrp hidx hk)

theorem injective (h : FeedsOn s t) {p : PackId} (hi : s.Injective p) : t.Injective p := by
  unfold Db.Injective
  rw [h.objects]
  exact hi

/-- What a statement must leave of the pending rows. -/
theorem inv (h : FeedsOn s t) (hs : FeedInv s) (hseqs : (t.gc_pending.rows.map (·.seq)).Nodup)
    (hrows : ∀ q ∈ t.gc_pending, q ∈ s.gc_pending ∨
      (s.packLive q.pack_id = true ∧ q.seq ≤ s.pending_seq ∧ t.FedTo q.pack_id q.cursor)) :
      FeedInv t where
  tidy := by
    refine ⟨fun m hm row hrow => ?_, fun n hn row hrow => ?_, hseqs, fun q hq => ?_,
      fun q hq row hrow hst => ?_⟩
    · have hcohort : m.pack_id ∈ s.cohort := h.cohort ▸ List.mem_map.mpr ⟨m, hm, rfl⟩
      obtain ⟨m', hm', hid⟩ := List.mem_map.mp hcohort
      rw [h.packs, ← hid] at hrow
      exact hs.tidy.cohort m' hm' row hrow
    · rw [h.packs] at hrow
      rw [h.newPack] at hn
      exact hs.tidy.newPack n hn row hrow
    · rw [h.seq]
      rcases hrows q hq with hq | ⟨-, hle, -⟩
      · exact hs.tidy.seqLe q hq
      · exact hle
    · rw [h.packs] at hrow
      rcases hrows q hq with hq | ⟨hl, -⟩
      · exact hs.tidy.cursor q hq row hrow hst
      · -- A pack that is live is not being ingested.
        obtain ⟨row', hrow', hlive⟩ := packLive_iff.mp hl
        rw [hrow] at hrow'
        cases hrow'
        rw [hst] at hlive
        cases hlive
  injective p hp := by
    rw [h.packLive] at hp
    exact h.injective (hs.injective p hp)
  fed q hq := by
    rcases hrows q hq with hq | ⟨hl, -, hf⟩
    · refine (hs.fed q hq).imp id fun hfed => ⟨?_, h.fedTo hfed.1 hfed.2⟩
      rw [h.packLive]
      exact hfed.1
    · refine .inr ⟨?_, hf⟩
      rw [h.packLive]
      exact hl

/-- A statement that leaves the pending rows alone. -/
theorem inv_same (h : FeedsOn s t) (hs : FeedInv s) (hpending : t.gc_pending = s.gc_pending) :
    FeedInv t := by
  refine h.inv hs ?_ fun q hq => .inl (hpending ▸ hq)
  rw [hpending]
  exact hs.tidy.seqs

end FeedsOn

/-! ## The walk -/

section Walk

/-- What each statement of a span leaves, the span leaves wherever it stops. -/
theorem Stop.of_holds {α : Type} {x : Span Db Error α} {I : Db → Prop} {P : α → Db → Prop}
    (h : x.Holds I s P) (hstop : Stop x s t) : I t := by
  rcases hstop with hstop | rfl
  · exact h.1 t hstop
  · exact h.2.1

/-- The misses that leave the frontier are not live. -/
theorem feeds_dropMisses (misses : List Oid) (s : Db) : FeedsOn s (dropMisses misses s) where
  packs := rfl
  objects := rfl
  cohort := rfl
  newPack := rfl
  seq := rfl
  reached x hl hx := by
    refine hx.imp (fun hx => ?_) id
    have hlive : s.isLive x = true := by
      obtain ⟨r, hr, hrx, hrl⟩ := hl
      refine List.any_eq_true.mpr ⟨r, hr, ?_⟩
      simp [hrx, hrl]
    have hhas := Table.has_deleteWhere_key s.gc_frontier
      (fun x => decide (x ∈ misses) && !s.isLive x) x
    rw [hx, hlive, Bool.not_true, Bool.and_false, Bool.not_false, Bool.and_true] at hhas
    exact hhas

/-- What the statements of the walk leave: the pending rows are as they were. -/
structure Strolls (s t : Db) : Prop where
  feeds : FeedsOn s t
  pending : t.gc_pending = s.gc_pending

theorem Strolls.trans (h : Strolls s t) (h' : Strolls t u) : Strolls s u :=
  ⟨h.feeds.trans h'.feeds, h'.pending.trans h.pending⟩

theorem Strolls.of_advances (h : Advances s t) : Strolls s t := ⟨.of_advances h, h.pending⟩

/-- `commit_ids` drops from the frontier only what it has recorded as seen, and misses. -/
theorem holds_commitIds_strolls (ids misses kids : List Oid) (bits : Touched) (gen : ℕ) (s : Db) :
    (commitIds ids misses kids bits gen true).Holds (Strolls s) s fun _ _ => True := by
  have hflush : Span.Keeps (Strolls s) (Span.each (fun p => Span.exec (flushBitmap p)) bits :
      Span Db Error Unit) :=
    .each fun p _ => .exec fun t ht => ht.trans (.of_advances (advances_flushBitmap p t))
  unfold commitIds
  refine (hflush.holds ⟨.refl s, rfl⟩).bind fun _ t ht _ => ?_
  have hseen := ht.trans (.of_advances (advances_recordSeen ids t))
  refine Span.holds_exec_bind hseen ?_
  have hkids := hseen.trans (.of_advances (advances_admitKids kids gen true (recordSeen ids t)))
  refine Span.holds_exec_bind hkids ?_
  have hids : ∀ x ∈ ids, (admitKids kids gen true (recordSeen ids t)).gc_seen.has x = true := by
    intro x hx
    show (recordSeen ids t).gc_seen.has x = true
    rw [has_recordSeen]
    simp [hx]
  have hdrop := hkids.trans (.of_advances (advances_dropFrontier hids))
  refine Span.holds_exec_bind hdrop ?_
  split_ifs
  · exact Span.holds_exec (hdrop.trans ⟨feeds_dropMisses misses _, rfl⟩) trivial
  · exact Span.holds_pure hdrop trivial

/-- The walk keeps the invariant, and takes no pending row. -/
theorem FeedInv.strolls (hs : FeedInv s) (h : Strolls s t) : FeedInv t ∧ Spends s t := by
  refine ⟨h.feeds.inv_same hs h.pending, fun q hq => .inl ?_⟩
  rw [h.pending]
  exact Table.has_iff.mpr ⟨q, hq, rfl⟩

end Walk

/-! ## A page -/

section Page

variable {row : PendingRow} {hi : ℤ}

/-- The objects up to the new cursor are on the page, or were fed before. -/
theorem mem_pageTo (hinj : s.Injective row.pack_id) (hrows : 1 ≤ rows) {r : ObjRow}
    (hr : r ∈ s.objects) (hrp : r.pack_id = row.pack_id) (hk : r.kind ≠ .blob)
    (hlo : row.cursor < r.idx) (hle : (r.idx : ℤ) ≤ pageCursor (s.pageTo row hi rows) hi rows) :
    r ∈ s.pageTo row hi rows := by
  have hmem : ∀ o, o ∈ ((s.objects.select fun o => o.pack_id = row.pack_id && row.cursor < o.idx &&
      o.idx ≤ hi && o.kind ≠ .blob).insertionSort fun a b => a.idx ≤ b.idx) ↔
      o ∈ s.objects ∧ (((o.pack_id = row.pack_id ∧ row.cursor < o.idx) ∧ (o.idx : ℤ) ≤ hi) ∧
        o.kind ≠ .blob) := by
    intro o
    rw [List.mem_insertionSort, Table.mem_select]
    simp
  have hsorted := List.pairwise_insertionSort (fun a b : ObjRow => a.idx ≤ b.idx)
    (s.objects.select fun o => o.pack_id = row.pack_id && row.cursor < o.idx &&
      o.idx ≤ hi && o.kind ≠ .blob)
  unfold pageCursor at hle
  unfold Db.pageTo at hle ⊢
  generalize hl : ((s.objects.select fun o => o.pack_id = row.pack_id && row.cursor < o.idx &&
    o.idx ≤ hi && o.kind ≠ .blob).insertionSort fun a b => a.idx ≤ b.idx) = l at *
  have hties : ∀ a ∈ l, ∀ b ∈ l, a.idx = b.idx → a = b := by
    intro a ha b hb hab
    obtain ⟨ha, ⟨⟨hap, -⟩, -⟩, -⟩ := (hmem a).mp ha
    obtain ⟨hb, ⟨⟨hbp, -⟩, -⟩, -⟩ := (hmem b).mp hb
    exact hinj a ha b hb hap hbp hab
  by_cases hfull : rows ≤ (l.take rows).length
  · -- A full page ends with the entry that is the new cursor.
    rw [if_pos hfull] at hle
    have hne : l.take rows ≠ [] := List.ne_nil_of_length_pos (by omega)
    have hlast : (l.take rows).getLast? = some ((l.take rows).getLast hne) :=
      List.getLast?_eq_some_getLast hne
    rw [hlast, Option.elim_some] at hle
    have hle : r.idx ≤ ((l.take rows).getLast hne).idx := by exact_mod_cast hle
    have hbound := (hmem _).mp (List.mem_of_mem_take (List.getLast_mem hne))
    refine Ranks.mem_take_of_le (f := ObjRow.idx) hsorted hties hlast ((hmem r).mpr ?_) hle
    refine ⟨hr, ⟨⟨hrp, hlo⟩, ?_⟩, hk⟩
    have := hbound.2.1.2
    omega
  · -- A short page has all of the window.
    rw [if_neg hfull] at hle
    have hshort : l.take rows = l := by
      rw [List.length_take] at hfull
      exact List.take_of_length_le (by omega)
    rw [hshort]
    exact (hmem r).mpr ⟨hr, ⟨⟨hrp, hlo⟩, hle⟩, hk⟩

/-- No entry of a pack is past the last one. -/
theorem le_maxIdx {r : ObjRow} (hr : r ∈ s.objects) : (r.idx : ℤ) ≤ s.maxIdx r.pack_id := by
  have hfold : ∀ (l : List ObjRow) (m : ℤ), m ≤ l.foldl (fun m o => max m (o.idx : ℤ)) m ∧
      ∀ o ∈ l, (o.idx : ℤ) ≤ l.foldl (fun m o => max m (o.idx : ℤ)) m := by
    intro l
    induction l with
    | nil => exact fun m => ⟨le_refl m, fun o ho => absurd ho List.not_mem_nil⟩
    | cons a l ih =>
      intro m
      obtain ⟨hm, hl⟩ := ih (max m a.idx)
      refine ⟨(le_max_left m _).trans hm, fun o ho => ?_⟩
      rcases List.mem_cons.mp ho with rfl | ho
      · exact (le_max_right m _).trans hm
      · exact hl o ho
  refine (hfold _ (-1)).2 r (Table.mem_select.mpr ⟨hr, ?_⟩)
  simp

/-- The page is in the frontier: the objects up to the new cursor are reached. -/
theorem fedTo_admitPage (hi : ℤ) (hs : FeedInv s) (hrow : row ∈ s.gc_pending)
    (hlive : s.packLive row.pack_id = true) (hrows : 1 ≤ rows) :
    (admitKids ((s.pageTo row hi rows).map (·.sha)) 1 true s).FedTo row.pack_id
      (pageCursor (s.pageTo row hi rows) hi rows) := by
  intro r hr hrp hle hk
  by_cases hlo : row.cursor < r.idx
  · refine reached_admitKids 1 true s (List.mem_map.mpr ⟨r, ?_, rfl⟩)
    exact mem_pageTo (hs.injective _ hlive) hrows hr hrp hk hlo hle
  · -- What is up to the old cursor was reached before.
    refine (advances_admitKids _ 1 true s).reached r.sha ?_
    rcases hs.fed row hrow with hstart | ⟨-, hfed⟩
    · omega
    · exact hfed r hr hrp (not_lt.mp hlo) hk

/-- Of the pending rows, one has the number of the row. -/
theorem eq_of_seq (hs : s.Tidy) {q q' : PendingRow} (hq : q ∈ s.gc_pending)
    (hq' : q' ∈ s.gc_pending) (h : q.seq = q'.seq) : q = q' :=
  List.inj_on_of_nodup_map hs.seqs hq hq' h

theorem mem_moveCursor {q : PendingRow} : q ∈ (moveCursor row cursor s).gc_pending ↔
    ∃ q' ∈ s.gc_pending, (if q'.seq = row.seq then { q' with cursor := cursor } else q') = q := by
  unfold moveCursor
  dsimp only
  rw [Table.mem_updateWhere]
  simp only [decide_eq_true_eq]

theorem seqs_moveCursor (s : Db) (cursor : ℤ) :
    (moveCursor row cursor s).gc_pending.rows.map (·.seq) = s.gc_pending.rows.map (·.seq) := by
  show (s.gc_pending.rows.map _).map _ = _
  rw [List.map_map]
  refine List.map_congr_left fun q _ => ?_
  by_cases hq : q.seq = row.seq <;> simp [hq]

/-- The cursor moves to where the pack is fed. -/
theorem FeedInv.moveCursor (hs : FeedInv s) (hrow : row ∈ s.gc_pending)
    (hlive : s.packLive row.pack_id = true) (hfed : s.FedTo row.pack_id cursor) :
    FeedInv (moveCursor row cursor s) := by
  have hfeeds : FeedsOn s (GitEdge.moveCursor row cursor s) :=
    ⟨rfl, rfl, rfl, rfl, rfl, fun _ _ h => h⟩
  refine hfeeds.inv hs ?_ fun q hq => ?_
  · rw [seqs_moveCursor]
    exact hs.tidy.seqs
  · obtain ⟨q', hq', rfl⟩ := mem_moveCursor.mp hq
    split_ifs with hseq
    · have heq : q' = row := eq_of_seq hs.tidy hq' hrow hseq
      rw [heq]
      exact .inr ⟨hlive, hs.tidy.seqLe row hrow, hfed⟩
    · exact .inl hq'

/-- A delete of pending rows. -/
theorem FeedInv.deletePending (hs : FeedInv s) (c : PendingRow → Bool) :
    FeedInv { s with gc_pending := s.gc_pending.deleteWhere c } := by
  have hfeeds : FeedsOn s { s with gc_pending := s.gc_pending.deleteWhere c } :=
    ⟨rfl, rfl, rfl, rfl, rfl, fun _ _ h => h⟩
  refine hfeeds.inv hs ?_ fun q hq => .inl (Table.mem_deleteWhere.mp hq).1
  exact (hs.tidy.deletePending c).seqs

/-- The span of a page. -/
theorem holds_pageSpan (hs : FeedInv s) (hrow : row ∈ s.gc_pending)
    (hlive : s.packLive row.pack_id = true) (hrows : 1 ≤ rows) :
    (pageSpan hi rows row).Holds (fun t => FeedInv t ∧ Spends s t) s fun _ _ => True := by
  unfold pageSpan
  rw [Span.holds_read_bind]
  dsimp only
  have hcursor := fedTo_admitPage hi hs hrow hlive hrows
  generalize hcur : pageCursor (s.pageTo row hi rows) hi rows = cursor at *
  generalize (s.pageTo row hi rows).map (·.sha) = shas at *
  have hadv := advances_admitKids shas 1 true s
  obtain ⟨h₁, hspend₁⟩ := hs.strolls (.of_advances hadv)
  refine Span.holds_exec_bind ⟨h₁, hspend₁⟩ ?_
  generalize hadmit : admitKids shas 1 true s = s₁ at *
  have hrow₁ : row ∈ s₁.gc_pending := hadv.pending ▸ hrow
  have hlive₁ : s₁.packLive row.pack_id = true := (hadv.packLive _).trans hlive
  -- The cursor moves after the page is in the frontier.
  have h₂ := h₁.moveCursor hrow₁ hlive₁ hcursor
  have hhas₂ : ∀ p, (moveCursor row cursor s₁).gc_pending.has p = s₁.gc_pending.has p := by
    intro p
    unfold moveCursor
    exact Table.has_updateWhere s₁.gc_pending (fun p => p.seq = row.seq)
      (fun p => { p with cursor := cursor }) (fun _ => rfl) p
  have hspend₂ : Spends s (moveCursor row cursor s₁) := by
    intro q hq
    refine .inl ?_
    rw [hhas₂, hadv.pending]
    exact Table.has_iff.mpr ⟨q, hq, rfl⟩
  refine Span.holds_exec_bind ⟨h₂, hspend₂⟩ ?_
  have hend : ∀ u, FeedInv u → Spends s u →
      (Span.exec deltaRound : Span Db Error Unit).Holds (fun t => FeedInv t ∧ Spends s t) u
        fun _ _ => True := by
    intro u hu hspend
    have hfeeds : FeedsOn u (deltaRound u) := ⟨rfl, rfl, rfl, rfl, rfl, fun _ _ h => h⟩
    exact Span.holds_exec ⟨hfeeds.inv_same hu rfl, hspend⟩ trivial
  split_ifs with hdone
  · -- The row goes last, when the cursor is past every entry.
    have h₃ := h₂.deletePending fun p => p.seq = row.seq
    simp only [Bool.and_eq_true, decide_eq_true_eq] at hdone
    have hspend₃ : Spends s (dropDone row (moveCursor row cursor s₁)) := by
      intro q hq
      by_cases hseq : q.seq = row.seq
      · have heq : q = row := eq_of_seq hs.tidy hq hrow hseq
        rw [heq]
        refine .inr (.inr fun r hr hrp hk => ?_)
        refine hcursor r hr hrp ?_ hk
        rw [← hrp] at hdone
        have hobjects : r ∈ s.objects := hadv.objects ▸ hr
        exact (le_maxIdx hobjects).trans hdone.2
      · refine .inl
          (Table.has_iff.mpr ⟨q, Table.mem_deleteWhere.mpr ⟨?_, by simpa using hseq⟩, rfl⟩)
        exact mem_moveCursor.mpr ⟨q, hadv.pending ▸ hq, if_neg hseq⟩
    exact Span.holds_exec_bind ⟨h₃, hspend₃⟩ (hend _ h₃ hspend₃)
  · exact hend _ h₂ hspend₂

/-- What went before a page was of packs that are not live. -/
theorem Spends.after (hpre : ∀ q ∈ s.gc_pending, q ∈ t.gc_pending ∨ s.packLive q.pack_id = false)
    (hlive : ∀ p, t.packLive p = s.packLive p) (h : Spends t u) : Spends s u := by
  intro q hq
  rcases hpre q hq with hq | hdead
  · rw [← hlive]
    exact h q hq
  · exact .inr (.inl hdead)

/-- `pending_page`, stopped after any of its statements. -/
theorem holds_pendingPageWith (hs : FeedInv s) (window : ℤ) (hrows : 1 ≤ rows)
    (job : GcJob) (now : ℤ) (chain : Option ChainId) (want : Option GcPhase) :
    (pendingPageWith window rows job now chain want).Holds (fun t => FeedInv t ∧ Spends s t) s
      fun _ _ => True := by
  have hstay : Spends s s := fun q hq => .inl (Table.has_iff.mpr ⟨q, hq, rfl⟩)
  have hrest : ∀ u, FeedInv (s.restOf u) ∧ Spends s (s.restOf u) := fun u =>
    hs.strolls (.of_advances (.rest s u))
  have hfence := holds_phaseFence (I := fun t => FeedInv t ∧ Spends s t) ⟨hs, hstay⟩ hrest job now
    chain want
  unfold pendingPageWith
  rw [Span.holds_read_bind]
  split_ifs
  · exact Span.holds_pure ⟨hs, hstay⟩ trivial
  · refine hfence.bind fun held t ht hu => ?_
    obtain ⟨u, rfl⟩ := hu
    split_ifs
    · exact Span.holds_pure ht trivial
    · -- The rows of packs that are not live go first.
      have hdead := ht.1.deletePending fun p => !(s.restOf u).packLive p.pack_id
      have hpre : ∀ q ∈ s.gc_pending, q ∈ (dropDeadPending (s.restOf u)).gc_pending ∨
          s.packLive q.pack_id = false := by
        intro q hq
        by_cases hl : s.packLive q.pack_id = true
        · refine .inl (Table.mem_deleteWhere.mpr ⟨hq, ?_⟩)
          show (!s.packLive q.pack_id) = false
          rw [hl, Bool.not_true]
        · exact .inr (by simpa using hl)
      have hlive : ∀ p, (dropDeadPending (s.restOf u)).packLive p = s.packLive p := fun _ => rfl
      generalize hd : dropDeadPending (s.restOf u) = d at *
      have hd' : FeedInv d := hd ▸ hdead
      have hback : ∀ v, FeedInv v ∧ Spends d v → FeedInv v ∧ Spends s v := fun v hv =>
        ⟨hv.1, hv.2.after hpre hlive⟩
      have hstay' : Spends d d := fun q hq => .inl (Table.has_iff.mpr ⟨q, hq, rfl⟩)
      have hexec : Span.Holds (fun t => FeedInv t ∧ Spends s t) (s.restOf u)
          (Span.exec dropDeadPending : Span Db Error Unit) fun _ t => t = d :=
        Span.holds_exec (hd ▸ hback d ⟨hd', hstay'⟩) hd
      refine hexec.bind fun _ v _ hv => ?_
      rw [hv, Span.holds_read_bind]
      cases hfirst : d.firstPending with
      | none =>
        have hfeeds : FeedsOn d (deltaRound d) := ⟨rfl, rfl, rfl, rfl, rfl, fun _ _ h => h⟩
        have hround := hback _ ⟨hfeeds.inv_same hd' rfl, hstay'⟩
        exact Span.holds_exec_bind hround (Span.holds_pure hround trivial)
      | some row =>
        have hmem : row ∈ d.gc_pending := by
          have := List.mem_of_head? hfirst
          rwa [List.mem_insertionSort] at this
        have hrowLive : d.packLive row.pack_id = true := by
          have hkept := (Table.mem_deleteWhere.mp (hd ▸ hmem)).2
          have hkept : (s.restOf u).packLive row.pack_id = true := by simpa using hkept
          rw [hlive]
          exact hkept
        refine Span.Holds.bind ((holds_pageSpan hd' hmem hrowLive hrows).weaken hback)
          fun _ v hv _ => Span.holds_pure hv trivial

end Page

/-! ## The others -/

section Beside

variable {w : World}

/-- A pending row is one from before, or starts before the first entry. -/
def Fresher (s t : Db) : Prop := ∀ q ∈ t.gc_pending, q ∈ s.gc_pending ∨ q.cursor = -1

section Keeps

variable {I : Db → Prop}
  (hI : ∀ s t, t.gc_pending = s.gc_pending → t.gc_epoch = s.gc_epoch → I s → I t)
  (hadd : ∀ pack s, I s → I (addPending pack s)) (hdrop : ∀ pack s, I s → I (dropPending pack s))
include hI

/-- Rows are posted without a word about pending packs. -/
theorem keeps_pending_insertObjects (p : PackId) (rows : List PostedRow) :
    Span.Keeps I (insertObjects p rows) := by
  unfold insertObjects
  split_ifs
  · exact .fail _
  · exact .each fun r _ => .bind (.exec fun s => hI s _ rfl rfl) fun _ =>
      .each fun q _ => .exec fun s => hI s _ rfl rfl

theorem keeps_pending_pushIndex (now : ℤ) (m : PackDto) (rows : List PostedRow) :
    Span.Keeps I (pushIndex now m rows) := by
  have hupsert : ∀ u, I u → I (m.upsert now u) := by
    intro u
    unfold PackDto.upsert
    split_ifs <;> exact hI u _ rfl rfl
  unfold pushIndex
  refine .bind .read fun db => ?_
  repeat' first
    | exact .fail _
    | exact .pure _
    | exact .exec hupsert
    | exact keeps_pending_insertObjects hI _ _
    | exact .exec fun s => hI s _ rfl rfl
    | refine .bind ?_ fun _ => ?_
    | split

include hadd hdrop

theorem commitKeeps_pending (req : CommitRequest) : CommitKeeps req I where
  enqueue kind run_at s := by
    obtain ⟨jobs, seq, heq⟩ := enqueue_eq kind run_at .none s
    rw [heq]
    exact hI s _ rfl rfl
  pull _ s := hI s _ rfl rfl
  finish _ _ _ s := hI s _ rfl rfl
  version s := hI s _ rfl rfl
  pending pack s _ := hadd pack s
  promote _ s _ := hI s _ rfl rfl
  demote _ s _ := hI s _ rfl rfl
  drop pack s _ := hdrop pack s
  feed _ s := hI s _ rfl rfl
  write _ _ s := hI s _ rfl rfl
  log _ _ _ s := hI s _ rfl rfl
  head _ s := hI s _ rfl rfl
  event _ s := hI s _ rfl rfl
  dropped s := hI s _ rfl rfl

/-- What reads the pending rows and the epoch only, and survives a row that is added and one that is
dropped, survives the others. -/
theorem Others.keeps (h : Others w s t) (hs : I s) : I t := by
  have hlanding : ∀ {α : Type} {x : Span Db Error α}, Span.Keeps I x → I (landing x s) := by
    intro α x hx
    unfold landing
    split
    · split_ifs
      · exact hs
      · exact hx.state hs
    · exact hx.state hs
  have hcommit := fun req now =>
    (commitKeeps_pending hI hadd hdrop req).commitPush w.env now
  cases h with
  | index now m rows _ _ => exact hlanding (keeps_pending_pushIndex hI now m rows)
  | commit now req _ => exact hlanding (hcommit req now)
  | importRows p rows _ _ => exact (keeps_pending_insertObjects hI p rows).state hs
  | importCommit now id lease p c m _ =>
    rcases commitMeta_cases w.env now id lease p c m s with ⟨-, ht⟩ |
      ⟨-, links, toc, parts, opens, tail, ht⟩
    · rcases ht with ht | ht <;> rw [ht]
      · exact hs
      · exact hI s _ rfl rfl hs
    · have hprepared : I (prepared now id lease p m s) := hI s _ rfl rfl hs
      rw [ht]
      exact hI ((commitPush w.env now p.request).run (prepared now id lease p m s)).state _ rfl rfl
        ((hcommit p.request now).state hprepared)
  | _ => exact hI s _ rfl rfl hs

end Keeps

theorem Others.fresher (h : Others w s t) : Fresher s t := by
  refine h.keeps (fun u v hp _ hu q hq => hu q (hp ▸ hq)) (fun pack u hu q hq => ?_)
    (fun pack u hu q hq => hu q (Table.mem_deleteWhere.mp hq).1) fun q hq => .inl hq
  rcases mem_addPending.mp hq with hq | ⟨-, rfl⟩
  · exact hu q hq
  · exact .inr rfl

/-- The others keep the invariant, and take the rows of packs that are not live only. -/
theorem FeedInv.beside (hs : FeedInv s) (h : Others w s t) : FeedInv t ∧ Spends s t := by
  have hrely := h.rely hs.tidy
  refine ⟨⟨hrely.tidy hs.tidy, fun p hp => ?_, fun q hq => ?_⟩, fun q hq => ?_⟩
  · by_cases hl : s.packLive p = true
    · exact hrely.injective (.inl hl) (hs.injective p hl)
    · exact (hrely.newLive p hp (by simpa using hl)).2.2.1
  · rcases h.fresher q hq with hq | hstart
    · refine (hs.fed q hq).imp id fun ⟨hl, hfed⟩ => ⟨hrely.live hl, fun r hr hrp hle hk => ?_⟩
      exact hrely.reached (hfed r ((hrely.rows r (hrp ▸ .inl hl)).mp hr) hrp hle hk)
    · exact .inl hstart
  · by_cases hl : s.packLive q.pack_id = true
    · exact .inl (Table.has_iff.mpr ⟨q, hrely.pending q hq hl, rfl⟩)
    · exact .inr (.inl (by simpa using hl))

end Beside

/-! ## Runs -/

section Runs

variable {w : World} {window : ℤ}

/-- One step. -/
theorem FeedInv.step (hrows : 1 ≤ rows) (hs : FeedInv s) (h : FeedStep w window rows s t) :
    FeedInv t ∧ Spends s t := by
  cases h with
  | page job now chain want h =>
      exact h.of_holds (holds_pendingPageWith hs window hrows job now chain want)
  | walk ids misses kids bits gen h =>
    exact hs.strolls (h.of_holds (holds_commitIds_strolls ids misses kids bits gen s))
  | beside h => exact hs.beside h

/-- A run. -/
theorem FeedInv.steps (hrows : 1 ≤ rows) (hs : FeedInv s)
    (h : Relation.ReflTransGen (FeedStep w window rows) s t) : FeedInv t := by
  induction h with
  | refl => exact hs
  | tail _ hstep ih => exact (ih.step hrows hstep).1

/-- The store at the beginning of a chain: no pack is pending, and the entries of live packs are
numbered. -/
structure FeedStart (s : Db) : Prop where
  tidy : s.Tidy
  injective : ∀ p, s.packLive p = true → s.Injective p
  pending : s.gc_pending = .empty

theorem FeedStart.inv (h : FeedStart s) : FeedInv s where
  tidy := h.tidy
  injective := h.injective
  fed q hq := absurd (h.pending ▸ hq) (Table.not_mem_empty q)

/-- In every run from the beginning of a chain, for any window and any number of rows: the objects
of a pending pack up to its cursor are in the frontier or were seen, blobs apart; and a pending row
goes only when that holds of all of them, or with the pack. -/
theorem pending_fed (w : World) (window : ℤ) (hrows : 1 ≤ rows) (hs : FeedStart s)
    (h : Relation.ReflTransGen (FeedStep w window rows) s t) :
    (∀ q ∈ t.gc_pending, ∀ r ∈ t.objects, r.pack_id = q.pack_id → (r.idx : ℤ) ≤ q.cursor →
      r.kind ≠ .blob → t.gc_frontier.has r.sha = true ∨ t.gc_seen.has r.sha = true) ∧
    ∀ u, FeedStep w window rows t u → ∀ q ∈ t.gc_pending, u.gc_pending.has q.pack_id = false →
      t.packLive q.pack_id = false ∨ ∀ r ∈ u.objects, r.pack_id = q.pack_id → r.kind ≠ .blob →
        u.gc_frontier.has r.sha = true ∨ u.gc_seen.has r.sha = true := by
  have hinv := hs.inv.steps hrows h
  refine ⟨fun q hq r hr hrp hle hk => ?_, fun u hu q hq hgone => ?_⟩
  · rcases hinv.fed q hq with hstart | ⟨-, hfed⟩
    · omega
    · exact hfed r hr hrp hle hk
  · rcases (hinv.step hrows hu).2 q hq with hhas | hdead | hfed
    · rw [hgone] at hhas
      cases hhas
    · exact .inl hdead
    · exact .inr hfed

/-! ### A run -/

/-- Settings and libraries for the run. -/
def pendingWorld : World where
  env := .default fun _ => true
  objs := ⟨fun _ => .blob, fun _ => 1, fun _ => none, fun _ => none, fun _ => none⟩
  pick := .first
  scan := id
  scan_perm := List.Perm.refl
  barrier := true

/-- A chain with the barrier, and a push whose pack has the entries 0 and 5. -/
def pendingStore : Db :=
  { Db.fresh with
    gc := { GcMeta.none with chain := some 1, started_at := some 0, barrier := some 1 }
    pushes := ⟨[⟨7, .open, none, "p", 0, none, 0, none, none, none, some adminAuth⟩], by decide⟩
    packs := ⟨[⟨1, .ingesting, 6, 60, some 7, 0, none⟩], by decide⟩
    objects := ⟨[⟨11, 1, 0, 12, 1, .commit, 1⟩, ⟨12, 1, 5, 13, 1, .tree, 1⟩], by decide⟩
    jobs := ⟨[⟨1, .gcMark, 1, 0, none, .none, .running, none, none, some 5, 0⟩], by decide⟩ }

/-- The commit of the push. -/
def pendingCommit : CommitRequest := ⟨7, some 1, "p", [], false⟩

/-- The store after the commit and one page of one row in a window of three. -/
def pendingPaged : Db :=
  ((pendingPageWith 3 1 ⟨1, 5, .none⟩ 0 (some 1) none).run
    (landing (commitPush pendingWorld.env 0 pendingCommit) pendingStore)).state

theorem pendingStore_start : FeedStart pendingStore where
  tidy := by
    have hnone : ∀ q, q ∉ pendingStore.gc_pending := Table.not_mem_empty
    exact ⟨fun m hm => absurd hm (Table.not_mem_empty m), fun n hn => (nomatch hn), List.nodup_nil,
      fun q hq => absurd hq (hnone q), fun q hq => absurd hq (hnone q)⟩
  injective p hp := by
    have hdead : ∀ row ∈ pendingStore.packs.rows, row.state ≠ .live := by decide
    obtain ⟨row, hrow, hlive⟩ := packLive_iff.mp hp
    exact absurd hlive (hdead row (Table.find_eq_some.mp hrow).1)
  pending := rfl

theorem pendingPaged_reached :
    Relation.ReflTransGen (FeedStep pendingWorld 3 1) pendingStore pendingPaged := by
  have howned : pendingStore.Owned 7 1 := by
    have hall : ∀ row ∈ pendingStore.packs.rows, row.push_id = some 7 := by decide
    exact fun row hrow => hall row (Table.find_eq_some.mp hrow).1
  have hready : pendingStore.Ready 1 := by
    constructor
    · have hall : ∀ r ∈ pendingStore.objects.rows, ∀ r' ∈ pendingStore.objects.rows,
          r.idx = r'.idx → r = r' := by decide
      exact fun r hr r' hr' _ _ => hall r hr r' hr'
    · have hall : ∀ row ∈ pendingStore.packs.rows, ∀ r ∈ pendingStore.objects.rows,
          r.idx < row.count := by decide
      exact fun row hrow _ r hr _ => hall row (Table.find_eq_some.mp hrow).1 r hr
  have hcommit : FeedStep pendingWorld 3 1 pendingStore
      (landing (commitPush pendingWorld.env 0 pendingCommit) pendingStore) := by
    refine .beside (.commit 0 pendingCommit fun p hp => ?_)
    cases hp
    exact ⟨howned, hready⟩
  exact .head hcommit (.single (.page ⟨1, 5, .none⟩ 0 (some 1) none (.inr rfl)))

/-- The pack is pending with its cursor at the first entry, which is in the frontier. -/
theorem pending_fed_paged :
    (∃ q ∈ pendingPaged.gc_pending.rows, q.pack_id = 1 ∧ q.cursor = 0) ∧
      pendingPaged.gc_frontier.has 11 = true ∧
      ∀ q ∈ pendingPaged.gc_pending, ∀ r ∈ pendingPaged.objects, r.pack_id = q.pack_id →
        (r.idx : ℤ) ≤ q.cursor → r.kind ≠ .blob →
          pendingPaged.gc_frontier.has r.sha = true ∨ pendingPaged.gc_seen.has r.sha = true :=
  ⟨by decide +kernel, by decide +kernel,
    (pending_fed pendingWorld 3 (le_refl 1) pendingStore_start pendingPaged_reached).1⟩

end Runs

end GitEdge
