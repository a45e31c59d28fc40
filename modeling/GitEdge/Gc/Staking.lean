import GitEdge.Gc.Walking
import GitEdge.Jobs.Wake

/-!
# A compaction stakes a chain

`gc_compact` of `jobs/compact.rs` is one span: it drops a chain that nobody owns, forgets strikes of
packs that are gone, takes a cohort, leaves out the packs with more rows than entries, and stakes a
chain on the rest. There is nothing to mark: the bitmaps hold the first occurrence of each object in
the order of the pack ids, and the builder copies what they hold. So the new pack has each object of
the cohort once if each is marked in one pack, which is `compact_marks_once`.
-/

namespace GitEdge

open Sql

variable {seen : List Oid} {db s : Db} {bs : Touched}

/-! ## The span -/

/-- `RETRY_MS`. -/
def retryMs : ℤ := 30000

/-- `gc_compact_entry_guard`: an outcome when the slice ends here. -/
def compactEntryGuard (now : ℤ) : Span Db Error (Option SliceOutcome) := do
  let db ← Span.read
  if db.gc.started_at.isSome then
    if db.orphaned then do
      orphanAbort now
      pure none
    else pure (some (.reschedule (now + retryMs)))
  else if db.chainBusy then pure (some (.reschedule (now + retryMs)))
  else pure none

/-- `gc_compact_prune_quarantine`. -/
def pruneQuarantine (packs : List PackRow) : Span Db Error Unit := do
  let db ← Span.read
  let kept := db.quarantine.filter fun q => q.1 ∈ packs.map (·.id)
  if kept.length = db.quarantine.length then pure ()
  else Span.exec fun db => { db with quarantine := kept }

/-- Whether a pack has no more rows than entries. -/
def Db.rowsFit (db : Db) (p : PackRow) : Bool :=
  db.objects.countWhere (fun o => o.pack_id = p.id) ≤ p.count

/-- `gc_compact_t5_filter`: the packs of the cohort that are sound; the others are quarantined. -/
def filterCohort (cohort : List PackRow) : Span Db Error (List PackRow) := do
  let db ← Span.read
  let poisoned := cohort.filter fun p => !db.rowsFit p
  if poisoned = [] then pure cohort
  else do
    Span.exec fun db =>
      { db with quarantine := poisoned.foldl (fun q p => quarantineBump q p.id 2) db.quarantine }
    pure (cohort.filter fun p => db.rowsFit p)

/-- The rows of a pack in the order of its entries. -/
def Db.packRows (db : Db) (pack : PackId) : List ObjRow :=
  (db.objects.select fun o => o.pack_id = pack).insertionSort fun a b => a.idx ≤ b.idx

/-- The bits of the rows whose objects are new, and the objects seen. -/
def dedupRows : List ObjRow → List Oid → List Bool → Except Error (List Oid × List Bool)
  | [], seen, b => .ok (seen, b)
  | r :: rs, seen, b =>
    if r.sha ∈ seen then dedupRows rs seen b
    else
      match Bits.set? b r.idx with
      | none => .error (.internal "idx past pack count")
      | some b => dedupRows rs (r.sha :: seen) b

/-- The loop of `gc_compact_dedup_bitmaps`, from the objects seen so far. -/
def dedupPacks (db : Db) : List PackRow → List Oid → Except Error Touched
  | [], _ => .ok []
  | p :: ps, seen =>
    match dedupRows (db.packRows p.id) seen
        (Bits.zero (max p.count (db.maxIdx p.id + 1).toNat)) with
    | .error e => .error e
    | .ok (seen, b) => (dedupPacks db ps seen).map fun bs => (p.id, b) :: bs

/-- `gc_compact_dedup_bitmaps`. -/
def dedupBitmaps (db : Db) (good : List PackRow) : Except Error Touched :=
  dedupPacks db (good.insertionSort fun p q => p.id ≤ q.id) []

/-- The insert of the cohort with its bitmaps. -/
def stakeRow (b : PackId × List Bool) (db : Db) : Db :=
  { db with marked := db.marked.insertIgnore ⟨b.1, b.2, none⟩ }

/-- `gc_compact_stake_chain`. -/
def stakeChain (now : ℤ) (fresh : ℕ) (bitmaps : Touched) : Span Db Error Unit := do
  wipeScratch
  Span.exec clearGc
  Span.exec (putGc fun g => { g with mode := some .compact })
  Span.exec (putGc fun g => { g with chain := some fresh })
  Span.exec (putGc fun g => { g with started_at := some now })
  Span.exec (putGc fun g => { g with phase := some .build })
  Span.each (fun b => Span.exec (stakeRow b)) bitmaps
  Span.exec fun db => enqueue .gcConsolidate now db.chainPayload db

/-- `gc_compact`. -/
def gcCompact (env : Env) (now : ℤ) (fresh : ℕ) : Span Db Error SliceOutcome := do
  match ← compactEntryGuard now with
  | some o => pure o
  | none =>
    let db ← Span.read
    let packs := db.livePacks
    pruneQuarantine packs
    let db ← Span.read
    match selectCohort packs db.quarantined now (knobs env) with
    | none => pure .done
    | some cohort =>
      let good ← filterCohort cohort
      if good.length < 2 then pure .done
      else
        let db ← Span.read
        match dedupBitmaps db good with
        | .error e => Span.fail e
        | .ok bitmaps => do
          stakeChain now fresh bitmaps
          pure .done

/-! ## The bitmaps -/

/-- A bitmap marks the object: it has the bit of the object's row in its pack. -/
def Db.Marks (db : Db) (pack : PackId) (b : List Bool) (x : Oid) : Prop :=
  ∃ r ∈ db.objects, r.pack_id = pack ∧ r.sha = x ∧ Bits.get b r.idx = true

/-- What the loop over the rows of a pack does: the objects of the rows are seen, and the new bits
are those of rows whose objects were new. -/
structure Dedup (rs : List ObjRow) (seen seen' : List Oid) (b b' : List Bool) : Prop where
  seen_iff : ∀ x, x ∈ seen' ↔ x ∈ seen ∨ ∃ r ∈ rs, r.sha = x
  kept : ∀ i, Bits.get b i = true → Bits.get b' i = true
  bits : ∀ i, Bits.get b' i = true → Bits.get b i = true ∨ ∃ r ∈ rs, r.idx = i ∧ r.sha ∉ seen
  marked : ∀ x, x ∉ seen → (∃ r ∈ rs, r.sha = x) → ∃ r ∈ rs, r.sha = x ∧ Bits.get b' r.idx = true

theorem dedupRows_spec {rs : List ObjRow} {seen' : List Oid} {b b' : List Bool}
    (h : dedupRows rs seen b = .ok (seen', b')) : Dedup rs seen seen' b b' := by
  induction rs generalizing seen b with
  | nil =>
    cases h
    exact ⟨by simp, fun _ hi => hi, fun _ hi => .inl hi, by simp⟩
  | cons r rs ih =>
    unfold dedupRows at h
    split_ifs at h with hr
    · have hrest := ih h
      refine ⟨fun x => ?_, hrest.kept, fun i hi => ?_, fun x hx hex => ?_⟩
      · rw [hrest.seen_iff, List.exists_mem_cons_iff]
        refine ⟨Or.imp_right .inr, ?_⟩
        rintro (hx | rfl | hx)
        · exact .inl hx
        · exact .inl hr
        · exact .inr hx
      · refine (hrest.bits i hi).imp_right ?_
        rintro ⟨q, hq, hqi, hnew⟩
        exact ⟨q, List.mem_cons_of_mem r hq, hqi, hnew⟩
      · rw [List.exists_mem_cons_iff] at hex
        rcases hex with rfl | hex
        · exact absurd hr hx
        · obtain ⟨q, hq, hqx, hbit⟩ := hrest.marked x hx hex
          exact ⟨q, List.mem_cons_of_mem r hq, hqx, hbit⟩
    · cases hset : Bits.set? b r.idx with
      | none =>
        rw [hset] at h
        cases h
      | some c =>
        rw [hset] at h
        have hrest := ih h
        have hbit : Bits.get b' r.idx = true :=
          hrest.kept _ (by rw [Bits.get_set? hset, decide_eq_true rfl, Bool.or_true])
        refine ⟨fun x => ?_, fun i hi => hrest.kept i ?_, fun i hi => ?_, fun x hx hex => ?_⟩
        · rw [hrest.seen_iff, List.mem_cons, List.exists_mem_cons_iff, eq_comm]
          tauto
        · rw [Bits.get_set? hset, hi, Bool.true_or]
        · rcases hrest.bits i hi with hi | ⟨q, hq, hqi, hnew⟩
          · rw [Bits.get_set? hset, Bool.or_eq_true, decide_eq_true_eq] at hi
            refine hi.imp_right ?_
            rintro rfl
            exact ⟨r, List.mem_cons_self, rfl, hr⟩
          · exact .inr ⟨q, List.mem_cons_of_mem r hq, hqi, fun hq =>
              hnew (List.mem_cons_of_mem _ hq)⟩
        · by_cases hxr : r.sha = x
          · exact ⟨r, List.mem_cons_self, hxr, hbit⟩
          · rw [List.exists_mem_cons_iff] at hex
            have hnew : x ∉ r.sha :: seen := by
              rw [List.mem_cons, not_or]
              exact ⟨Ne.symm hxr, hx⟩
            obtain ⟨q, hq, hqx, hbit⟩ := hrest.marked x hnew (hex.resolve_left hxr)
            exact ⟨q, List.mem_cons_of_mem r hq, hqx, hbit⟩

theorem mem_packRows {pack : PackId} {r : ObjRow} :
    r ∈ db.packRows pack ↔ r ∈ db.objects ∧ r.pack_id = pack := by
  rw [Db.packRows, List.mem_insertionSort, Table.mem_select, decide_eq_true_eq]

/-- There is a bitmap for each pack. -/
theorem dedupPacks_packs {ps : List PackRow} (h : dedupPacks db ps seen = .ok bs) :
    bs.map (·.1) = ps.map (·.id) := by
  induction ps generalizing seen bs with
  | nil =>
    cases h
    rfl
  | cons p ps ih =>
    unfold dedupPacks at h
    split at h
    · cases h
    rename_i seen' b hrows
    cases hrest : dedupPacks db ps seen' with
    | error e =>
      rw [hrest] at h
      cases h
    | ok bs' =>
      rw [hrest] at h
      cases h
      simp [ih hrest]

/-- What the loop over the packs does. -/
structure DedupAll (db : Db) (ps : List PackRow) (seen : List Oid) (bs : Touched) : Prop where
  bits : ∀ c ∈ bs, ∀ i, Bits.get c.2 i = true →
    ∃ r ∈ db.objects, r.pack_id = c.1 ∧ r.idx = i ∧ r.sha ∉ seen
  once : ∀ x, x ∉ seen → (∃ p ∈ ps, ∃ r ∈ db.objects, r.pack_id = p.id ∧ r.sha = x) →
    ∃ c ∈ bs, db.Marks c.1 c.2 x ∧ ∀ c' ∈ bs, db.Marks c'.1 c'.2 x → c' = c

theorem dedupPacks_spec {ps : List PackRow} (hinj : ∀ p ∈ ps, db.Injective p.id)
    (h : dedupPacks db ps seen = .ok bs) : DedupAll db ps seen bs := by
  induction ps generalizing seen bs with
  | nil =>
    cases h
    exact ⟨by simp, by simp⟩
  | cons p ps ih =>
    unfold dedupPacks at h
    split at h
    · cases h
    rename_i seen' b hrows
    cases hrest : dedupPacks db ps seen' with
    | error e =>
      rw [hrest] at h
      cases h
    | ok bs' =>
      rw [hrest] at h
      cases h
      have hhead := dedupRows_spec hrows
      have htail := ih (fun q hq => hinj q (List.mem_cons_of_mem p hq)) hrest
      have hentry : ∀ i, Bits.get b i = true →
          ∃ r ∈ db.objects, r.pack_id = p.id ∧ r.idx = i ∧ r.sha ∉ seen := by
        intro i hi
        rcases hhead.bits i hi with hzero | ⟨r, hr, hri, hnew⟩
        · rw [Bits.get_zero] at hzero
          cases hzero
        · obtain ⟨hr, hrp⟩ := mem_packRows.mp hr
          exact ⟨r, hr, hrp, hri, hnew⟩
      -- What is seen is not marked again, as no two rows of a pack share a bit.
      have hlater : ∀ c ∈ bs', ∀ x, db.Marks c.1 c.2 x → x ∉ seen' := by
        rintro c hc x ⟨r, hr, hrp, rfl, hbit⟩ hseen
        obtain ⟨q, hq, hqp, hqi, hnew⟩ := htail.bits c hc _ hbit
        have hid : c.1 ∈ ps.map (·.id) := dedupPacks_packs hrest ▸ List.mem_map.mpr ⟨c, hc, rfl⟩
        obtain ⟨p', hp', hpid⟩ := List.mem_map.mp hid
        have heq := hinj p' (List.mem_cons_of_mem p hp') q hq r hr (hqp.trans hpid.symm)
          (hrp.trans hpid.symm) hqi
        exact hnew (heq ▸ hseen)
      refine ⟨fun c hc i hi => ?_, fun x hx hex => ?_⟩
      · rcases List.mem_cons.mp hc with rfl | hc
        · exact hentry i hi
        · obtain ⟨r, hr, hrp, hri, hnew⟩ := htail.bits c hc i hi
          exact ⟨r, hr, hrp, hri, fun hs => hnew ((hhead.seen_iff _).mpr (.inl hs))⟩
      · by_cases hin : ∃ r ∈ db.packRows p.id, r.sha = x
        · -- The object is marked here, and seen from here on.
          obtain ⟨r, hr, hrx, hbit⟩ := hhead.marked x hx hin
          obtain ⟨hr, hrp⟩ := mem_packRows.mp hr
          refine ⟨(p.id, b), List.mem_cons_self, ⟨r, hr, hrp, hrx, hbit⟩, fun c hc hmarks => ?_⟩
          rcases List.mem_cons.mp hc with rfl | hc
          · rfl
          · exact absurd ((hhead.seen_iff x).mpr (.inr hin)) (hlater c hc x hmarks)
        · have hnew : x ∉ seen' := fun hs => ((hhead.seen_iff x).mp hs).elim hx hin
          have hex' : ∃ q ∈ ps, ∃ r ∈ db.objects, r.pack_id = q.id ∧ r.sha = x := by
            obtain ⟨q, hq, r, hr, hrq, hrx⟩ := hex
            rcases List.mem_cons.mp hq with rfl | hq
            · exact absurd ⟨r, mem_packRows.mpr ⟨hr, hrq⟩, hrx⟩ hin
            · exact ⟨q, hq, r, hr, hrq, hrx⟩
          obtain ⟨c, hc, hmarks, honly⟩ := htail.once x hnew hex'
          refine ⟨c, List.mem_cons_of_mem _ hc, hmarks, fun c' hc' hmarks' => ?_⟩
          rcases List.mem_cons.mp hc' with rfl | hc'
          · obtain ⟨r, hr, hrp, hrx, -⟩ := hmarks'
            exact absurd ⟨r, mem_packRows.mpr ⟨hr, hrp⟩, hrx⟩ hin
          · exact honly c' hc' hmarks'

/-! ## The chain -/

/-- The greedy loop takes packs from the front. -/
theorem takeCohort_isPrefix (t : ℕ) (k : Knobs) (ps out : List PackRow) (rows bytes : ℕ) :
    takeCohort t k ps out rows bytes <+: out ++ ps := by
  induction ps generalizing out rows bytes with
  | nil => exact List.prefix_append out []
  | cons p ps ih =>
    unfold takeCohort
    split_ifs
    · exact List.prefix_append out (p :: ps)
    · have htail := ih (out ++ [p]) (rows + p.count) (bytes + p.bytes)
      rwa [List.append_assoc, List.singleton_append] at htail

/-- A cohort of live packs has each of them once. -/
theorem nodup_selectCohort {quarantined : List PackId} {now : ℤ} {k : Knobs} {c : List PackRow}
    (h : selectCohort db.livePacks quarantined now k = some c) :
    (c.map (·.id)).Nodup ∧ ∀ p ∈ c, db.packLive p.id = true := by
  obtain ⟨i, -, rfl, -⟩ := selectCohort_eq_some h
  set ripened := ripe db.livePacks quarantined now k i with hripe
  have hsub := (takeCohort_isPrefix k.threshold k (ripened.insertionSort olderPack) [] 0 0).sublist
  rw [List.nil_append] at hsub
  have hperm := List.perm_insertionSort olderPack ripened
  have hlive : ripened.Sublist db.packs.rows := List.filter_sublist.trans List.filter_sublist
  refine ⟨((hperm.map _).nodup_iff.mpr (db.packs.nodup.sublist (hlive.map _))).sublist
    (hsub.map _), fun p hp => ?_⟩
  obtain ⟨hp, -⟩ := mem_ripe (hperm.mem_iff.mp (hsub.subset hp))
  obtain ⟨hp, hst⟩ := Table.mem_select.mp hp
  exact packLive_iff.mpr ⟨p, Table.find_eq_some.mpr ⟨hp, rfl⟩, of_decide_eq_true hst⟩

/-- What the chain is staked on. -/
structure Db.StakedOn (t : Db) (good : List PackRow) (bs : Touched) : Prop where
  two : 2 ≤ good.length
  nodup : (good.map (·.id)).Nodup
  live : ∀ p ∈ good, t.packLive p.id = true
  bitmaps : ∃ db : Db, db.objects = t.objects ∧ dedupBitmaps db good = .ok bs
  marked : t.marked.rows = bs.map fun b => ⟨b.1, b.2, none⟩

theorem rows_stakeRows (hnew : ∀ b ∈ bs, s.marked.has b.1 = false) (hnodup : (bs.map (·.1)).Nodup) :
    (bs.foldl (fun db b => stakeRow b db) s).marked.rows =
      s.marked.rows ++ bs.map fun b => ⟨b.1, b.2, none⟩ := by
  induction bs generalizing s with
  | nil => simp
  | cons b bs ih =>
    obtain ⟨hb, hnodup⟩ := List.nodup_cons.mp hnodup
    rw [List.foldl_cons, ih (fun c hc => ?_) hnodup]
    · rw [stakeRow, Table.rows_insertIgnore_of_not_has (hnew b List.mem_cons_self)]
      simp
    · have hne : b.1 ≠ c.1 := fun heq => hb (List.mem_map.mpr ⟨c, hc, heq.symm⟩)
      rw [stakeRow, Table.has_insertIgnore, hnew c (List.mem_cons_of_mem b hc), Bool.false_or]
      exact decide_eq_false hne

theorem stakeRows_eq (bs : Touched) (s : Db) : ∃ marked,
    bs.foldl (fun db b => stakeRow b db) s = { s with marked := marked } := by
  induction bs generalizing s with
  | nil => exact ⟨s.marked, rfl⟩
  | cons b bs ih =>
    obtain ⟨marked, heq⟩ := ih (stakeRow b s)
    exact ⟨marked, heq⟩

section Compact

variable {fresh : ℕ}

/-- If the fresh chain is there, it is staked on a cohort. -/
def Db.Fresh (fresh : ℕ) (t : Db) : Prop := t.gc.chain = some fresh → ∃ good bs, t.StakedOn good bs

theorem holdsAt_stakeChain (now : ℤ) (fresh : ℕ) {good : List PackRow} (htwo : 2 ≤ good.length)
    (hnodup : (good.map (·.id)).Nodup) (hlive : ∀ p ∈ good, s.packLive p.id = true)
    (hbits : dedupBitmaps s good = .ok bs) :
    (stakeChain now fresh bs).HoldsAt (fun _ => False) (Db.Fresh fresh) s fun _ _ => True := by
  unfold stakeChain wipeScratch
  simp only [Span.bind_assoc]
  iterate 11 refine Span.holdsAt_exec_bind False.elim ?_
  refine Span.holdsAt_each_bind (fun _ => id) ?_
  -- The tables of the old chain are empty, and its `gc.*` rows are gone.
  generalize hdb : putGc _ _ = db
  have hobjects : db.objects = s.objects := by rw [← hdb]; rfl
  have hpacks : db.packs = s.packs := by rw [← hdb]; rfl
  have hmarked : db.marked = .empty := by rw [← hdb]; rfl
  have hids : (bs.map (·.1)).Nodup := by
    rw [dedupPacks_packs hbits]
    exact ((List.perm_insertionSort _ good).map _).nodup_iff.mpr hnodup
  have hrows := rows_stakeRows (s := db) (fun b _ => by rw [hmarked]; rfl) hids
  obtain ⟨marked, heq⟩ := stakeRows_eq bs db
  rw [heq] at hrows ⊢
  obtain ⟨jobs, seq, henq⟩ := enqueue_eq .gcConsolidate now
    (Db.chainPayload { db with marked := marked }) { db with marked := marked }
  refine Span.Holds.holdsAt (Span.holds_exec (fun _ => ⟨good, bs, ?_⟩) trivial)
  rw [henq]
  refine ⟨htwo, hnodup, fun p hp => ?_, ⟨s, hobjects.symm, hbits⟩, ?_⟩
  · show Db.packLive db p.id = true
    rw [Db.packLive, hpacks]
    exact hlive p hp
  · rw [hmarked] at hrows
    exact hrows

/-- The statements of an abort leave no chain, or the one that was there. -/
theorem keeps_unstaked_orphanAbort (now : ℤ) :
    Span.Keeps (fun t : Db => t.gc.chain ≠ some fresh) (orphanAbort now) := by
  have hnone : ∀ t : Db, (clearGc t).gc.chain ≠ some fresh := fun _ h => nomatch h
  unfold orphanAbort wipeAll wipeRetired wipeNewPack wipeScratch preserveDeadErrors
  repeat' first
    | exact .read
    | exact .pure _
    | exact .exec fun _ h => h
    | exact .exec fun t _ => hnone t
    | refine .each fun _ _ => ?_
    | refine .bind ?_ fun _ => ?_
    | split

theorem holdsAt_gcCompact (env : Env) (now : ℤ) (hs : s.gc.chain ≠ some fresh) :
    (gcCompact env now fresh).HoldsAt (fun _ => False) (Db.Fresh fresh) s fun _ _ => True := by
  have hkeep : ∀ {α : Type} {x : Span Db Error α} {t : Db}, t.gc.chain ≠ some fresh →
      Span.Keeps (fun t : Db => t.gc.chain ≠ some fresh) x →
      x.HoldsAt (fun _ => False) (Db.Fresh fresh) t fun _ t => t.gc.chain ≠ some fresh :=
    fun ht hx => ((hx.holds ht).weaken fun _ hne h => absurd h hne).holdsAt
  have hguard : Span.Keeps (fun t : Db => t.gc.chain ≠ some fresh) (compactEntryGuard now) := by
    refine .bind .read fun db => ?_
    split_ifs
    · exact .bind (keeps_unstaked_orphanAbort now) fun _ => .pure _
    all_goals exact .pure _
  have hend : ∀ {α : Type} {a : α} {t : Db}, t.gc.chain ≠ some fresh →
      (pure a : Span Db Error α).HoldsAt (fun _ => False) (Db.Fresh fresh) t fun _ _ => True :=
    fun ht => Span.Holds.holdsAt (Span.holds_pure (fun h => absurd h ht) trivial)
  refine (hkeep hs hguard).bind fun out t _ ht => ?_
  cases out with
  | some o => exact hend ht
  | none =>
    refine Span.holdsAt_read_bind.mpr ?_
    -- The packs stay what they are from here to the stake.
    have hprune : Span.Keeps (fun u : Db => u.gc.chain ≠ some fresh ∧ u.packs = t.packs)
        (pruneQuarantine t.livePacks) := by
      refine .bind .read fun db => ?_
      dsimp only
      split_ifs
      · exact .pure ()
      · exact .exec fun _ h => h
    refine (((hprune.holds ⟨ht, rfl⟩).weaken fun _ hne h => absurd h hne.1).holdsAt).bind
      fun _ u _ hu => Span.holdsAt_read_bind.mpr ?_
    cases hcohort : selectCohort t.livePacks u.quarantined now (knobs env) with
    | none => exact hend hu.1
    | some cohort =>
      obtain ⟨hnodup, hlive⟩ := nodup_selectCohort hcohort
      have hfilter : (filterCohort cohort).HoldsAt (fun _ => False) (Db.Fresh fresh) u
          fun good v => v.gc.chain ≠ some fresh ∧ v.packs = t.packs ∧ good.Sublist cohort := by
        unfold filterCohort
        rw [Span.holdsAt_read_bind]
        dsimp only
        split_ifs
        · exact Span.Holds.holdsAt (Span.holds_pure (fun h => absurd h hu.1)
            ⟨hu.1, hu.2, .refl _⟩)
        · refine Span.holdsAt_exec_bind False.elim ?_
          exact Span.Holds.holdsAt (Span.holds_pure (fun h => absurd h hu.1)
            ⟨hu.1, hu.2, List.filter_sublist⟩)
      refine hfilter.bind fun good v _ hv => ?_
      split_ifs with hlen
      · exact hend hv.1
      refine Span.holdsAt_read_bind.mpr ?_
      cases hbits : dedupBitmaps v good with
      | error e => exact Span.Holds.holdsAt (Span.holds_fail fun h => absurd h hv.1)
      | ok bs =>
        have hstake := holdsAt_stakeChain now fresh (not_lt.mp hlen)
          (hnodup.sublist (hv.2.2.map _)) (fun p hp => ?_) hbits
        · exact hstake.bind fun _ w hw _ => Span.Holds.holdsAt (Span.holds_pure hw trivial)
        · rw [Db.packLive, hv.2.1]
          exact hlive p (hv.2.2.subset hp)

/-- A chain that a compaction stakes has at least two packs, which are live; and each object of the
cohort is marked in one of them, if the entries of a pack have their own numbers. -/
theorem compact_marks_once (env : Env) (now : ℤ) (fresh : ℕ) {t : Db} (hs : s.gc.chain ≠ some fresh)
    (ht : ((gcCompact env now fresh).run s).state = t) (hchain : t.gc.chain = some fresh)
    (hinj : ∀ p ∈ t.cohort, t.Injective p) :
    2 ≤ t.cohort.length ∧ t.CohortLive ∧ t.MarksEntries ∧
      ∀ r ∈ t.objects, r.pack_id ∈ t.cohort →
        ∃! m, m ∈ t.marked ∧ t.Marks m.pack_id m.bitmap r.sha := by
  obtain ⟨good, bs, hstaked⟩ := ht ▸ (holdsAt_gcCompact env now hs).2.1 (ht ▸ hchain)
  obtain ⟨db, hobjects, hbits⟩ := hstaked.bitmaps
  have hperm := List.perm_insertionSort (fun p q : PackRow => p.id ≤ q.id) good
  have hpacks := dedupPacks_packs hbits
  have hcohort : t.cohort = bs.map (·.1) := by
    rw [Db.cohort, hstaked.marked, List.map_map]
    rfl
  have hmem : ∀ p, p ∈ t.cohort ↔ ∃ q ∈ good, q.id = p := by
    intro p
    rw [hcohort, hpacks, (hperm.map _).mem_iff, List.mem_map]
  have hmarks : ∀ p b x, t.Marks p b x ↔ db.Marks p b x := by
    intro p b x
    rw [Db.Marks, Db.Marks, hobjects]
  have hall : DedupAll db _ [] bs := dedupPacks_spec (fun p hp => by
    have hinjective := hinj p.id ((hmem _).mpr ⟨p, hperm.mem_iff.mp hp, rfl⟩)
    rwa [Db.Injective, ← hobjects] at hinjective) hbits
  refine ⟨?_, fun p hp => ?_, fun m hm i hi => ?_, fun r hr hrp => ?_⟩
  · rw [hcohort, hpacks, List.length_map, hperm.length_eq]
    exact hstaked.two
  · obtain ⟨q, hq, rfl⟩ := (hmem p).mp hp
    exact hstaked.live q hq
  · rw [Table.mem_def, hstaked.marked] at hm
    obtain ⟨c, hc, rfl⟩ := List.mem_map.mp hm
    obtain ⟨r, hr, hrp, hri, -⟩ := hall.bits c hc i hi
    exact ⟨r, hobjects ▸ hr, hrp, hri⟩
  · obtain ⟨q, hq, hqp⟩ := (hmem _).mp hrp
    obtain ⟨c, hc, hcx, honly⟩ := hall.once r.sha List.not_mem_nil
      ⟨q, hperm.mem_iff.mpr hq, r, hobjects ▸ hr, hqp.symm, rfl⟩
    refine ⟨⟨c.1, c.2, none⟩, ⟨?_, (hmarks _ _ _).mpr hcx⟩, fun m hm => ?_⟩
    · rw [Table.mem_def, hstaked.marked]
      exact List.mem_map.mpr ⟨c, hc, rfl⟩
    · obtain ⟨hm, hmx⟩ := hm
      rw [Table.mem_def, hstaked.marked] at hm
      obtain ⟨c', hc', rfl⟩ := List.mem_map.mp hm
      rw [honly c' hc' ((hmarks _ _ _).mp hmx)]

end Compact

/-- Two small packs that share an object. -/
def twoPacks : Db :=
  { Db.fresh with
    packs := ⟨[⟨1, .live, 2, 36, none, 0, none⟩, ⟨2, .live, 2, 36, none, 0, none⟩], by decide⟩
    objects := ⟨[⟨11, 1, 0, 12, 1, .blob, 1⟩, ⟨12, 1, 1, 13, 1, .blob, 1⟩,
      ⟨12, 2, 0, 12, 1, .blob, 1⟩, ⟨13, 2, 1, 13, 1, .blob, 1⟩], by decide⟩ }

/-- A fan-in of two. -/
def pairEnv : Env := { Env.default (fun _ => true) with compact_fanin := 2 }

/-- The chain that is staked on the two packs. -/
def twoPacksStaked : Db := ((gcCompact pairEnv 60000 5).run twoPacks).state

/-- The object that both packs hold is marked in one of them. -/
theorem compact_marks_once_shared : twoPacksStaked.cohort = [1, 2] ∧
    ∃! m, m ∈ twoPacksStaked.marked ∧ twoPacksStaked.Marks m.pack_id m.bitmap 12 := by
  have hall : ∀ r ∈ twoPacksStaked.objects.rows, ∀ r' ∈ twoPacksStaked.objects.rows,
      r.pack_id = r'.pack_id → r.idx = r'.idx → r = r' := by decide +kernel
  have honce := (compact_marks_once (s := twoPacks) pairEnv 60000 5 (by decide)
    rfl (by decide +kernel) fun p _ r hr r' hr' hrp hrp' =>
      hall r hr r' hr' (hrp.trans hrp'.symm)).2.2.2
  exact ⟨by decide +kernel, honce ⟨12, 1, 1, 13, 1, .blob, 1⟩
    (Table.mem_def.mpr (by decide +kernel))
    (by decide +kernel)⟩

end GitEdge
