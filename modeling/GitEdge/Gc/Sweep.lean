import GitEdge.Gc.Build

/-!
# The sweep

`gc_sweep` of `jobs/gc.rs`. A chain without the barrier retires its whole cohort in one span, unless
the refs moved since the mark (`pr5_sweep`). A chain with the barrier first goes on walking until
the frontier and the pending packs are empty, and then retires the packs whose marked entries were
all built (`fenced_swap`); when pushes keep it from getting there, it retires the packs that hold
nothing that is not elsewhere (`fallback_span`). The packs to retire are recorded before the first
of them dies, so that a later slice can end what an interrupted one began (`retire_resume`).
-/

namespace GitEdge

open Sql

/-- `swap_tries`: the checks that saw the refs move, after which the sweep falls back. -/
def swapTries : ℕ := 8

/-- `swap_max_slices`: the slices after which the sweep falls back. -/
def swapMaxSlices : ℕ := 64

/-- `stray`: the job was queued by a chain that is not the one in `gc.chain`. -/
def Db.stray (db : Db) (job : GcJob) : Bool :=
  match job.payload with
  | .chain c => db.gc.chain ≠ some c
  | _ => false

/-- `swap_meta`. -/
def Db.swapMeta (db : Db) : SwapMeta := db.gc.swap.getD ⟨db.refs_version, 0, 0⟩

/-! ## Bitmaps -/

/-- `bm_bitmap_subset`. -/
def bitmapSubset (bitmap built : List Bool) : Bool :=
  (List.range bitmap.length).all fun i => !Bits.get bitmap i || Bits.get built i

/-- `bm_lossy`: fewer than `count` of the first `count` bits are set. -/
def bitmapLossy (built : List Bool) (count : ℕ) : Bool := Bits.popcount (built.take count) < count

/-- `bm_all_set`. -/
def allSet (built : List Bool) (idxs : List ℕ) : Bool := idxs.all fun i => Bits.get built i

/-! ## The end of a chain -/

/-- `swap_stats`: the packs retired and the packs of the cohort that are live, with their bytes. -/
def Db.swapStats (db : Db) (ids : List PackId) : ℕ × ℕ × ℕ × ℕ :=
  let kept := db.packs.select fun p => p.id ∈ db.cohort && p.state = .live
  let retired := db.packs.select fun p => p.id ∈ ids
  (ids.length, kept.length, (retired.map (·.bytes)).sum, (kept.map (·.bytes)).sum)

/-- `DELETE FROM meta WHERE key LIKE 'resurrected.gc_%'`. -/
def clearResurrected (db : Db) : Db :=
  { db with resurrected := db.resurrected.deleteWhere fun r => r.1.isGc }

/-- `release_hold`: a queued compaction is due now, and a queued mark waits behind it. -/
def releaseHold (env : Env) (now : ℤ) : Span Db Error Unit := do
  Span.exec fun db =>
    { db with
      jobs := db.jobs.updateWhere
        (fun j => j.kind = .gcCompact && j.state = .queued && j.attempts = 0 && j.last_error.isNone)
        (fun j => { j with run_at := now }) fun _ => rfl }
  let db ← Span.read
  if db.jobs.rows.any fun j => j.kind = .gcCompact && j.state = .queued && j.run_at ≤ now then
    Span.exec fun db =>
      { db with
        jobs := db.jobs.updateWhere (fun j => j.kind = .gcMark && j.state = .queued)
          (fun j => { j with run_at := max j.run_at (now + max env.gc_quiet_ms 1) }) fun _ => rfl }
  else pure ()

/-- `end_of_chain`. -/
def endOfChain (env : Env) (now : ℤ) (stats : ℕ × ℕ × ℕ × ℕ) (lossy fallback : Bool)
    (sm : SwapMeta) : Span Db Error Unit := do
  Span.exec fun db =>
    { db with
      gc_last_swap := some ⟨stats.1, stats.2.1, stats.2.2.1, stats.2.2.2, lossy, fallback,
        sm.tries, sm.slices⟩ }
  Span.exec fun db => { db with gc_fallbacks := if fallback then db.gc_fallbacks + 1 else 0 }
  Span.exec clearResurrected
  Span.exec clearGc
  wipeScratch
  trigger env now
  releaseHold env now

/-- `wipe_path`. -/
def wipePath (env : Env) (now : ℤ) (sm : SwapMeta) (fallback : Bool) : Span Db Error Unit := do
  let db ← Span.read
  Span.exec fun db => deleteNotLive (fun p => p ∈ db.cohort) db
  wipeAll now
  endOfChain env now (db.swapStats []) false fallback sm

/-! ## Retirement -/

/-- `retire_finish`. -/
def retireFinish (env : Env) (now : ℤ) (it : RetireIntent) (sm : SwapMeta) :
    Span Db Error Unit := do
  Span.exec (killPacks (fun p => p.id ∈ it.ids && p.state = .live) now)
  let db ← Span.read
  Span.exec (deleteObjects fun p => p ∈ it.ids)
  endOfChain env now (db.swapStats it.ids) it.lossy it.fallback sm

/-- The statement that moves the epoch. -/
def bumpEpoch (db : Db) : Db := { db with gc_epoch := db.gc_epoch + 1 }

/-- `retire_span`. -/
def retireSpan (env : Env) (now : ℤ) (it : RetireIntent) (sm : SwapMeta) : Span Db Error Unit := do
  Span.exec (putGc fun g => { g with retire := some it })
  if it.lossy then Span.exec bumpEpoch
  retireFinish env now it sm

/-- The cohort with the rows of its packs. -/
def Db.cohortPacks (db : Db) : List (MarkedRow × PackRow) :=
  db.marked.rows.filterMap fun m => (db.packs.find m.pack_id).map fun p => (m, p)

/-- Whether the fenced swap may retire a pack: every entry that is marked was built. -/
def MarkedRow.swappable (m : MarkedRow) : Bool :=
  m.built.any fun built => bitmapSubset m.bitmap built

/-- The packs that the fenced swap retires. -/
def Db.swapSet (db : Db) : List (MarkedRow × PackRow) :=
  db.cohortPacks.filter fun c => c.1.swappable

/-- What the fenced swap records: it is lossy when the build left out an entry of a pack. -/
def Db.swapIntent (db : Db) : RetireIntent where
  ids := db.swapSet.map fun c => c.1.pack_id
  lossy := db.swapSet.any fun c => c.1.built.any fun built => bitmapLossy built c.2.count
  fallback := false

/-- Whether the new pack of the chain, if it has one, is live. -/
def Db.newPackLive (db : Db) : Bool := db.gc.new_pack.all db.packLive

/-- `fenced_swap`. -/
def fencedSwap (env : Env) (now : ℤ) (sm : SwapMeta) : Span Db Error Unit := do
  let db ← Span.read
  if !db.cohortLive || !db.newPackLive || db.swapSet = [] then wipePath env now sm false
  else retireSpan env now db.swapIntent sm

/-- The entries of a pack whose objects have no live row outside the cohort. -/
def Db.needed (db : Db) (pack : PackId) : List ℕ :=
  (db.objects.select fun o => o.pack_id = pack &&
    !db.objects.rows.any fun o' => o'.sha = o.sha && db.packLive o'.pack_id &&
      o'.pack_id ∉ db.cohort).map (·.idx)

/-- Whether the fallback may retire a pack: what it holds alone was built. -/
def Db.spare (db : Db) (m : MarkedRow) : Bool :=
  m.built.any fun built => allSet built (db.needed m.pack_id)

/-- The packs that the fallback retires. -/
def Db.spareSet (db : Db) : List (MarkedRow × PackRow) :=
  db.cohortPacks.filter fun c => db.spare c.1

/-- The bytes of the new pack. -/
def Db.newPackBytes (db : Db) : ℕ :=
  (db.gc.new_pack.bind fun n => (db.packs.find n).map (·.bytes)).getD 0

/-- `fallback_span`. -/
def fallbackSpan (env : Env) (now : ℤ) (sm : SwapMeta) : Span Db Error Unit := do
  let db ← Span.read
  if !db.cohortLive || !db.newPackLive || db.spareSet = [] ||
      (db.spareSet.map fun c => c.2.bytes).sum < db.newPackBytes then wipePath env now sm true
  else retireSpan env now ⟨db.spareSet.map fun c => c.1.pack_id, false, true⟩ sm

/-- The end of `retire_resume`, once the fence held. -/
def resumeIntent (env : Env) (now : ℤ) (it : RetireIntent) : Span Db Error Bool := do
  let db ← Span.read
  let live := db.packs.countWhere fun p => p.id ∈ it.ids && p.state = .live
  if it.ids ≠ [] && live = it.ids.length then do
    Span.exec (putGc fun g => { g with retire := none })
    pure false
  else if it.ids ≠ [] && live = 0 then do
    retireFinish env now it db.swapMeta
    pure true
  else do
    wipePath env now db.swapMeta it.fallback
    pure true

/-- `retire_resume`: `true` when the slice ends here. -/
def retireResume (env : Env) (job : GcJob) (now : ℤ) (chain : Option ChainId) :
    Span Db Error Bool := do
  let db ← Span.read
  match db.gc.retire with
  | none => pure false
  | some it => do
    let held ← phaseFence job now chain (some .sweep)
    if !held then pure true else resumeIntent env now it

/-! ## The check and the drain -/

/-- `Check`: what the swap check decided. -/
inductive SwapCheck where
  | done | drain | finished
deriving DecidableEq

/-- The write of `gc.swap`. -/
def putSwap (sm : SwapMeta) : Db → Db := putGc fun g => { g with swap := some sm }

/-- The record of a check that found work: a try is counted when the refs moved. -/
def SwapMeta.checked (sm : SwapMeta) (rv : ℤ) : SwapMeta :=
  if rv ≠ sm.rv then { sm with rv := rv, tries := sm.tries + 1 } else sm

/-- `swap_check`. -/
def swapCheck (env : Env) (job : GcJob) (now : ℤ) (chain : Option ChainId) :
    Span Db Error SwapCheck := do
  let held ← phaseFence job now chain (some .sweep)
  if !held then pure .done
  else do
    Span.exec dropDeadPending
    let db ← Span.read
    let sm := db.swapMeta
    if db.gc_frontier.size = 0 && db.gc_pending.size = 0 then do
      Span.exec (putSwap sm)
      fencedSwap env now sm
      pure .finished
    else if swapTries ≤ sm.tries || swapMaxSlices ≤ sm.slices then do
      fallbackSpan env now sm
      pure .finished
    else do
      Span.exec (putSwap (sm.checked db.refs_version))
      pure .drain

/-- The span of a sweep slice that yields. -/
def sweepYield (job : GcJob) (now : ℤ) (chain : Option ChainId) : Span Db Error Unit := do
  let held ← phaseFence job now chain (some .sweep)
  if !held then pure ()
  else Span.exec fun db => putSwap { db.swapMeta with slices := db.swapMeta.slices + 1 } db

/-- The loop of `gc_sweep`, with a bound on its rounds: a slice that ran over its budget fails. -/
def sweepLoop (w : World) (job : GcJob) (chain : Option ChainId) (cand : List PackId) :
    ℕ → Touched → Reply → Proc SliceOutcome
  | 0, _, _ => Process.fail .budget
  | n + 1, bits, r =>
    if r.spent then do
      Proc.span (sweepYield job r.now chain)
      pure (.continue none)
    else do
      match ← Proc.span (swapCheck w.env job r.now chain) with
      | .done => pure .done
      | .finished => pure .done
      | .drain =>
        match ← walkStep w job chain (some .sweep) true cand bits r with
        | (.done, _, _) => pure .done
        | (_, bits, r) => sweepLoop w job chain cand n bits r

/-- `pr5_sweep`. -/
def pr5Sweep (env : Env) (now : ℤ) : Span Db Error SliceOutcome := do
  let db ← Span.read
  match db.refsMoved with
  | .error e => Span.fail e
  | .ok true => abort env now
  | .ok false => do
    Span.exec bumpEpoch
    Span.exec fun db => killPacks (fun p => p.id ∈ db.cohort) now db
    Span.exec fun db => deleteObjects (fun p => p ∈ db.cohort) db
    Span.exec clearResurrected
    Span.exec clearGc
    wipeScratch
    pure .done

/-- `built_null`: a pack of the cohort has no record of what was built. -/
def Db.builtNull (db : Db) : Bool := db.marked.rows.any fun m => m.built.isNone

/-- `gc_sweep`. -/
def gcSweep (w : World) (job : GcJob) (rounds : ℕ) (r : Reply) : Proc SliceOutcome := do
  let db ← Proc.read
  if db.legacyChain then Proc.span (abort w.env r.now)
  else if db.stray job || db.compacting || db.gc.phase ≠ some .sweep ||
      db.gc.refs_version.isNone then pure .done
  else if !db.barrierActive || db.builtNull then Proc.span (pr5Sweep w.env r.now)
  else do
    if ← Proc.span (retireResume w.env job r.now db.gc.chain) then pure .done
    else
      let db ← Proc.read
      sweepLoop w job db.gc.chain db.cohort rounds [] r

end GitEdge
