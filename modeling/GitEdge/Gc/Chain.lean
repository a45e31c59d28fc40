import GitEdge.Repo.Commit
import GitEdge.Jobs.Cohort
import GitEdge.Store.Io

/-!
# The chain of a garbage collection or a compaction

The guards and the ends that all jobs of a chain share, from `jobs/gc.rs` and `jobs/compact.rs`. A
chain is the `gc.*` rows of `meta` and six scratch tables. A slice serves the chain that it found
when it began, and the fences stop it when the chain, the phase or the lease is no longer its own.
`wipe_all` drops a chain: the pack that it was building dies, unless a pack of the cohort already
did.
-/

namespace GitEdge

open Sql

/-- The job row that a slice of a chain runs for. -/
structure GcJob where
  id : ℕ
  lease : Lease
  payload : Payload

/-- The statement that writes a `gc.*` row. -/
def putGc (f : GcMeta → GcMeta) (db : Db) : Db := { db with gc := f db.gc }

/-- `DELETE FROM meta WHERE key LIKE 'gc.%'`. -/
def clearGc (db : Db) : Db := { db with gc := .none }

/-- Whether the chain is a compaction. -/
def Db.compacting (db : Db) : Bool := db.gc.mode = some .compact

/-- `chain_payload`. -/
def Db.chainPayload (db : Db) : Payload := db.gc.chain.elim .none .chain

/-- `legacy_chain`: a chain from before chains had ids. -/
def Db.legacyChain (db : Db) : Bool :=
  db.gc.phase.isNone && db.gc.chain.isNone && db.gc.started_at.isSome

/-- `refs_moved`. -/
def Db.refsMoved (db : Db) : Except Error Bool :=
  match db.gc.refs_version with
  | some v => .ok (db.refs_version ≠ v)
  | none => .error (.storage "meta.gc.refs_version missing")

/-- `refs_frozen_moved`. -/
def Db.refsFrozenMoved (db : Db) : Bool := db.gc.refs_version.any fun v => v ≠ db.refs_version

/-- The ids of the cohort, `SELECT pack_id FROM marked`. -/
def Db.cohort (db : Db) : List PackId := db.marked.rows.map (·.pack_id)

/-- `cohort_live`: there is a cohort, and its packs are live. -/
def Db.cohortLive (db : Db) : Bool :=
  db.marked.size ≠ 0 &&
    (db.packs.countWhere fun p => p.id ∈ db.cohort && p.state = .live) = db.marked.size

/-! ## Statements -/

/-- The delete of the rows of packs. -/
def deleteObjects (p : PackId → Bool) (db : Db) : Db :=
  { db with objects := db.objects.deleteWhere fun o => p o.pack_id }

/-- The delete of the rows of packs that are not live. -/
def deleteNotLive (p : PackId → Bool) (db : Db) : Db :=
  { db with objects := db.objects.deleteWhere fun o => p o.pack_id && !db.packLive o.pack_id }

/-- The update that marks packs dead. -/
def killPacks (p : PackRow → Bool) (now : ℤ) (db : Db) : Db :=
  { db with
    packs := db.packs.updateWhere p
      (fun r => { r with state := .dead, dead_at := some now }) fun _ => rfl }

/-- The deletes of the six scratch tables. -/
def wipeScratch : Span Db Error Unit := do
  Span.exec fun db => { db with marked := .empty }
  Span.exec fun db => { db with gc_frontier := .empty }
  Span.exec fun db => { db with gc_seen := .empty }
  Span.exec fun db => { db with gc_parts := .empty }
  Span.exec fun db => { db with gc_tail := .empty }
  Span.exec fun db => { db with gc_pending := .empty }

/-! ## Ends of a chain -/

/-- The first statement of `wipe_all`: the rows of the packs that an interrupted retirement took. -/
def wipeRetired : Span Db Error Unit := do
  let db ← Span.read
  match db.gc.retire with
  | none => pure ()
  | some it => Span.exec (deleteNotLive fun p => p ∈ it.ids)

/-- The keep rule of `wipe_all` on the pack that the chain built: it stays when it is live and the
cohort is not, as it then holds the surviving copies. -/
def wipeNewPack (now : ℤ) : Span Db Error Unit := do
  let db ← Span.read
  match db.gc.new_pack with
  | none => pure ()
  | some n =>
    if db.packLive n && !db.cohortLive then
      Span.exec (deleteNotLive fun p => p ∈ db.cohort)
    else do
      Span.exec (deleteObjects fun p => p = n)
      Span.exec (killPacks (fun r => r.id = n && (r.state = .ingesting || r.state = .live)) now)

/-- `wipe_all`. -/
def wipeAll (now : ℤ) : Span Db Error Unit := do
  wipeRetired
  wipeNewPack now
  Span.exec clearGc
  wipeScratch

/-- `abort`: the chain is dropped, and a garbage collection starts again after the quiet window. -/
def abort (env : Env) (now : ℤ) : Span Db Error SliceOutcome := do
  let db ← Span.read
  wipeAll now
  if db.compacting then pure .done
  else do
    Span.exec (enqueue .gcMark (now + env.gc_quiet_ms) .none)
    pure .done

/-! ## Orphans -/

/-- The four kinds of jobs of a chain. -/
def JobKind.isGc : JobKind → Bool
  | .gcMark | .gcConsolidate | .gcSweep | .gcCompact => true
  | _ => false

/-- `owner_kind`. -/
def ownerKind (mode : Option GcMode) (phase : Option GcPhase) : JobKind :=
  match mode, phase with
  | _, some .sweep => .gcSweep
  | _, some .build => .gcConsolidate
  | some .compact, none => .gcConsolidate
  | none, none => .gcMark

/-- The job names the chain, or none. -/
def Job.serves (j : Job) (chain : ChainId) : Bool :=
  match j.payload with
  | .chain c => c = chain
  | _ => true

/-- `orphaned`: no job of the kind that owns the chain is queued or runs for it. -/
def Db.orphaned (db : Db) : Bool :=
  match db.gc.chain with
  | none => false
  | some c =>
    if db.gc.started_at.isNone || db.legacyChain then false
    else !db.jobs.rows.any fun j => j.kind = ownerKind db.gc.mode db.gc.phase &&
      (j.state = .queued || j.state = .running) && j.serves c

/-- Whether a row is one that `orphan_abort` drops: a dead job of the chain. -/
def Job.deadOf (chain : ChainId) (j : Job) : Bool :=
  j.state = .dead && j.kind.isGc && j.serves chain

/-- `orphan_abort_preserve_dead_errors`. -/
def preserveDeadErrors (chain : ChainId) : Span Db Error Unit := do
  let db ← Span.read
  Span.each (fun j : Job =>
      match j.last_error with
      | none => pure ()
      | some e => Span.exec fun db =>
        { db with
          dead_errors := db.dead_errors.upsert (j.kind, e) (fun r => (r.1, e)) fun _ => rfl })
    (db.jobs.select (·.deadOf chain))
  Span.exec fun db => { db with jobs := db.jobs.deleteWhere (·.deadOf chain) }

/-- `QUAR_CAP`. -/
def quarCap : ℕ := 256

/-- `quarantine_bump`: the oldest entry goes at the cap. -/
def quarantineBump (q : List (PackId × ℕ)) (id : PackId) (n : ℕ) : List (PackId × ℕ) :=
  let q :=
    match q.findIdx? fun e => e.1 = id with
    | some i => q.modify i fun e => (e.1, e.2 + n)
    | none => q ++ [(id, n)]
  if quarCap < q.length then q.tail else q

/-- `orphan_abort`: the chain is dropped, its dead jobs go with it, and the packs of a compaction
get a strike. -/
def orphanAbort (now : ℤ) : Span Db Error Unit := do
  let db ← Span.read
  let cohort := if db.compacting then db.cohort else []
  wipeAll now
  preserveDeadErrors (db.gc.chain.getD 0)
  if cohort = [] then pure ()
  else Span.exec fun db =>
    { db with quarantine := cohort.foldl (fun q id => quarantineBump q id 1) db.quarantine }

/-! ## Fences -/

/-- `phase_fence`: the chain and the phase are the slice's, and then its lease is. -/
def phaseFence (job : GcJob) (now : ℤ) (chain : Option ChainId) (want : Option GcPhase) :
    Span Db Error Bool := do
  let db ← Span.read
  if db.gc.chain ≠ chain || db.gc.phase ≠ want then pure false
  else do
    heartbeat job.id job.lease now
    pure true

/-- `chain_fence`: the lease is the slice's, and then the chain is; a compaction checks its pack
too. -/
def chainFence (job : GcJob) (now : ℤ) (chain : Option ChainId) (pack : PackId) :
    Span Db Error Bool := do
  heartbeat job.id job.lease now
  let db ← Span.read
  pure (db.gc.chain = chain && (!db.compacting || db.gc.new_pack = some pack))

end GitEdge
