import GitEdge.Gc.Mark

/-!
# The swap of a compaction

`swap` of `jobs/compact.rs`. A compaction is a chain whose cohort is the packs that the selector
took. There is nothing to mark, and in place of a sweep the new pack goes live and the cohort dies
in one span.
-/

namespace GitEdge

open Sql

/-- How a build slice ends: it yields, the chain went on or ended, the upload failed and is tried
again, or the build starts over. -/
inductive Flow where
  | yield
  | done
  | retry (e : Error)
  | rebuild
deriving DecidableEq

/-- `MAX(created_at)` of the cohort. -/
def Db.cohortCreated (db : Db) : ℤ :=
  ((db.packs.select fun p => p.id ∈ db.cohort).map (·.created_at)).max?.getD 0

/-- The condition under which a build may promote its pack. -/
def buildPack (pack : PackId) (p : PackRow) : Bool :=
  p.id = pack && (p.state = .ingesting || p.state = .live)

/-- `swap_promote_output_pack`. -/
def promoteOutput (pack : PackId) (m : WriterMeta) : Span Db Error Unit := do
  let db ← Span.read
  Span.exec fun db =>
    { db with
      packs := db.packs.updateWhere (buildPack pack)
        (fun p => { p with
          state := .live, count := m.count, bytes := m.bytes, created_at := db.cohortCreated })
        fun _ => rfl }
  if db.packs.countWhere (buildPack pack) ≠ 1 then Span.fail (.internal "build pack row")
  else pure ()

/-- `swap_retire_cohort_packs`. -/
def retireCohort (now : ℤ) : Span Db Error Unit := do
  Span.exec fun db => killPacks (fun p => p.id ∈ db.cohort) now db
  Span.exec fun db => deleteObjects (fun p => p ∈ db.cohort) db

/-- `swap`. -/
def swap (env : Env) (job : GcJob) (now : ℤ) (chain : Option ChainId) (pack : PackId)
    (m : WriterMeta) : Span Db Error Flow := do
  let held ← chainFence job now chain pack
  if !held then pure .done
  else do
    let db ← Span.read
    if !db.cohortLive then do
      wipeAll now
      pure .done
    else do
      promoteOutput pack m
      retireCohort now
      Span.exec clearGc
      wipeScratch
      Span.exec fun db =>
        { db with resurrected := db.resurrected.deleteWhere fun r => r.1 = .gcCompact }
      trigger env now
      pure .done

end GitEdge
