import GitEdge.Gc.Compact
import GitEdge.Repo.Push

/-!
# The end of a build

`gc_consolidate` of `jobs/gc.rs` copies the marked entries of the cohort into one new pack, over
many slices. The last of them makes the pack live: `finish_build` hands the chain over to the sweep,
and in a compaction the pack takes the place of the cohort at once. The bytes that a slice had not
uploaded when it yielded are in `gc_tail`.
-/

namespace GitEdge

open Sql

/-- The hand-off to the sweep: the job, then the phase, and the baseline of a chain with the
barrier. -/
def publishSweep (now : ℤ) : Span Db Error Unit := do
  Span.exec fun db => enqueue .gcSweep now db.chainPayload db
  Span.exec (putGc fun g => { g with phase := some .sweep })
  let db ← Span.read
  if db.barrierActive then Span.exec (putGc fun g => { g with swap := some ⟨db.refs_version, 0, 0⟩ })
  else pure ()

/-- `finish_build`. -/
def finishBuild (env : Env) (job : GcJob) (now : ℤ) (chain : Option ChainId) (pack : PackId)
    (m : WriterMeta) : Span Db Error Flow := do
  let db ← Span.read
  if db.compacting then swap env job now chain pack m
  else do
    let held ← chainFence job now chain pack
    if !held then pure .done
    else do
      let db ← Span.read
      Span.exec fun db =>
        { db with
          packs := db.packs.updateWhere (buildPack pack)
            (fun p => { p with state := .live, count := m.count, bytes := m.bytes }) fun _ => rfl }
      if db.packs.countWhere (buildPack pack) ≠ 1 then Span.fail (.internal "build pack row")
      else do
        publishSweep now
        pure .done

/-- The bytes in `gc_tail`. -/
def Db.tailBytes (db : Db) : List UInt8 :=
  ((db.gc_tail.rows.insertionSort fun a b => a.seq ≤ b.seq).map (·.blob)).flatten

end GitEdge
