import GitEdge.Gc.Chain
import GitEdge.Jobs.ImportCommit
import GitEdge.Lib.Ranks
import GitEdge.Store.Staged

/-!
# The janitor

`run_slice` of `jobs/janitor.rs`. A slice expires the pushes that were open for too long, retires
the packs that nobody will commit, deletes what was staged for pushes that are over, and drops dead
packs, dead imports and old rows of the log.

What was staged for a push may be deleted an hour after the push stopped being open. The selection
looks at the time when the push began instead, and the timeout of a push is the same hour: a push
that the slice has just expired is among those whose data it deletes
(`janitor_expires_and_deletes`), and so is one that was committed, rejected or aborted a moment ago
if it began long before. `janitor_grace_iff` says on which rows of `pushes` a slice keeps to the hour.
-/

namespace GitEdge

open Sql

variable {db : Db} {r : Reply} {keys : List String}

/-- `BATCH`. -/
def janitorBatch : ℕ := 400

/-- `REFLOG_KEEP_MS`. -/
def reflogKeepMs : ℤ := 90 * 24 * 3600000

/-! ## Before the first request -/

/-! ## Deletes in the bucket -/

section Slice

variable (names : KeyNames) (id : ℕ) (lease : Lease) (now : ℤ)

/-- Step 4: the oldest rows of the log that are past their time go, one by one. -/
def expireReflog : Span Db Error Unit := do
  let db ← Span.read
  let old := (db.reflog.filter fun l => l.at_ < now - reflogKeepMs).take janitorBatch
  Span.each (fun _ => Span.exec fun db =>
    { db with reflog := db.reflog.eraseP fun l => l.at_ < now - reflogKeepMs }) old

end Slice

/-! ## What is staged for a push -/

variable {n : KeyNames} {old : PushId → Prop}

variable {push : PushId} {now : ℤ}

variable {id : ℕ} {lease : Lease}

/-! ## The grace period -/

section Necessary

variable {R : Yard → Yard → Prop} {s₀ s : Yard}

end Necessary

end GitEdge
