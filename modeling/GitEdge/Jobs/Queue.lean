import GitEdge.Store.Schema

/-!
# The job queue

`enqueue`, the heartbeat and the lease check of `jobs/mod.rs`. A job row belongs to the slice that
holds its lease: the heartbeat is a compare-and-set on the lease, so a slice whose row was
requeued, or claimed again, learns that it must stop.
-/

namespace GitEdge

open Sql

/-- The queued row that `enqueue` inserts. -/
def Job.fresh (id : ℕ) (kind : JobKind) (run_at : ℤ) (payload : Payload) : Job where
  id := id
  kind := kind
  run_at := run_at
  attempts := 0
  cursor := none
  payload := payload
  state := .queued
  last_error := none
  started_at := none
  lease := none
  strands := 0

/-- Whether a row of the kind is queued. -/
def Db.queued (db : Db) (kind : JobKind) : Bool :=
  db.jobs.rows.any fun j => j.kind = kind && j.state = .queued

/-- `enqueue`: a queued row of the kind, unless there is one. -/
def enqueue (kind : JobKind) (run_at : ℤ) (payload : Payload) (db : Db) : Db :=
  if db.queued kind then db
  else
    { db with
      jobs := db.jobs.insertIgnore (Job.fresh (db.job_seq + 1) kind run_at payload)
      job_seq := db.job_seq + 1 }

/-- `lease_held`: the job's row is running under this lease. -/
def Db.leaseHeld (db : Db) (id : ℕ) (lease : Lease) : Bool :=
  db.jobs.rows.any fun j => j.id = id && j.state = .running && j.lease = some lease

/-- The statement of `heartbeat`. -/
def touchLease (id : ℕ) (lease : Lease) (now : ℤ) (db : Db) : Db :=
  { db with
    jobs := db.jobs.updateWhere
      (fun j => j.id = id && j.state = .running && j.lease = some lease)
      (fun j => { j with started_at := some now }) fun _ => rfl }

/-- How a slice ends: the job is done, goes on with a cursor, or is put off. -/
inductive SliceOutcome where
  | done
  | «continue» (cursor : Option ImportCursor)
  | reschedule (run_at : ℤ)
deriving DecidableEq

/-- The error of a slice that lost its lease. -/
def staleLease : Error := .internal "stale job lease"

/-- `heartbeat`, and the end with `stale_lease` when the lease is lost. -/
def heartbeat (id : ℕ) (lease : Lease) (now : ℤ) : Span Db Error Unit := do
  let db ← Span.read
  Span.exec (touchLease id lease now)
  if db.leaseHeld id lease then pure () else Span.fail staleLease

end GitEdge
