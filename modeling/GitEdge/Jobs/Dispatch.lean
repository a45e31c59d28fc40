import Mathlib.Data.List.Sort
import GitEdge.Repo.Push

/-!
# The dispatcher

`dispatch`, `land_outcome` and `repair` of `jobs/mod.rs`: how a job row gets into the queue and out
of it. `enqueue` inserts a queued row of a kind unless there is one. A dispatch takes a queued row
and runs a slice of its job, and the outcome of the slice is landed on the row, if the row is still
the slice's: it is deleted, it is dead, or it is queued again. `repair` queues the running rows that
a killed isolate left, and restarts dead jobs.

Only `enqueue` looks for another queued row. While a slice runs, the kind may be enqueued again, and
when the row of the slice then returns to the queue there are two rows of the kind in it
(`queue_twice`). In a run there is never more than one queued row of a kind exactly if each step
that returns rows to the queue finds none there of their kinds (`oneQueued_run_iff`).
-/

namespace GitEdge

open Sql

variable {db s : Db} {p : Job → Bool}

/-! ## Running rows -/

/-- `impl Display for Error`. -/
def Error.display : Error → String
  | .protocol m => "protocol error: " ++ m
  | .auth => "authentication required"
  | .forbidden => "forbidden"
  | .notFound => "not found"
  | .conflict m => "conflict: " ++ m
  | .unpack m => "unpack failed: " ++ m
  | .budget => "request budget exhausted"
  | .limit m => "limit exceeded: " ++ m
  | .gone => "repository deleted"
  | .rateLimit s => s!"rate limited, retry in {s}s"
  | .busy s => s!"server busy, retry in {s}s"
  | .storage m => "storage error: " ++ m
  | .internal m => "internal error: " ++ m

/-- `Pick`: the rows that are due, for the alarm, or all of them, perhaps of one kind. -/
inductive JobPick where
  | due
  | any (kind : Option JobKind)
deriving DecidableEq, Repr

/-- The rows that a pick takes one of. -/
def JobPick.takes (now : ℤ) (j : Job) : JobPick → Bool
  | .due => j.run_at ≤ now
  | .any kind => kind.all fun k => j.kind = k

/-- `pick_row`: the queued row with the earliest time, of several the oldest. -/
def pickRow (pick : JobPick) (now : ℤ) (db : Db) : Option Job :=
  let rows := db.jobs.select fun j => j.state = .queued && pick.takes now j
  (rows.insertionSort fun a b => a.run_at < b.run_at ∨ a.run_at = b.run_at ∧ a.id ≤ b.id).head?

/-- The statement by which `dispatch` takes a row. -/
def claimRow (id : ℕ) (now : ℤ) (lease : Lease) (db : Db) : Db :=
  { db with
    jobs := db.jobs.updateWhere (fun j => j.id = id && j.state = .queued)
      (fun j => { j with state := .running, started_at := some now, lease := some lease })
      fun _ => rfl }

/-- `dispatch_inner` to the start of the slice. -/
def dispatch (pick : JobPick) (now : ℤ) (lease : Lease) (db : Db) : Db :=
  match pickRow pick now db with
  | none => db
  | some r => claimRow r.id now lease db

/-! ## Outcomes -/

/-- `Report.outcome`. -/
inductive Landed where
  | done | continued | rescheduled | retry | dead | stale
deriving DecidableEq, Repr

/-- `Report`. -/
structure SliceReport where
  job_id : ℕ
  kind : JobKind
  outcome : Landed
  error : Option String
deriving DecidableEq, Repr

/-- The row is running under the lease. -/
def Job.heldBy (id : ℕ) (lease : Lease) (j : Job) : Bool :=
  j.id = id && j.state = .running && j.lease = some lease

/-- A statement of `land_outcome` on the row of the slice. -/
def landRow (id : ℕ) (lease : Lease) (f : Job → Job) (hf : ∀ j, (f j).id = j.id) (db : Db) : Db :=
  { db with jobs := db.jobs.updateWhere (Job.heldBy id lease) f hf }

/-- When a job is tried again. -/
def retryAt (now : ℤ) (attempt : ℕ) : ℤ := now + min (30000 * 2 ^ min attempt 20) 3600000

/-- Whether a row of the kind is queued or running. -/
def Db.inFlight (db : Db) (kind : JobKind) : Bool :=
  db.jobs.rows.any fun j => j.kind = kind && (j.state = .queued || j.state = .running)

/-- What follows a janitor that is done: the next one, and a garbage collection while the repository
is at its cap of packs. -/
def janitorDone (env : Env) (now : ℤ) (db : Db) : Db :=
  let db := enqueue .janitor (now + 15 * 60 * 1000) .none db
  if db.atPackCap env && !db.inFlight .gcMark then enqueue .gcMark now .none db else db

/-- What `land_outcome` reports: a slice whose row is no longer its own is stale. -/
def landReport (job : Job) (lease : Lease) (out : Except Error SliceOutcome) (db : Db) :
    SliceReport where
  job_id := job.id
  kind := job.kind
  outcome :=
    if db.leaseHeld job.id lease then
      match out with
      | .ok .done => .done
      | .ok (.continue _) => .continued
      | .ok (.reschedule _) => .rescheduled
      | .error _ => if 8 ≤ job.attempts + 1 then .dead else .retry
    else .stale
  error := match out with
    | .ok _ => none
    | .error e => some e.display

/-- The statements of `land_outcome`, which leave a row that is no longer the slice's. -/
def landStatements (env : Env) (job : Job) (lease : Lease) (now : ℤ) (db : Db) :
    Except Error SliceOutcome → Db
  | .ok .done =>
    if db.leaseHeld job.id lease then
      let db := { db with jobs := db.jobs.deleteWhere (Job.heldBy job.id lease) }
      if job.kind = .janitor then janitorDone env now db else db
    else db
  | .ok (.continue cursor) =>
    landRow job.id lease (fun j => { j with
      state := .queued, run_at := now, cursor := cursor, strands := 0, lease := none })
        (fun _ => rfl) db
  | .ok (.reschedule run_at) =>
    landRow job.id lease (fun j => { j with
      state := .queued, run_at := run_at, cursor := none, strands := 0, lease := none })
        (fun _ => rfl) db
  | .error e =>
    if 8 ≤ job.attempts + 1 then
      landRow job.id lease (fun j => { j with
        state := .dead, last_error := some e.display }) (fun _ => rfl) db
    else
      landRow job.id lease (fun j => { j with
        state := .queued, attempts := job.attempts + 1, last_error := some e.display,
        run_at := retryAt now (job.attempts + 1), lease := none }) (fun _ => rfl) db

/-- `land_outcome`. -/
def landOutcome (env : Env) (job : Job) (lease : Lease) (now : ℤ) (out : Except Error SliceOutcome)
    (db : Db) : SliceReport × Db :=
  (landReport job lease out db, landStatements env job lease now db out)

/-! ## Repair -/

/-- A running row without a heartbeat for a minute. -/
def Job.stranded (now : ℤ) (j : Job) : Bool :=
  j.state = .running && j.started_at.any fun t => t < now - 60000

/-- The statement that gives up rows that were stranded too often. -/
def buryStranded (now : ℤ) (db : Db) : Db :=
  { db with
    jobs := db.jobs.updateWhere (fun j => j.stranded now && 64 ≤ j.strands) (fun j => { j with
      state := .dead
      last_error := some "stranded: isolate died 64x without a completed slice" }) fun _ => rfl }

/-- The statement that queues stranded rows again. -/
def requeueStranded (now : ℤ) (db : Db) : Db :=
  { db with
    jobs := db.jobs.updateWhere (fun j => j.stranded now && j.strands < 64) (fun j => { j with
      state := .queued, run_at := now, strands := j.strands + 1
      last_error := some "stranded mid-slice", lease := none }) fun _ => rfl }

/-- A dead or missing janitor is enqueued. -/
def reviveJanitor (now : ℤ) (db : Db) : Db :=
  if db.inFlight .janitor then db else enqueue .janitor now .none db

/-- The error of the last dead row of a kind that has one. -/
def Db.deadError (db : Db) (kind : JobKind) : Option String :=
  let rows := db.jobs.select fun j => j.kind = kind && j.state = .dead && j.last_error.isSome
  (rows.insertionSort fun a b => b.id ≤ a.id).head?.bind Job.last_error

/-- A later error of a kind takes the place of an earlier one. -/
theorem deadError_key (e : String) (r : JobKind × String) : (r.1, e).1 = r.1 := rfl

/-- The kind whose counter a restart is charged to. -/
def Db.chargedTo (db : Db) (kind : JobKind) : JobKind :=
  if kind = .gcConsolidate && db.gc.mode = some .compact then .gcCompact else kind

/-- One round of the loop of `repair`: a dead job of the kind is started again, three times at
most. -/
def resurrect (now : ℤ) (kind : JobKind) (db : Db) : Db :=
  if db.jobs.rows.any fun j => j.kind = kind && j.state = .dead then
    let db := match db.deadError kind with
      | none => db
      | some e =>
        { db with dead_errors := db.dead_errors.upsert (kind, e) (fun r => (r.1, e)) (deadError_key e) }
    let key := db.chargedTo kind
    let tries := ((db.resurrected.find key).map Prod.snd).getD 0
    if 3 ≤ tries then db
    else
      let db := { db with jobs := db.jobs.deleteWhere fun j => j.kind = kind && j.state = .dead }
      let db := enqueue kind now .none db
      { db with
        resurrected := db.resurrected.upsert (key, tries + 1) (fun r => (r.1, tries + 1))
          fun _ => rfl }
  else db

/-- `repair`. -/
def repair (now : ℤ) (db : Db) : Db :=
  [.gcMark, .gcConsolidate, .gcSweep, .gcCompact].foldl (fun db kind => resurrect now kind db)
    (reviveJanitor now (requeueStranded now (buryStranded now db)))

/-! ## The queued rows of a kind -/

/-- How many rows of a kind are queued. -/
def Db.queuedCount (db : Db) (kind : JobKind) : ℕ :=
  db.jobs.countWhere fun j => j.kind = kind && j.state = .queued

/-- At most one row of a kind is queued. The rows of imports are inserted without a check. -/
def OneQueued (db : Db) : Prop := ∀ kind, kind ≠ .importPack → db.queuedCount kind ≤ 1

theorem queued_eq_false {kind : JobKind} : db.queued kind = false ↔ db.queuedCount kind = 0 := by
  simp only [Db.queued, Db.queuedCount, Table.countWhere, List.any_eq_false,
    List.length_eq_zero_iff, List.filter_eq_nil_iff]

/-- An `enqueue` never makes a second row. -/
theorem oneQueued_enqueue (kind : JobKind) (run_at : ℤ) (payload : Payload) (db : Db) :
    OneQueued (enqueue kind run_at payload db) ↔ OneQueued db := by
  unfold enqueue
  split_ifs with hqueued
  · rfl
  refine forall₂_congr fun k _ => ?_
  cases hhas : db.jobs.has (db.job_seq + 1) with
  | true =>
    dsimp only [Db.queuedCount]
    rw [Table.insertIgnore_of_has hhas]
  | false =>
    have hnone : db.queuedCount kind = 0 := queued_eq_false.mp (by simpa using hqueued)
    have hcount := Table.countWhere_insertIgnore_of_not_has
      (r := Job.fresh (db.job_seq + 1) kind run_at payload) hhas fun j =>
      j.kind = k && j.state = .queued
    dsimp only [Db.queuedCount] at hnone ⊢
    rw [hcount]
    by_cases hk : kind = k
    · subst hk
      rw [hnone]
      simp [Job.fresh]
    · simp [Job.fresh, hk]

/-- A statement that leaves the queued rows, and makes no other row queued. -/
theorem queuedCount_updateWhere {f : Job → Job} {hf : ∀ j, (f j).id = j.id}
    (hf' : ∀ j, (f j).state ≠ .queued) (hp : ∀ j, p j = true → j.state ≠ .queued) (kind : JobKind) :
    Db.queuedCount { db with jobs := db.jobs.updateWhere p f hf } kind = db.queuedCount kind := by
  dsimp only [Db.queuedCount]
  rw [Table.countWhere_updateWhere]
  refine congrArg db.jobs.countWhere (funext fun j => ?_)
  cases hpj : p j with
  | true => simp [hf' j, hp j hpj]
  | false => rfl

/-- A statement that puts running rows back in the queue. -/
theorem queuedCount_requeue {f : Job → Job} {hf : ∀ j, (f j).id = j.id}
    (hkind : ∀ j, (f j).kind = j.kind) (hf' : ∀ j, (f j).state = .queued)
    (hp : ∀ j, p j = true → j.state = .running) (kind : JobKind) :
    Db.queuedCount { db with jobs := db.jobs.updateWhere p f hf } kind =
      db.queuedCount kind + db.jobs.countWhere fun j => j.kind = kind && p j := by
  dsimp only [Db.queuedCount]
  rw [Table.countWhere_updateWhere, ← Table.countWhere_or]
  · refine congrArg db.jobs.countWhere (funext fun j => ?_)
    cases hpj : p j with
    | true => simp [hkind, hf', hp j hpj]
    | false => simp
  · intro j hj
    cases hpj : p j with
    | true => simp [hp j hpj] at hj
    | false => simp

/-- A row with its kind and state. -/
def Job.place (j : Job) : ℕ × JobKind × JobState := (j.id, j.kind, j.state)

/-- A change that leaves the kinds and the states of the rows, but may delete some. -/
def KeepsPlaces (s t : Db) : Prop := (t.jobs.rows.map Job.place).Sublist (s.jobs.rows.map Job.place)

theorem KeepsPlaces.queuedCount_le {t : Db} (h : KeepsPlaces s t) (kind : JobKind) :
    t.queuedCount kind ≤ s.queuedCount kind := by
  have hcount : ∀ db : Db, db.queuedCount kind =
      (db.jobs.rows.map Job.place).countP fun x => x.2.1 = kind && x.2.2 = .queued := by
    intro db
    rw [List.countP_map, List.countP_eq_length_filter]
    rfl
  rw [hcount, hcount]
  exact h.countP_le

/-! ## Steps of the queue -/

/-- What happens to the job rows: an `enqueue`, a dispatch, an outcome that is landed, a repair, the
start of an import, and changes elsewhere, such as heartbeats, new times and deletes. -/
inductive QueueStep where
  | enqueue (kind : JobKind) (run_at : ℤ) (payload : Payload)
  | dispatch (pick : JobPick) (now : ℤ) (lease : Lease)
  | land (job : Job) (lease : Lease) (now : ℤ) (out : Except Error SliceOutcome)
  | repair (now : ℤ)
  | startImport (row : Job) (imports : row.kind = .importPack)
  | elsewhere (f : Db → Db) (keeps : ∀ s, KeepsPlaces s (f s))

/-- The state after a step. -/
def QueueStep.apply (env : Env) : QueueStep → Db → Db
  | .enqueue kind run_at payload, s => GitEdge.enqueue kind run_at payload s
  | .dispatch pick now lease, s => GitEdge.dispatch pick now lease s
  | .land job lease now out, s => (landOutcome env job lease now out s).2
  | .repair now, s => GitEdge.repair now s
  | .startImport row _, s => { s with jobs := s.jobs.insertIgnore row }
  | .elsewhere f _, s => f s

/-- The outcomes that put the row back in the queue. -/
def requeues (job : Job) : Except Error SliceOutcome → Bool
  | .ok .done => false
  | .ok (.continue _) => true
  | .ok (.reschedule _) => true
  | .error _ => job.attempts + 1 < 8

/-- The running rows that a step puts back in the queue. -/
def QueueStep.returns (j : Job) : QueueStep → Bool
  | .land job lease _ out => requeues job out && j.heldBy job.id lease
  | .repair now => j.stranded now && j.strands < 64
  | _ => false

/-- The queued rows of a kind and those that the step puts back are at most one. -/
def QueueStep.Clear (s : Db) (e : QueueStep) : Prop :=
  ∀ kind, kind ≠ .importPack →
    s.queuedCount kind + s.jobs.countWhere (fun j => j.kind = kind && e.returns j) ≤ 1

theorem Job.heldBy_running {id : ℕ} {lease : Lease} {j : Job} (h : j.heldBy id lease = true) :
    j.state = .running := by
  simp only [Job.heldBy, Bool.and_eq_true, decide_eq_true_eq] at h
  exact h.1.2

theorem Job.stranded_running {now : ℤ} {j : Job} (h : j.stranded now = true) :
    j.state = .running := by
  simp only [Job.stranded, Bool.and_eq_true, decide_eq_true_eq] at h
  exact h.1

theorem clear_of_no_returns {e : QueueStep} (h : ∀ j, e.returns j = false) :
    e.Clear s ↔ OneQueued s := by
  refine forall₂_congr fun kind _ => ?_
  simp [h, Table.countWhere]

/-- The rows of the janitors and of the garbage collections that follow a janitor are enqueued. -/
theorem oneQueued_janitorDone (env : Env) (now : ℤ) (s : Db) :
    OneQueued (janitorDone env now s) ↔ OneQueued s := by
  unfold janitorDone
  dsimp only
  split_ifs
  · rw [oneQueued_enqueue, oneQueued_enqueue]
  · rw [oneQueued_enqueue]

/-- Deletes of rows that are not queued. -/
theorem oneQueued_delete (hp : ∀ j, p j = true → j.state ≠ .queued) :
    OneQueued { s with jobs := s.jobs.deleteWhere p } ↔ OneQueued s := by
  refine forall₂_congr fun kind _ => ?_
  dsimp only [Db.queuedCount]
  rw [Table.countWhere_deleteWhere]
  intro j hj
  cases hpj : p j with
  | true => simp [hp j hpj] at hj
  | false => rfl

theorem oneQueued_land (env : Env) (job : Job) (lease : Lease) (now : ℤ)
    (out : Except Error SliceOutcome) (s : Db) :
    OneQueued (landOutcome env job lease now out s).2 ↔
      QueueStep.Clear s (.land job lease now out) := by
  -- The outcomes that put the row back are one statement on it.
  have hback : ∀ (f : Job → Job) (hf : ∀ j, (f j).id = j.id), (∀ j, (f j).kind = j.kind) →
      (∀ j, (f j).state = .queued) → requeues job out = true →
      (OneQueued (landRow job.id lease f hf s) ↔ QueueStep.Clear s (.land job lease now out)) := by
    intro f hf hkind hstate hout
    refine forall₂_congr fun kind _ => ?_
    rw [landRow, queuedCount_requeue hkind hstate fun j hj => j.heldBy_running hj]
    simp only [QueueStep.returns, hout, Bool.true_and]
  have hgone : requeues job out = false →
      (QueueStep.Clear s (.land job lease now out) ↔ OneQueued s) := fun hout =>
    clear_of_no_returns fun j => by simp [QueueStep.returns, hout]
  have hrunning : ∀ j, Job.heldBy job.id lease j = true → j.state ≠ .queued := by
    intro j hj
    rw [j.heldBy_running hj]
    decide
  rcases out with e | (_ | cursor | run_at)
  · dsimp only [landOutcome, landStatements]
    split_ifs with hlast
    · rw [hgone (by simpa [requeues] using hlast)]
      refine forall₂_congr fun kind _ => ?_
      rw [landRow, queuedCount_updateWhere (fun j => by simp) hrunning]
    · exact hback _ _ (fun _ => rfl) (fun _ => rfl) (decide_eq_true (Nat.lt_of_not_le hlast))
  · rw [hgone rfl]
    dsimp only [landOutcome, landStatements]
    split_ifs
    · rw [oneQueued_janitorDone, oneQueued_delete hrunning]
    · exact oneQueued_delete hrunning
    · rfl
  · exact hback _ _ (fun _ => rfl) (fun _ => rfl) rfl
  · exact hback _ _ (fun _ => rfl) (fun _ => rfl) rfl

theorem oneQueued_resurrect (now : ℤ) (kind : JobKind) (s : Db) :
    OneQueued (resurrect now kind s) ↔ OneQueued s := by
  unfold resurrect
  split_ifs with hdead
  · dsimp only
    -- The error that is kept is not of the queue.
    generalize hkept : (match s.deadError kind with
      | none => s
      | some e => { s with
          dead_errors := s.dead_errors.upsert (kind, e) (fun r => (r.1, e)) fun _ => rfl }) = u
    have hjobs : u.jobs = s.jobs := by
      rw [← hkept]
      cases s.deadError kind <;> rfl
    have hu : OneQueued u ↔ OneQueued s := by
      unfold OneQueued Db.queuedCount
      rw [hjobs]
    rw [← hu]
    split_ifs
    · rfl
    · refine Iff.trans ?_ ((oneQueued_enqueue kind now .none _).trans
        (oneQueued_delete (p := fun j => j.kind = kind && j.state = .dead) fun j hj => ?_))
      · rfl
      · simp only [Bool.and_eq_true, decide_eq_true_eq] at hj
        simp [hj.2]
  · rfl

theorem queuedCount_buryStranded (now : ℤ) (s : Db) (kind : JobKind) :
    (buryStranded now s).queuedCount kind = s.queuedCount kind := by
  refine queuedCount_updateWhere (fun j => by simp) (fun j hj => ?_) kind
  rw [j.stranded_running (Bool.and_eq_true_iff.mp hj).1]
  decide

theorem queuedCount_requeueStranded (now : ℤ) (s : Db) (kind : JobKind) :
    (requeueStranded now s).queuedCount kind = s.queuedCount kind +
      s.jobs.countWhere fun j => j.kind = kind && (j.stranded now && j.strands < 64) := by
  apply queuedCount_requeue
  · exact fun _ => rfl
  · exact fun _ => rfl
  · exact fun j hj => j.stranded_running (Bool.and_eq_true_iff.mp hj).1

/-- What a repair puts back are the stranded rows: the rest of it enqueues. -/
theorem oneQueued_repair (now : ℤ) (s : Db) :
    OneQueued (repair now s) ↔ QueueStep.Clear s (.repair now) := by
  have hfold : ∀ (kinds : List JobKind) (u : Db),
      OneQueued (kinds.foldl (fun db kind => resurrect now kind db) u) ↔ OneQueued u := by
    intro kinds
    induction kinds with
    | nil => exact fun u => Iff.rfl
    | cons kind kinds ih => exact fun u => (ih _).trans (oneQueued_resurrect now kind u)
  have hjanitor : ∀ u, OneQueued (reviveJanitor now u) ↔ OneQueued u := by
    intro u
    unfold reviveJanitor
    split_ifs
    · rfl
    · exact oneQueued_enqueue _ _ _ u
  rw [repair, hfold, hjanitor]
  refine forall₂_congr fun kind _ => ?_
  rw [queuedCount_requeueStranded, queuedCount_buryStranded, buryStranded,
    Table.countWhere_updateWhere]
  -- A row that is given up is not one that is put back.
  have hsame :
    (fun j : Job =>
    (fun j : Job => decide (j.kind = kind) && (j.stranded now && decide (j.strands < 64)))
        (if (j.stranded now && decide (64 ≤ j.strands)) = true then { j with
          state := .dead
          last_error := some "stranded: isolate died 64x without a completed slice" } else j)) =
      fun j => decide (j.kind = kind) && (j.stranded now && decide (j.strands < 64)) := by
    funext j
    dsimp only
    split_ifs with hj
    · have hmany : 64 ≤ j.strands := of_decide_eq_true (Bool.and_eq_true_iff.mp hj).2
      simp [Job.stranded, hmany]
    · rfl
  rw [hsame]
  rfl

/-- A dispatch takes a row from the queue. -/
theorem queuedCount_dispatch_le (pick : JobPick) (now : ℤ) (lease : Lease) (s : Db)
    (kind : JobKind) :
    (dispatch pick now lease s).queuedCount kind ≤ s.queuedCount kind := by
  unfold dispatch
  cases pickRow pick now s with
  | none => exact le_rfl
  | some r =>
    dsimp only [claimRow, Db.queuedCount]
    rw [Table.countWhere_updateWhere]
    refine (List.monotone_filter_right _ fun j hj => ?_).length_le
    split_ifs at hj
    · simp at hj
    · exact hj

/-- An import's row is of no other kind. -/
theorem oneQueued_startImport {row : Job} (hrow : row.kind = .importPack) (s : Db) :
    OneQueued { s with jobs := s.jobs.insertIgnore row } ↔ OneQueued s := by
  refine forall₂_congr fun kind hkind => ?_
  cases hhas : s.jobs.has row.id with
  | true =>
    dsimp only [Db.queuedCount]
    rw [Table.insertIgnore_of_has hhas]
  | false =>
    dsimp only [Db.queuedCount]
    rw [Table.countWhere_insertIgnore_of_not_has hhas]
    simp [hrow, hkind.symm]

/-- One step. -/
theorem QueueStep.oneQueued_iff (env : Env) (hs : OneQueued s) (e : QueueStep) :
    OneQueued (e.apply env s) ↔ e.Clear s := by
  cases e with
  | enqueue kind run_at payload =>
    rw [clear_of_no_returns fun _ => rfl]
    exact oneQueued_enqueue kind run_at payload s
  | dispatch pick now lease =>
    rw [clear_of_no_returns fun _ => rfl]
    exact iff_of_true
      (fun kind hk => (queuedCount_dispatch_le pick now lease s kind).trans (hs kind hk)) hs
  | land job lease now out => exact oneQueued_land env job lease now out s
  | repair now => exact oneQueued_repair now s
  | startImport row imports =>
    rw [clear_of_no_returns fun _ => rfl]
    exact oneQueued_startImport imports s
  | elsewhere f keeps =>
    rw [clear_of_no_returns fun _ => rfl]
    exact iff_of_true (fun kind hk => ((keeps s).queuedCount_le kind).trans (hs kind hk)) hs

/-! ## Runs -/

/-- The state after a list of steps. -/
def runSteps (env : Env) (es : List QueueStep) (s : Db) : Db :=
  es.foldl (fun s e => e.apply env s) s

/-- Every step of the list is clear where it is made. -/
def AllClear (env : Env) : List QueueStep → Db → Prop
  | [], _ => True
  | e :: es, s => e.Clear s ∧ AllClear env es (e.apply env s)

/-- From a state with at most one queued row of each kind, a run has at most one in each of its
states exactly if each step of it that puts rows back finds none of their kinds queued. -/
theorem oneQueued_run_iff (env : Env) (s : Db) (hs : OneQueued s) (es : List QueueStep) :
    (∀ before, before <+: es → OneQueued (runSteps env before s)) ↔ AllClear env es s := by
  induction es generalizing s with
  | nil =>
    refine iff_of_true (fun before hb => ?_) trivial
    rw [List.prefix_nil.mp hb]
    exact hs
  | cons e es ih =>
    rw [AllClear, ← e.oneQueued_iff env hs]
    constructor
    · intro h
      have he : OneQueued (e.apply env s) := h [e] ⟨es, rfl⟩
      exact ⟨he, (ih _ he).mp fun before hb =>
        h (e :: before) (List.cons_prefix_cons.mpr ⟨rfl, hb⟩)⟩
    · rintro ⟨he, hes⟩ before hb
      cases before with
      | nil => exact hs
      | cons e' before =>
        obtain ⟨rfl, hrest⟩ := List.cons_prefix_cons.mp hb
        exact (ih _ he).mpr hes before hrest

/-- A push enqueues a garbage collection, the alarm dispatches it, and its slice goes on. -/
theorem oneQueued_run_once :
    OneQueued Db.fresh ∧
      ∀ before, before <+: [QueueStep.enqueue .gcMark 0 .none, .dispatch .due 0 5,
          .land (Job.fresh 1 .gcMark 0 .none) 5 0 (.ok (.continue none))] →
        OneQueued (runSteps (.default fun _ => true) before Db.fresh) := by
  have hfresh : OneQueued Db.fresh := by
    intro kind _
    cases kind <;> decide
  refine ⟨hfresh, (oneQueued_run_iff _ _ hfresh _).mpr ?_⟩
  refine ⟨?_, ?_, ?_, trivial⟩ <;> intro kind _ <;> cases kind <;> decide +kernel

/-- A garbage collection is dispatched, a push enqueues the next, and the slice of the first goes
on: two are queued. -/
theorem queue_twice :
    (runSteps (.default fun _ => true) [.enqueue .gcMark 0 .none, .dispatch .due 0 5,
      .enqueue .gcMark 0 .none, .land (Job.fresh 1 .gcMark 0 .none) 5 0 (.ok (.continue none))]
      Db.fresh).queuedCount .gcMark = 2 := by
  decide +kernel

end GitEdge
