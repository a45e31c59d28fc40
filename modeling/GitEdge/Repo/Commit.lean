import GitEdge.Repo.Auth
import GitEdge.Jobs.Cohort

/-!
# The commit of a push

`commit_push` of `repo_do/mod.rs` and what it calls. It is one synchronous span: it checks the push
row, the credential, the epoch and the quota, promotes the push's pack, judges the commands one by
one with `apply_one` (twice for an atomic push: a dry run, and then the writes), moves
`refs_version` and records the results. The definitions follow the source statement by statement;
`now` is the clock, which the span reads once.
-/

namespace GitEdge

open Sql

/-- `MAX_REFS`. -/
def maxRefs : ℕ := 65536

/-- `jobs::events::MAX_PENDING`. -/
def maxPendingEvents : ℕ := 10000

/-- A request to commit a push. -/
structure CommitRequest where
  push_id : PushId
  pack_id : Option PackId
  principal : String
  commands : List Cmd
  atomic : Bool

/-- `barrier_active`: a garbage collection chain with the write barrier is running. -/
def Db.barrierActive (db : Db) : Bool :=
  db.gc.chain.isSome && db.gc.started_at.isSome && db.gc.barrier == some 1 &&
    db.gc.mode != some .compact

/-- Whether a pack is live. -/
def Db.packLive (db : Db) (p : PackId) : Bool := (db.packs.find p).any fun r => r.state = .live

/-- `Index::lookup` at one id: an entry for the object in some live pack. -/
def Db.lookup (db : Db) (id : Oid) : Option ObjRow :=
  db.objects.rows.find? fun o => o.sha = id && db.packLive o.pack_id

/-- `storage_totals`: the objects and the bytes of the live packs and of the push's own pack. -/
def Db.storageTotals (db : Db) (push : PushId) : ℕ × ℕ :=
  let rows := db.packs.select fun p =>
    p.state = .live || (p.state = .ingesting && p.push_id = some push)
  ((rows.map (·.count)).sum, (rows.map (·.bytes)).sum)

/-- `UPDATE meta SET value=value+1 WHERE key='refs_version'`. -/
def bumpRefsVersion (db : Db) : Db := { db with refs_version := db.refs_version + 1 }

/-! ## One ref command -/

/-- `ref_cas_ok`: a create needs the ref to be absent, an update or a delete needs its target to be
the expected one. -/
def Db.refCasOk (db : Db) (name : String) (old : Oid) : Bool :=
  match db.refs.find name with
  | none => old = 0
  | some r => old ≠ 0 && r.target = old

/-- The rule of `apply_one` for a protected ref. -/
def Db.refuseProtected (db : Db) (c : Cmd) : Option String :=
  if db.isProtected c.name then
    protectedVerdict (c.old = 0) (c.new = 0)
      (if c.old = 0 || c.new = 0 then none else db.ffAncestor c.old c.new)
  else none

/-- The checks of `apply_one` that do not read the refs: the reason to refuse the command. -/
def Db.breaksRule (env : Env) (db : Db) (head : String) (scopes : List (Option String)) (c : Cmd) :
    Option String :=
  if !("refs/".toList.isPrefixOf c.name.toList) || !env.valid_name c.name then some "funny refname"
  else if !(scopes.all fun s => scopeAllows s c.name) then some "ref outside token scope"
  else if c.old = 0 && c.new = 0 then some "funny refname"
  else if db.pins.has c.name then some "ref is pinned"
  else if c.new = 0 && c.name = head then some "deletion of the current branch prohibited"
  else
    (db.refuseProtected c).or
      (if c.new ≠ 0 && (db.lookup c.new).isNone then some "missing necessary objects" else none)

/-- The checks of `apply_one` before the compare-and-set. -/
def Db.refuse (env : Env) (db : Db) (head : String) (scopes : List (Option String)) (c : Cmd) :
    Option String :=
  (db.breaksRule env head scopes c).or
    (if c.new ≠ 0 && c.old = 0 && maxRefs ≤ db.refs.size then some "too many refs" else none)

/-- One id fed to the frontier at a generation, unless it has been seen; of two generations the
smaller one stands. -/
def feedFrontier (gen : ℕ) (seen : Table Oid id) (t : Table FrontierRow FrontierRow.sha)
    (sha : Oid) :
    Table FrontierRow FrontierRow.sha :=
  if seen.has sha then t
  else t.upsert ⟨sha, gen⟩ (fun f => { f with gen := min f.gen gen }) fun _ => rfl

/-- The statement of `barrier_feed_landing`. -/
def barrierFeedLanding (feeds : List Oid) (db : Db) : Db :=
  { db with gc_frontier := feeds.foldl (feedFrontier 1 db.gc_seen) db.gc_frontier }

/-- The ids that a landing feeds: its new target, and the peeled one unless it is null. (A text that
is no id is fed too; no object has it, and it is left out here.) -/
def Cmd.feeds (c : Cmd) : List Oid :=
  c.new :: ((c.peeled.bind PeeledText.oid).filter fun p => p ≠ 0).toList

/-- The statement that writes a command. -/
def Cmd.write (now : ℤ) (c : Cmd) (refs : Table RefRow RefRow.name) : Table RefRow RefRow.name :=
  if c.old = 0 then refs.insertIgnore ⟨c.name, c.new, c.peeled, now⟩
  else if c.new = 0 then refs.deleteWhere fun r => r.name = c.name && r.target = c.old
  else
    refs.updateWhere (fun r => r.name = c.name && r.target = c.old)
      (fun r => { r with target := c.new, peeled := c.peeled, updated_at := now }) fun _ => rfl

/-- The number of rows that the statement changes. -/
def Cmd.changes (c : Cmd) (refs : Table RefRow RefRow.name) : ℕ :=
  if c.old = 0 then (if refs.has c.name then 0 else 1)
  else refs.countWhere fun r => r.name = c.name && r.target = c.old

/-- The insert into `reflog`. -/
def logRef (push : PushId) (who : String) (now : ℤ) (c : Cmd) (db : Db) : Db :=
  { db with reflog := db.reflog ++ [⟨c.name, c.old, c.new, push, who, now⟩] }

/-- `apply_one`: the verdict on one command, `none` when it passes. With `write` it is applied;
under the barrier a landing first feeds the frontier and moves `refs_version`. -/
def applyOne (env : Env) (head : String) (c : Cmd) (push : PushId) (who : String) (now : ℤ)
    (write barrier : Bool) (scopes : List (Option String)) : Span Db Error (Option String) := do
  let db ← Span.read
  match db.refuse env head scopes c with
  | some why => pure (some why)
  | none =>
    if !write then
      pure (if db.refCasOk c.name c.old then none else some "failed to update ref")
    else if barrier && !db.refCasOk c.name c.old then pure (some "failed to update ref")
    else do
      if barrier then
        if c.new ≠ 0 then Span.exec (barrierFeedLanding c.feeds)
        Span.exec bumpRefsVersion
      Span.exec fun db => { db with refs := c.write now db.refs }
      if c.changes db.refs ≠ 1 then
        if barrier then Span.fail (.internal "ref write after landing pre-check")
        else pure (some "failed to update ref")
      else do
        Span.exec (logRef push who now c)
        pure none

/-- The loops of `commit_push` over the commands. -/
def applyAll (env : Env) (head : String) (push : PushId) (who : String) (now : ℤ)
    (write barrier : Bool) (scopes : List (Option String)) :
    List Cmd → Span Db Error (List RefResult)
  | [] => pure []
  | c :: cs => do
    let r ← applyOne env head c push who now write barrier scopes
    let rs ← applyAll env head push who now write barrier scopes cs
    pure ((c.name, r) :: rs)

/-! ## The commit -/

/-- The statement of `finish_push`. -/
def finishRow (req : CommitRequest) (state : PushState) (now : ℤ) (results : List RefResult)
    (db : Db) : Db :=
  { db with
    pushes := db.pushes.updateWhere (fun p => p.id = req.push_id)
      (fun p => { p with
        state := state, ended_at := some now, pack_id := req.pack_id, result := some results })
      fun _ => rfl }

/-- `finish_push`: the push row records how the push ended. -/
def finishPush (req : CommitRequest) (state : PushState) (now : ℤ) (results : List RefResult) :
    Span Db Error (List RefResult) := do
  Span.exec (finishRow req state now results)
  pure results

/-- The same reason for every command. -/
def CommitRequest.all (req : CommitRequest) (why : String) : List RefResult :=
  req.commands.map fun c => (c.name, some why)

/-- `INSERT OR IGNORE INTO gc_pending(pack_id)`: the cursor starts before the first entry. -/
def addPending (pack : PackId) (db : Db) : Db :=
  if db.gc_pending.has pack then db
  else
    { db with
      gc_pending := db.gc_pending.insertIgnore ⟨db.pending_seq + 1, pack, -1⟩
      pending_seq := db.pending_seq + 1 }

/-- `barrier_write_pending_before_promote`. -/
def barrierWritePendingBeforePromote (pack : PackId) : Span Db Error Unit := do
  Span.exec (addPending pack)
  Span.exec bumpRefsVersion

/-- The condition of the promotion: the pack is ingesting, and it is this push's. -/
def promotable (push : PushId) (pack : PackId) (p : PackRow) : Bool :=
  p.id = pack && (p.state = .ingesting && p.push_id = some push)

/-- The promotion of the push's pack. -/
def promote (push : PushId) (pack : PackId) (db : Db) : Db :=
  { db with
    packs := db.packs.updateWhere (promotable push pack) (fun p => { p with state := .live })
      fun _ => rfl }

/-- The demotion of the push's pack, after a failed dry run. -/
def demote (push : PushId) (pack : PackId) (db : Db) : Db :=
  { db with
    packs := db.packs.updateWhere (fun p => p.id = pack && p.push_id = some push)
      (fun p => { p with state := .ingesting }) fun _ => rfl }

/-- `DELETE FROM gc_pending WHERE pack_id=?`. -/
def dropPending (pack : PackId) (db : Db) : Db :=
  { db with gc_pending := db.gc_pending.deleteWhere fun p => p.pack_id = pack }

/-- The message for a quota that the push would exceed. -/
def overQuota (env : Env) (objects bytes : ℕ) : Option String :=
  if 0 < env.quota_max_objects && env.quota_max_objects < objects then
    some s!"objects {objects} > GE_QUOTA_MAX_OBJECTS={env.quota_max_objects}"
  else if 0 < env.quota_max_bytes && env.quota_max_bytes < bytes then
    some s!"bytes {bytes} > GE_QUOTA_MAX_BYTES={env.quota_max_bytes}"
  else none

/-- Step 3 of `commit_push`: the quota, and the promotion of the pack. -/
def promotePack (env : Env) (req : CommitRequest) (now : ℤ) (barrier : Bool) (pack : PackId) :
    Span Db Error Unit := do
  let db ← Span.read
  let (objects, bytes) := db.storageTotals req.push_id
  match overQuota env objects bytes with
  | some m => do
    let _ ← finishPush req .rejected now (req.all "over repo quota")
    Span.fail (.limit s!"repo quota exceeded: {m}")
  | none => do
    if barrier then barrierWritePendingBeforePromote pack
    let db ← Span.read
    let changes := db.packs.countWhere (promotable req.push_id pack)
    Span.exec (promote req.push_id pack)
    if changes ≠ 1 then Span.fail (.conflict "pack not in state ingesting")
    else Span.attempt (trigger env now)

/-- The end of an atomic push whose dry run failed: the pack is demoted again, and every command
fails. -/
def rejectAtomic (req : CommitRequest) (now : ℤ) (barrier : Bool) (results : List RefResult) :
    Span Db Error (List RefResult) := do
  match req.pack_id with
  | none => pure ()
  | some pack => do
    Span.exec (demote req.push_id pack)
    if barrier then Span.exec (dropPending pack)
  finishPush req .rejected now
    (results.map fun r => (r.1, r.2.or (some "atomic push failed")))

/-- The refs that are `LIKE 'refs/heads/%'`; the pattern ignores the case of ASCII letters. -/
def Db.branches (db : Db) : List RefRow :=
  db.refs.select fun r => "refs/heads/".toList.isPrefixOf (r.name.toList.map Char.toLower)

/-- The statement that adopts a branch when `HEAD` names no ref: the first branch by name. -/
def adoptHead (db : Db) : Db :=
  if db.refs.has db.head then db
  else
    match (db.branches.map (·.name)).insertionSort (· ≤ ·) with
    | [] => db
    | name :: _ => { db with head := name }

/-- The commands that succeeded, as the body of a push event lists them. -/
def eventRefs (cmds : List Cmd) (results : List RefResult) : List EventRef :=
  ((cmds.zip results).filter fun x => x.2.2.isNone).map fun x => ⟨x.1.name, x.1.old, x.1.new⟩

/-- The row that `record_push_event` inserts. -/
def CommitRequest.event (req : CommitRequest) (results : List RefResult) (now : ℤ) : EventRow :=
  ⟨⟨req.push_id, req.principal, now, eventRefs req.commands results⟩, 0, none⟩

/-- `record_push_event`. -/
def recordPushEvent (env : Env) (req : CommitRequest) (results : List RefResult) (now : ℤ) :
    Span Db Error Unit := do
  let db ← Span.read
  if !env.webhook then pure ()
  else if maxPendingEvents ≤ db.push_events.size then
    Span.exec fun db => { db with push_events_dropped := db.push_events_dropped + 1 }
  else do
    Span.exec fun db => { db with push_events := db.push_events.insert (req.event results now) }
    Span.exec (enqueue .pushEvent now .none)

/-- Steps 4 to 7 of `commit_push`: the writes, the version, and the record of the push. -/
def commitRefs (env : Env) (req : CommitRequest) (now : ℤ) (barrier : Bool) (head : String)
    (scopes : List (Option String)) : Span Db Error (List RefResult) := do
  let results ← applyAll env head req.push_id req.principal now true barrier scopes req.commands
  let any_ok := results.any fun r => r.2.isNone
  if any_ok || req.pack_id.isSome then Span.exec bumpRefsVersion
  if any_ok then
    Span.exec adoptHead
    Span.exec (enqueue .gcMark (now + env.gc_quiet_ms) .none)
    recordPushEvent env req results now
  finishPush req .committed now results

/-- The commands of `commit_push`, once the push's pack is live: the dry run of an atomic push, and
the writes. -/
def commitCommands (env : Env) (req : CommitRequest) (now : ℤ) (barrier : Bool)
    (scopes : List (Option String)) : Span Db Error (List RefResult) := do
  let db ← Span.read
  let head := db.head
  if req.atomic then
    let results ←
      applyAll env head req.push_id req.principal now false barrier scopes req.commands
    if results.any fun r => r.2.isSome then rejectAtomic req now barrier results
    else commitRefs env req now barrier head scopes
  else commitRefs env req now barrier head scopes

/-- `commit_push`. -/
def commitPush (env : Env) (now : ℤ) (req : CommitRequest) : Span Db Error (List RefResult) := do
  let db ← Span.read
  match db.pushes.find req.push_id with
  | none => Span.fail (.conflict "unknown push")
  | some push =>
    if push.state ≠ .open then Span.fail (.conflict s!"push is {push.state.text}")
    else
      match commitAuth push.auth (db.tokenRow push.auth now) with
      | .error why => finishPush req .rejected now (req.all why)
      | .ok current =>
        if db.gc_epoch ≠ push.gc_epoch then
          finishPush req .rejected now (req.all "gc ran during push, retry")
        else do
          let barrier := db.barrierActive
          match req.pack_id with
          | none => pure ()
          | some pack => promotePack env req now barrier pack
          commitCommands env req now barrier [push.scope, current.or push.scope]

end GitEdge
