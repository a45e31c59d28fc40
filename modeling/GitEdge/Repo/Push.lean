import GitEdge.Repo.Auth
import GitEdge.Jobs.Queue

/-!
# The routes of a push before its commit

`push_begin`, `push_index` and `import_start` of `repo_do/mod.rs`, each one synchronous span. A push
captures the epoch and the scope when it begins; its pack stays `ingesting`, and invisible to
readers, until the commit. Besides the tables, `push_begin` writes the counters of the push rate
limit, and both `push_begin` and `import_start` pin the object format.
-/

namespace GitEdge

open Sql

/-- `boot` on a new repository. -/
def boot (now : ℤ) : Db := enqueue .janitor now .none .fresh

/-- The most pushes that may be open at a time. -/
def maxOpenPushes : ℕ := 64

/-- `BUSY_RETRY_S`. -/
def busyRetryS : ℕ := 60

/-- `at_pack_cap`: a cap that is not positive is none, and a cap of one is read as two. -/
def Db.atPackCap (db : Db) (env : Env) : Bool :=
  0 < env.max_live_packs &&
    max env.max_live_packs 2 ≤
      (db.packs.countWhere fun p => p.state = .live || p.state = .ingesting : ℕ)

/-! ## The object format and the rate limit -/

/-- `obj_kind`. -/
def Db.objKind (db : Db) : ObjFormat := db.obj_format.getD .sha1

/-- `parse_kind`. -/
def parseKind : Option String → Except Error (Option ObjFormat)
  | none => .ok none
  | some "sha1" => .ok (some .sha1)
  | some "sha256" => .ok (some .sha256)
  | some other => .error (.protocol s!"object-format {other} unsupported")

/-- `pin_obj_format`: the first pin stands, and another format is a conflict. -/
def pinObjFormat (kind : ObjFormat) : Span Db Error Unit := do
  Span.exec fun db => { db with obj_format := db.obj_format.or (some kind) }
  let db ← Span.read
  if db.objKind ≠ kind then
    let repo := if kind = .sha1 then "sha256" else "sha1"
    Span.fail (.conflict s!"repo is {repo} — cannot accept {kind.name} objects")
  else pure ()

/-- `GE_RATE_PUSHES_PER_MIN`, and the comparison of the estimate with it in floating point: the
counts of this window and of the one before, and the milliseconds into this one. -/
structure RateRule where
  limit : ℤ
  exceeds : ℤ → ℤ → ℤ → Bool

/-- No rate limit. -/
def RateRule.off : RateRule := ⟨0, fun _ _ _ => false⟩

/-- The counts of this window and of the one before, in the rows of a credential. -/
def rateCounts (win : ℤ) (rows : List RateRow) : ℤ × ℤ :=
  rows.foldl (fun c r => if r.window = win then (r.count, c.2) else (c.1, r.count)) (0, 0)

/-- `rate_check`. The attempt is counted before the check. -/
def rateCheck (rule : RateRule) (now : ℤ) (key : String) : Span Db Error Unit :=
  if rule.limit ≤ 0 then pure ()
  else do
    let win := now / 60000
    let bucket := s!"push:{key}"
    Span.exec fun db =>
      { db with
        rate := db.rate.upsert ⟨bucket, win, 1⟩ (fun r => { r with count := r.count + 1 })
          fun _ => rfl }
    let db ← Span.read
    let (cur, prev) :=
      rateCounts win (db.rate.select fun r => r.bucket = bucket && win - 1 ≤ r.window)
    Span.exec fun db =>
      { db with rate := db.rate.deleteWhere fun r => r.bucket = bucket && r.window < win - 1 }
    if rule.exceeds cur prev (now % 60000) then
      Span.fail (.rateLimit (max ((60000 - now % 60000) / 1000).toNat 1))
    else pure ()

/-! ## The beginning of a push -/

/-- The body of a request to begin a push, with the format that the client declares. -/
structure BeginDto where
  push_id : PushId
  principal : String
  key : String
  admin : Bool
  object_format : Option String

/-- The marker of the credential that opens a push. -/
def BeginDto.auth (b : BeginDto) : String := if b.admin then adminAuth else b.key

/-- The row of a push that begins. -/
def BeginDto.row (b : BeginDto) (db : Db) (now : ℤ) (scope : String) : PushRow where
  id := b.push_id
  state := .open
  pack_id := none
  principal := b.principal
  began_at := now
  ended_at := none
  gc_epoch := db.gc_epoch
  result := none
  swept_at := none
  scope := some scope
  auth := some b.auth

/-- The scope that a new push captures from its credential. -/
def BeginDto.scope (b : BeginDto) (db : Db) (now : ℤ) : Except Error String :=
  pushScope b.admin b.key (if b.admin || b.key = "" then none else db.liveToken b.key now)

/-- The last part of `push_begin`: the row that exists must be open and of the same credential, and
a new row needs a place among the open ones and a credential that may push. -/
def openPush (now : ℤ) (b : BeginDto) (existing : Option PushRow) : Span Db Error Unit := do
  let db ← Span.read
  match existing with
  | some e =>
    if e.state ≠ .open then Span.fail (.conflict s!"push is {e.state.text}")
    else if e.principal = b.principal && e.auth = some b.auth then pure ()
    else Span.fail .forbidden
  | none =>
    if maxOpenPushes ≤ db.pushes.countWhere fun p => p.state = .open then
      Span.fail (.limit "too many open pushes")
    else
      match b.scope db now with
      | .error e => Span.fail e
      | .ok scope =>
        Span.exec fun db => { db with pushes := db.pushes.insertIgnore (b.row db now scope) }

/-- `push_begin`. A second begin of an open push by the same credential opens nothing. -/
def pushBegin (env : Env) (now : ℤ) (rule : RateRule) (b : BeginDto) : Span Db Error Unit := do
  let db ← Span.read
  let existing := db.pushes.find b.push_id
  if existing.isNone && db.atPackCap env then Span.fail (.busy busyRetryS)
  else do
    rateCheck rule now b.key
    match parseKind b.object_format with
    | .error e => Span.fail e
    | .ok none => openPush now b existing
    | .ok (some kind) => do
      pinObjFormat kind
      openPush now b existing

/-- A row that ingest posts: the row of the object, and a commit's parents. -/
structure PostedRow where
  row : ObjRow
  parents : Option (List Oid)

/-- The rows that record the parents of a commit. -/
def PostedRow.parentRows (r : PostedRow) : List ParentRow :=
  match r.row.kind, r.parents with
  | .commit, some ps =>
    ⟨r.row.sha, -1, none⟩ :: ps.zipIdx.map fun p => ⟨r.row.sha, p.2, some p.1⟩
  | _, _ => []

/-- `insert_objects`, for one row. -/
def insertObject (pack : PackId) (r : PostedRow) : Span Db Error Unit := do
  Span.exec fun db => { db with objects := db.objects.insertIgnore { r.row with pack_id := pack } }
  Span.each (fun p => Span.exec fun db =>
    { db with commit_parents := db.commit_parents.insertIgnore p }) r.parentRows

/-- `insert_objects`. -/
def insertObjects (pack : PackId) (rows : List PostedRow) : Span Db Error Unit :=
  if 10000 < rows.length then Span.fail (.protocol "more than 10,000 rows")
  else Span.each (insertObject pack) rows

/-- The pack of a request to index, with the counts that ingest has so far. -/
structure PackDto where
  id : PackId
  push_id : PushId
  count : ℕ
  bytes : ℕ

/-- The row of a new pack. -/
def PackDto.row (m : PackDto) (now : ℤ) : PackRow where
  id := m.id
  state := .ingesting
  count := m.count
  bytes := m.bytes
  push_id := some m.push_id
  created_at := now
  dead_at := none

/-- Whether the upsert of the pack row may update a row that exists. -/
def PackDto.owns (m : PackDto) (p : PackRow) : Bool :=
  p.id = m.id && (p.state = .ingesting && p.push_id = some m.push_id)

/-- The upsert of the pack row: a row that is not this push's, or no longer ingesting, is left. -/
def PackDto.upsert (m : PackDto) (now : ℤ) (db : Db) : Db :=
  if db.packs.has m.id then
    { db with
      packs := db.packs.updateWhere m.owns (fun p => { p with count := m.count, bytes := m.bytes })
        fun _ => rfl }
  else { db with packs := db.packs.insertIgnore (m.row now) }

/-- `push_index`. -/
def pushIndex (now : ℤ) (m : PackDto) (rows : List PostedRow) : Span Db Error Unit := do
  let db ← Span.read
  if 10000 < rows.length then Span.fail (.internal "index > 10000 rows")
  else if !((db.pushes.find m.push_id).any fun p => p.state = .open) then
    Span.fail (.conflict "push not open")
  else do
    let changes := if db.packs.has m.id then db.packs.countWhere m.owns else 1
    Span.exec (m.upsert now)
    if changes ≠ 1 then Span.fail (.conflict "pack not ingesting for this push")
    else insertObjects m.id rows

/-! ## The start of an import -/

/-- Whether a job imports for a push, and is not dead. -/
def Job.importsFor (push : PushId) (j : Job) : Bool :=
  j.kind = .importPack && (j.state = .queued || j.state = .running) &&
    match j.payload with
    | .import p => p.push = push
    | _ => false

/-- A part of a staged import as it comes: the key, if there is one and it is a string, and the
length, if it is a natural number. -/
structure PartBody where
  key : Option String
  bytes : Option ℕ

/-- The checks of a part; `ns` is the repository's part of the bucket for staged data. -/
def PartBody.check (ns : String) (p : PartBody) : Except Error Unit :=
  match p.key with
  | none => .error (.protocol "part key")
  | some key =>
    if !ns.toList.isPrefixOf key.toList then .error (.protocol "part outside pending namespace")
    else if p.bytes.isNone then .error (.protocol "part bytes")
    else .ok ()

/-- A command of a staged import as it comes: the name, if there is one and it is a string, and what
the decoder of commands makes of it. -/
structure CmdBody where
  name : Option String
  parsed : Except String Cmd

/-- The captured scope covers the ref of the command. -/
def CmdBody.check (scope : Option String) (c : CmdBody) : Except Error Unit :=
  let name := c.name.getD ""
  if !scopeAllows scope name then .error (.protocol s!"ref {name} outside token scope") else .ok ()

/-- The body of a request to start an import: the staged parts and the commands, or the url of a
remote. -/
structure StartBody where
  push : PushId
  pack : PackId
  parts : List PartBody
  commands : List CmdBody
  url : Option String
  format : Option String

/-- The checks of a staged import after the pin: the scope, the parts and the commands. -/
def StartBody.check (ns : String) (scope : Option String) (b : StartBody) :
    Except Error (List Cmd) := do
  b.commands.forM (CmdBody.check scope)
  b.parts.forM (PartBody.check ns)
  (b.commands.mapM CmdBody.parsed).mapError fun e => .protocol s!"commands: {e}"

/-- The row of the pack that an import writes. -/
def StartBody.packRow (now : ℤ) (b : StartBody) : PackRow :=
  ⟨b.pack, .ingesting, 0, 0, some b.push, now, none⟩

/-- The payload of the import job, with the decoded commands; the principal is the one that began
the push. -/
def StartBody.payload (principal : String) (cmds : List Cmd) (b : StartBody) : ImportPayload :=
  ⟨b.push, b.pack, principal, cmds, b.url, none⟩

/-- The cursor of an import by url, which starts with the fetch. -/
def fetchCursor : ImportCursor :=
  ⟨.fetch, 0, 0, 0, [], none, none, none, none, false, -1, 0⟩

/-- The insert of the import job. -/
def insertImport (now : ℤ) (principal : String) (cmds : List Cmd) (b : StartBody) (db : Db) : Db :=
  { db with
    jobs := db.jobs.insertIgnore
      { Job.fresh (db.job_seq + 1) .importPack now (.import (b.payload principal cmds)) with
        cursor := if b.url.isSome then some fetchCursor else none }
    job_seq := db.job_seq + 1 }

/-- The pack row and the job of an import. -/
def plantImport (now : ℤ) (principal : String) (cmds : List Cmd) (b : StartBody) :
    Span Db Error Unit := do
  Span.exec fun db => { db with packs := db.packs.insertIgnore (b.packRow now) }
  Span.exec (insertImport now principal cmds b)

/-- `import_start`. A staged import pins its format, by default the repository's own. A second start
for the same push finds the job of the first and changes nothing. -/
def importStart (env : Env) (ns : String) (now : ℤ) (b : StartBody) : Span Db Error Unit := do
  let db ← Span.read
  match db.pushes.find b.push with
  | none => Span.fail (.conflict "unknown push")
  | some st =>
    if st.state ≠ .open then Span.fail (.conflict s!"import push is {st.state.text}")
    else if b.url.isNone && (b.parts.isEmpty || b.commands.isEmpty) then
      Span.fail (.protocol "import needs parts and commands")
    else if db.jobs.rows.any (Job.importsFor b.push) then pure ()
    else if db.atPackCap env then Span.fail (.busy busyRetryS)
    else if b.url.isSome then plantImport now st.principal [] b
    else
      match parseKind b.format with
      | .error e => Span.fail e
      | .ok kind => do
        pinObjFormat (kind.getD db.objKind)
        match b.check ns st.scope with
        | .error e => Span.fail e
        | .ok cmds => plantImport now st.principal cmds b

end GitEdge
