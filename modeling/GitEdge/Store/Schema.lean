import Mathlib.Algebra.Ring.Int.Defs
import Mathlib.Algebra.Ring.Nat
import GitEdge.Sql.Table
import GitEdge.Sql.Numbered
import GitEdge.Sql.Span

/-!
# The database of a repository

The tables of `store/mod.rs` as one record, with the columns that the modelled code reads or
writes. An object id is a number, and `0` is the null id; pack, push, lease and chain ids are random
strings in the source, of which only equality and the order of a `TEXT` column matter, and are
numbers here. Times are milliseconds. The rows of `meta` are the fields `head`, `refs_version` and
`gc_epoch`, which every booted repository has, and the `gc.*` keys of `GcMeta`, each of which may be
absent.
-/

namespace GitEdge

open Sql

/-- An object id; `0` is the null id. -/
abbrev Oid := ℕ

/-- A pack id. -/
abbrev PackId := ℕ

/-- A push id. -/
abbrev PushId := ℕ

/-- The id of a garbage collection or compaction chain, `gc.chain`. -/
abbrev ChainId := ℕ

/-- The fencing token of a running job. -/
abbrev Lease := ℕ

/-- The four kinds of objects, in the order of their numbers in `objects.kind`. -/
inductive Kind where
  | commit | tree | blob | tag
deriving DecidableEq, Repr

/-- The object formats. -/
inductive ObjFormat where
  | sha1 | sha256
deriving DecidableEq, Repr

/-- `kind_name`. -/
def ObjFormat.name : ObjFormat → String
  | .sha1 => "sha1"
  | .sha256 => "sha256"

/-- The error enum of `error.rs`. -/
inductive Error where
  | protocol (m : String)
  | auth
  | forbidden
  | notFound
  | conflict (m : String)
  | unpack (m : String)
  | budget
  | limit (m : String)
  | gone
  | rateLimit (s : ℕ)
  | busy (s : ℕ)
  | storage (m : String)
  | internal (m : String)
deriving DecidableEq, Repr

/-- The errors of a route that undo its span. -/
def Error.undoes : Error → Bool
  | .storage _ | .internal _ => true
  | _ => false

/-! ## Rows -/

/-- The text of a peeled id. A push sends an id, and so does an import from a remote; in a staged
one it is what the client wrote, which nothing checks. -/
inductive PeeledText where
  | id (x : Oid)
  | other (text : String)
deriving DecidableEq, Repr

/-- `ObjectId::from_hex` of it. -/
def PeeledText.oid : PeeledText → Option Oid
  | .id x => some x
  | .other _ => none

/-- A row of `refs`. -/
structure RefRow where
  name : String
  target : Oid
  peeled : Option PeeledText
  updated_at : ℤ
deriving DecidableEq, Repr

/-- The peeled id of a row, if its text is one. -/
def RefRow.peeledId (r : RefRow) : Option Oid := r.peeled.bind PeeledText.oid

/-- A row of `reflog`, without its automatic id. -/
structure ReflogRow where
  name : String
  old : Oid
  new : Oid
  push_id : PushId
  principal : String
  at_ : ℤ
deriving DecidableEq, Repr

/-- `pushes.state`. -/
inductive PushState where
  | «open» | committed | rejected | dead | expired
deriving DecidableEq, Repr

/-- The text of `pushes.state`. -/
def PushState.text : PushState → String
  | .open => "open"
  | .committed => "committed"
  | .rejected => "rejected"
  | .dead => "dead"
  | .expired => "expired"

/-- A command's verdict, with the ref that it names: `none` when the command landed. -/
abbrev RefResult := String × Option String

/-- A row of `rate`: the pushes of a credential in a window of a minute. -/
structure RateRow where
  bucket : String
  window : ℤ
  count : ℤ
deriving DecidableEq, Repr

/-- A row of `pushes`. -/
structure PushRow where
  id : PushId
  state : PushState
  pack_id : Option PackId
  principal : String
  began_at : ℤ
  ended_at : Option ℤ
  gc_epoch : ℤ
  result : Option (List RefResult)
  swept_at : Option ℤ
  scope : Option String
  auth : Option String
deriving DecidableEq, Repr

/-- `packs.state`. -/
inductive PackState where
  | ingesting | live | dead
deriving DecidableEq, Repr

/-- A row of `packs`. -/
structure PackRow where
  id : PackId
  state : PackState
  count : ℕ
  bytes : ℕ
  push_id : Option PushId
  created_at : ℤ
  dead_at : Option ℤ
deriving DecidableEq, Repr

/-- A row of `objects`: the entry number, the place and the type of an object in a pack. -/
structure ObjRow where
  sha : Oid
  pack_id : PackId
  idx : ℕ
  offset : ℕ
  len : ℕ
  kind : Kind
  size : ℕ
deriving DecidableEq, Repr

/-- `tokens.level`. -/
inductive Level where
  | read | write
deriving DecidableEq, Repr

/-- A row of `tokens`. -/
structure TokenRow where
  id : ℕ
  hash : String
  level : Level
  scope : Option String
  expires_at : Option ℤ
deriving DecidableEq, Repr

/-- A row of `pins`. -/
structure PinRow where
  name : String
  sha : Oid
deriving DecidableEq, Repr

/-- A row of `commit_parents`: `n = -1` says that the commit is recorded, `n ≥ 0` is a parent. -/
structure ParentRow where
  sha : Oid
  n : ℤ
  parent : Option Oid
deriving DecidableEq, Repr

/-- A ref command of a push, as `commit_push` parses it. -/
structure Cmd where
  old : Oid
  new : Oid
  name : String
  peeled : Option PeeledText
deriving DecidableEq, Repr

/-- The kinds of jobs. -/
inductive JobKind where
  | janitor | gcMark | gcConsolidate | gcSweep | gcCompact | purgeRepo | importPack | pushEvent
deriving DecidableEq, Repr

/-- `jobs.state`. -/
inductive JobState where
  | queued | running | dead
deriving DecidableEq, Repr

/-- A row of `marked`: the mark bits of a cohort pack, by entry number, and the bits that the build
copied. -/
structure MarkedRow where
  pack_id : PackId
  bitmap : List Bool
  built : Option (List Bool)
deriving DecidableEq, Repr

/-- A row of `gc_frontier`: generation `0` for the roots of the snapshot, `1` for the barrier's. -/
structure FrontierRow where
  sha : Oid
  gen : ℕ
deriving DecidableEq, Repr

/-- A row of `gc_pending`: a pack promoted during a barrier chain, and the last entry paged. -/
structure PendingRow where
  seq : ℕ
  pack_id : PackId
  cursor : ℤ
deriving DecidableEq, Repr

/-- A command in the body of a push event. -/
structure EventRef where
  ref : String
  old : Oid
  new : Oid
deriving DecidableEq, Repr

/-- The body of a push event. -/
structure EventBody where
  push_id : PushId
  principal : String
  at_ : ℤ
  refs : List EventRef
deriving DecidableEq, Repr

/-- A row of `push_events`, which its `seq` numbers. -/
structure EventRow where
  body : EventBody
  attempts : ℕ
  last_error : Option String
deriving DecidableEq, Repr

/-- `gc.mode`; the key is absent on a garbage collection chain. -/
inductive GcMode where
  | compact
deriving DecidableEq, Repr

/-- `gc.phase`; the key is absent while the chain marks. -/
inductive GcPhase where
  | build | sweep
deriving DecidableEq, Repr

/-- What a checkpoint of the pack writer records of the durable prefix: its length, the bytes that
its hasher has taken, and the counters. -/
structure WriterCkpt where
  pos : ℕ
  sha : List UInt8
  count : ℕ
  expected : ℕ
  commit_lo : ℕ
  commit_hi : ℕ
deriving DecidableEq, Repr

/-- The payload of an import job. -/
structure ImportPayload where
  push : PushId
  pack : PackId
  principal : String
  commands : List Cmd
  url : Option String
  head : Option String
deriving DecidableEq, Repr

/-- The phases of an import; `toc` is the source's empty string. -/
inductive ImportPhase where
  | fetch | toc | resolve | check | commit
deriving DecidableEq, Repr

/-- The cursor of an import job. -/
structure ImportCursor where
  phase : ImportPhase
  parse_pos : ℕ
  next_idx : ℕ
  count : ℕ
  /-- Entries that wait for the object they are a delta against. -/
  parked : List (ℕ × Oid)
  upload : Option ℕ
  st : Option WriterCkpt
  check_after : Option Oid
  check_epoch : Option ℤ
  recheck : Bool
  scan_after : ℤ
  tail : ℕ
deriving DecidableEq, Repr

/-- `jobs.payload`: empty, the chain of a garbage collection job, or an import. -/
inductive Payload where
  | none
  | chain (c : ChainId)
  | «import» (p : ImportPayload)
deriving DecidableEq, Repr

/-- A row of `jobs`. -/
structure Job where
  id : ℕ
  kind : JobKind
  run_at : ℤ
  attempts : ℕ
  cursor : Option ImportCursor
  payload : Payload
  state : JobState
  last_error : Option String
  started_at : Option ℤ
  lease : Option Lease
  strands : ℕ
deriving DecidableEq, Repr

/-- The kinds of entries in `import_toc`: a full object, or a delta against an earlier entry or
against an object. -/
inductive EntryKind where
  | full (k : Kind)
  | ofsDelta (distance : ℕ)
  | refDelta (base : Oid)
deriving DecidableEq, Repr

/-- A row of `import_toc`. -/
structure TocRow where
  push_id : PushId
  idx : ℕ
  offset : ℕ
  hlen : ℕ
  kind : EntryKind
  clen : ℕ
  size : ℕ
deriving DecidableEq, Repr

/-- A row of `import_open`: where an entry's write started and, once its object row was posted,
where it ended, with the columns of that row. -/
structure OpenRow where
  push_id : PushId
  idx : ℕ
  off : ℕ
  end_ : Option ℕ
  sha : Option Oid
  kind : Option Kind
  size : Option ℕ
deriving DecidableEq, Repr

/-- A row of `import_parts`: an uploaded part of the import's output pack. -/
structure ImportPartRow where
  push_id : PushId
  part_no : ℕ
  etag : ℕ
deriving DecidableEq, Repr

/-- A row of `import_tail`: a chunk of the writer's buffer, saved at a yield. -/
structure ImportTailRow where
  push_id : PushId
  seq : ℕ
  blob : List UInt8
deriving DecidableEq, Repr

/-- A row of `gc_parts`: an uploaded part of the chain's new pack. -/
structure GcPartRow where
  part_no : ℕ
  etag : ℕ
deriving DecidableEq, Repr

/-- A row of `gc_tail`: a chunk of the writer's buffer, saved at a yield. -/
structure GcTailRow where
  seq : ℕ
  blob : List UInt8
deriving DecidableEq, Repr

/-! ## The bucket -/

/-- A multipart upload: the pack whose object it makes, and the parts that it holds, with the etag
that each got. -/
structure Upload where
  id : ℕ
  pack : PackId
  parts : List (ℕ × ℕ × List UInt8)
deriving DecidableEq, Repr

/-- The pack objects in the bucket, and the uploads that are open. -/
structure R2 where
  objects : Table (PackId × List UInt8) Prod.fst
  uploads : Table Upload Upload.id

/-! ## Settings -/

/-- What the process is given: the settings of the deployment, and the check of a full ref name of
the library that the source calls (`gix_validate::reference::name`). -/
structure Env where
  quota_max_objects : ℤ
  quota_max_bytes : ℤ
  gc_quiet_ms : ℤ
  gc_grace_ms : ℤ
  /-- Whether a webhook for push events is configured. -/
  webhook : Bool
  max_live_packs : ℤ
  compact_fanin : ℤ
  compact_min_age_ms : ℤ
  compact_max_rows : ℤ
  valid_name : String → Bool

/-- The compiled-in settings, with a check of ref names. -/
def Env.default (valid_name : String → Bool) : Env where
  quota_max_objects := 2000000
  quota_max_bytes := 4 * 2^30
  gc_quiet_ms := 600000
  gc_grace_ms := 3600000
  webhook := false
  max_live_packs := 1000
  compact_fanin := 16
  compact_min_age_ms := 60000
  compact_max_rows := 100000
  valid_name := valid_name

/-! ## The database -/

/-- `gc.pos`: where the copy into the new pack stands. -/
structure GcPos where
  /-- The place of the cohort pack in the order of the ids, and the next entry of it to copy, or the
  entry that is being copied when `frag` is positive. -/
  ci : ℕ
  idx : ℕ
  pack : PackId
  upload : Option ℕ
  st : Option WriterCkpt
  /-- The bytes of the entry at the cursor that are already written. -/
  frag : ℕ
  total : ℕ
  lo : ℕ
  hi : ℕ
  /-- The length of the writer's buffer, as it was saved in `gc_tail`. -/
  tail : ℕ
  /-- The entry at the end of the durable bytes, to go back to when the saved buffer is lost. -/
  bci : ℕ
  bidx : ℕ
  bfrag : ℕ
  /-- The entries that ended within the buffer that was just loaded; it is not stored. -/
  ord0 : ℕ
deriving DecidableEq, Repr

/-- `gc.swap`: the version of the refs at the last check of the swap, and the counts of checks that
saw it move and of slices that yielded. -/
structure SwapMeta where
  rv : ℤ
  tries : ℕ
  slices : ℕ
deriving DecidableEq, Repr

/-- `gc.retire`: the packs that a retirement takes, recorded before its first destructive
statement. -/
structure RetireIntent where
  ids : List PackId
  lossy : Bool
  fallback : Bool
deriving DecidableEq, Repr

/-- `gc_last_swap`. -/
structure LastSwap where
  retired : ℕ
  kept : ℕ
  retired_bytes : ℕ
  kept_bytes : ℕ
  lossy : Bool
  fallback : Bool
  tries : ℕ
  slices : ℕ
deriving DecidableEq, Repr

/-- The `gc.*` rows of `meta`. -/
structure GcMeta where
  chain : Option ChainId
  started_at : Option ℤ
  barrier : Option ℕ
  mode : Option GcMode
  phase : Option GcPhase
  refs_version : Option ℤ
  pos : Option GcPos
  new_pack : Option PackId
  fails : Option ℕ
  swap : Option SwapMeta
  retire : Option RetireIntent
  delta_rounds : Option ℕ
deriving DecidableEq, Repr

/-- No `gc.*` row. -/
def GcMeta.none : GcMeta :=
  ⟨.none, .none, .none, .none, .none, .none, .none, .none, .none, .none, .none, .none⟩

/-- The state of a repository: its database, with the tables of `schema::DDL`, and the part of the
bucket that holds its packs. -/
structure Db where
  head : String
  refs_version : ℤ
  gc_epoch : ℤ
  gc : GcMeta
  refs : Table RefRow RefRow.name
  reflog : List ReflogRow
  pushes : Table PushRow PushRow.id
  packs : Table PackRow PackRow.id
  objects : Table ObjRow fun o => (o.sha, o.pack_id)
  jobs : Table Job Job.id
  /-- The last automatic job id. -/
  job_seq : ℕ
  marked : Table MarkedRow MarkedRow.pack_id
  gc_frontier : Table FrontierRow FrontierRow.sha
  gc_seen : Table Oid id
  gc_parts : Table GcPartRow GcPartRow.part_no
  gc_tail : Table GcTailRow GcTailRow.seq
  gc_pending : Table PendingRow PendingRow.pack_id
  /-- The last automatic `gc_pending.seq`. -/
  pending_seq : ℕ
  tokens : Table TokenRow TokenRow.id
  pins : Table PinRow PinRow.name
  «protected» : List String
  commit_parents : Table ParentRow fun r => (r.sha, r.n)
  push_links : Table (PushId × Oid) id
  push_events : Numbered EventRow
  push_events_dropped : ℕ
  rate : Table RateRow fun r => (r.bucket, r.window)
  /-- `meta.obj_format`. -/
  obj_format : Option ObjFormat
  /-- `compact.quarantine`: the strikes of each pack. -/
  quarantine : List (PackId × ℕ)
  import_toc : Table TocRow fun r => (r.push_id, r.idx)
  import_open : Table OpenRow fun r => (r.push_id, r.idx)
  import_parts : Table ImportPartRow fun r => (r.push_id, r.part_no)
  import_tail : Table ImportTailRow fun r => (r.push_id, r.seq)
  gc_last_swap : Option LastSwap
  gc_fallbacks : ℕ
  /-- `resurrected.*`: how often `repair` restarted a dead job of the kind. -/
  resurrected : Table (JobKind × ℕ) Prod.fst
  /-- `dead.*`: the last error of a dead job of the kind. -/
  dead_errors : Table (JobKind × String) Prod.fst
  r2 : R2

/-- The rows that `boot` gives a new repository. -/
def Db.fresh : Db where
  head := "refs/heads/main"
  refs_version := 0
  gc_epoch := 0
  gc := .none
  refs := .empty
  reflog := []
  pushes := .empty
  packs := .empty
  objects := .empty
  jobs := .empty
  job_seq := 0
  marked := .empty
  gc_frontier := .empty
  gc_seen := .empty
  gc_parts := .empty
  gc_tail := .empty
  gc_pending := .empty
  pending_seq := 0
  tokens := .empty
  pins := .empty
  «protected» := []
  commit_parents := .empty
  push_links := .empty
  push_events := .empty
  push_events_dropped := 0
  rate := .empty
  obj_format := none
  quarantine := []
  import_toc := .empty
  import_open := .empty
  import_parts := .empty
  import_tail := .empty
  gc_last_swap := none
  gc_fallbacks := 0
  resurrected := .empty
  dead_errors := .empty
  r2 := ⟨.empty, .empty⟩

end GitEdge
