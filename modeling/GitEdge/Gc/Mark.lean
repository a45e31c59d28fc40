import GitEdge.Gc.Chain
import GitEdge.Lib.Bits
import GitEdge.Repo.Index
import GitEdge.Store.Writer

/-!
# The mark

`gc_mark` and `walk_step` of `jobs/gc.rs`. The walk takes a batch from the frontier, reads the
objects of the batch, and commits their expansion: the mark bits, then `gc_seen`, then the links
that were not seen, and last the delete from the frontier. A chain with the barrier pages the packs
that were promoted meanwhile into the frontier, and its sweep goes on walking with the same step.

The reads of one chunk are one request here: the content of an object is a function of its id, and
nothing is written between two reads of a chunk. Which live row of an object a query takes, and
which rows of the frontier a query without an order takes, is a parameter.
-/

namespace GitEdge

open Sql

/-- What a slice is given: the settings, the objects and the choices of SQLite. -/
structure World where
  env : Env
  objs : Objects
  pick : Choice
  /-- The order in which SQLite scans `gc_frontier`. -/
  scan : List FrontierRow → List FrontierRow
  scan_perm : ∀ l, (scan l).Perm l
  /-- `barrier_capture`: the setting that a new chain records. -/
  barrier : Bool

/-- `ROUND`: the ids of a batch. -/
def roundIds : ℕ := 512

/-- `SPANS`: the entries of a chunk. -/
def chunkEntries : ℕ := 64

/-- `LOAD`: the bytes of a chunk. -/
def chunkBytes : ℕ := 32 * 2^20

/-- The number of links at which a chunk admits what it has. -/
def maxKids : ℕ := 50000

/-- The window of entry numbers that a pending page looks at, and the rows that it takes. -/
def pendingWindow : ℕ := 50000

/-- The most rows of a pending page. -/
def pendingRows : ℕ := 5000

/-- `mark_delta_rounds`: the rounds after which a busy chain goes on to build. -/
def deltaCap : ℕ := 8

/-- The bitmaps that a slice touched and did not write back. -/
abbrev Touched : Type := List (PackId × List Bool)

/-- `chunks`, from the chunk that is being filled and its bytes. -/
def fillChunks : List ObjRow → List ObjRow → ℕ → List (List ObjRow)
  | [], cur, _ => if cur = [] then [] else [cur]
  | l :: ls, cur, bytes =>
    if chunkEntries ≤ cur.length || chunkBytes < bytes + l.size then
      cur :: fillChunks ls [l] l.size
    else fillChunks ls (cur ++ [l]) (bytes + l.size)

/-- `chunks`. -/
def loadChunks (loads : List ObjRow) : List (List ObjRow) := fillChunks loads [] 0

/-- `extract_links`, with the errors of the decoders. -/
def Objects.extractLinks (objs : Objects) (x : Oid) : Except Error (List Oid) :=
  match objs.kind x with
  | .commit => (objs.commit x).elim (.error (.unpack "commit")) fun c => .ok (c.tree :: c.parents)
  | .tree => (objs.tree x).elim (.error (.unpack "tree"))
      fun es => .ok ((es.filter fun e => e.mode ≠ .commit).map (·.oid))
  | .blob => .ok []
  | .tag => (objs.tag x).elim (.error (.unpack "tag")) fun t => .ok [t.target]

/-! ## `commit_ids` -/

/-- One bitmap written back, merged with the stored one. -/
def flushBitmap (p : PackId × List Bool) (db : Db) : Db :=
  { db with
    marked := db.marked.updateWhere (fun m => m.pack_id = p.1)
      (fun m => { m with bitmap := Bits.or p.2 m.bitmap }) fun _ => rfl }

/-- The insert of ids into `gc_seen`. -/
def recordSeen (ids : List Oid) (db : Db) : Db :=
  { db with gc_seen := ids.foldl (fun t x => t.insertIgnore x) db.gc_seen }

/-- One id put into the frontier, unless it has been seen or is there. -/
def insertFrontier (seen : Table Oid id) (t : Table FrontierRow FrontierRow.sha) (sha : Oid) :
    Table FrontierRow FrontierRow.sha :=
  if seen.has sha then t else t.insertIgnore ⟨sha, 0⟩

/-- The insert of links into the frontier. -/
def admitKids (kids : List Oid) (gen : ℕ) (barrier : Bool) (db : Db) : Db :=
  { db with
    gc_frontier :=
      if barrier then kids.foldl (feedFrontier gen db.gc_seen) db.gc_frontier
      else kids.foldl (insertFrontier db.gc_seen) db.gc_frontier }

/-- What is fed to the frontier is there afterwards, unless it has been seen. -/
theorem has_feed (gen : ℕ) (seen : Table Oid id) (l : List Oid)
    (t : Table FrontierRow FrontierRow.sha) (x : Oid) : (l.foldl (feedFrontier gen seen) t).has x =
      (t.has x || (decide (x ∈ l) && !seen.has x)) := by
  induction l generalizing t with
  | nil => simp
  | cons a l ih =>
    rw [List.foldl_cons, ih, feedFrontier]
    by_cases hseen : seen.has a = true
    · rw [if_pos hseen]
      by_cases hxa : x = a
      · subst hxa
        simp [hseen]
      · simp [hxa]
    · rw [if_neg hseen, Table.has_upsert]
      by_cases hxa : x = a
      · subst hxa
        simp [hseen]
      · simp [hxa, Ne.symm hxa]

theorem has_insertFrontier (seen : Table Oid id) (l : List Oid)
    (t : Table FrontierRow FrontierRow.sha) (x : Oid) :
    (l.foldl (insertFrontier seen) t).has x = (t.has x || (decide (x ∈ l) && !seen.has x)) := by
  induction l generalizing t with
  | nil => simp
  | cons a l ih =>
    rw [List.foldl_cons, ih, insertFrontier]
    by_cases hseen : seen.has a = true
    · rw [if_pos hseen]
      by_cases hxa : x = a
      · subst hxa
        simp [hseen]
      · simp [hxa]
    · rw [if_neg hseen, Table.has_insertIgnore]
      by_cases hxa : x = a
      · subst hxa
        simp [hseen]
      · simp [hxa, Ne.symm hxa]

/-- The frontier after links were admitted, with the barrier or without it. -/
theorem has_admitKids (kids : List Oid) (gen : ℕ) (barrier : Bool) (db : Db) (x : Oid) :
    (admitKids kids gen barrier db).gc_frontier.has x =
      (db.gc_frontier.has x || (decide (x ∈ kids) && !db.gc_seen.has x)) := by
  unfold admitKids
  cases barrier
  · exact has_insertFrontier db.gc_seen kids db.gc_frontier x
  · exact has_feed gen db.gc_seen kids db.gc_frontier x

/-- The delete of ids from the frontier. -/
def dropFrontier (ids : List Oid) (db : Db) : Db :=
  { db with gc_frontier := db.gc_frontier.deleteWhere fun f => f.sha ∈ ids }

/-- Whether the object has a row in a live pack, as a query sees it. -/
def Db.isLive (db : Db) (x : Oid) : Bool :=
  db.objects.rows.any fun o => o.sha = x && db.packLive o.pack_id

/-- The delete of misses from the frontier, while they have no live row. -/
def dropMisses (misses : List Oid) (db : Db) : Db :=
  { db with gc_frontier := db.gc_frontier.deleteWhere fun f => f.sha ∈ misses && !db.isLive f.sha }

/-- `commit_ids`. -/
def commitIds (ids misses kids : List Oid) (bits : Touched) (gen : ℕ) (barrier : Bool) :
    Span Db Error Unit := do
  Span.each (fun p => Span.exec (flushBitmap p)) bits
  Span.exec (recordSeen ids)
  Span.exec (admitKids kids gen barrier)
  Span.exec (dropFrontier ids)
  if barrier && misses ≠ [] then Span.exec (dropMisses misses) else pure ()

/-! ## Pending packs -/

/-- `delta_round`. -/
def deltaRound (db : Db) : Db :=
  putGc (fun g => { g with delta_rounds := some (g.delta_rounds.getD 0 + 1) }) db

/-- The delete of the pending packs that are not live. -/
def dropDeadPending (db : Db) : Db :=
  { db with gc_pending := db.gc_pending.deleteWhere fun p => !db.packLive p.pack_id }

/-- The first pending pack by `seq`. -/
def Db.firstPending (db : Db) : Option PendingRow :=
  (db.gc_pending.rows.insertionSort fun a b => a.seq ≤ b.seq).head?

/-- The last entry number of a pack. -/
def Db.maxIdx (db : Db) (pack : PackId) : ℤ :=
  (db.objects.select fun o => o.pack_id = pack).foldl (fun m o => max m (o.idx : ℤ)) (-1)

/-- The end of a window: a saturating sum. -/
def pageEnd (window cursor : ℤ) : ℤ := min (cursor + window) (2^63 - 1)

/-- The page of a pending pack: at most so many of its objects other than blobs up to the end of the
window. -/
def Db.pageTo (db : Db) (row : PendingRow) (hi : ℤ) (rows : ℕ) : List ObjRow :=
  ((db.objects.select fun o => o.pack_id = row.pack_id && row.cursor < o.idx && o.idx ≤ hi &&
      o.kind ≠ .blob).insertionSort fun a b => a.idx ≤ b.idx).take rows

/-- The new cursor: a full page is resumed at its last entry. -/
def pageCursor (page : List ObjRow) (hi : ℤ) (rows : ℕ) : ℤ :=
  if rows ≤ page.length then page.getLast?.elim hi fun o => o.idx else hi

/-- The statement that moves the cursor. -/
def moveCursor (row : PendingRow) (cursor : ℤ) (db : Db) : Db :=
  { db with
    gc_pending := db.gc_pending.updateWhere (fun p => p.seq = row.seq)
      (fun p => { p with cursor := cursor }) fun _ => rfl }

/-- The delete of a pack that is done. -/
def dropDone (row : PendingRow) (db : Db) : Db :=
  { db with gc_pending := db.gc_pending.deleteWhere fun p => p.seq = row.seq }

/-- The span of a page: the frontier, then the cursor, and last the delete of a pack that is
done. -/
def pageSpan (hi : ℤ) (rows : ℕ) (row : PendingRow) : Span Db Error Unit := do
  let db ← Span.read
  let page := db.pageTo row hi rows
  Span.exec (admitKids (page.map (·.sha)) 1 true)
  Span.exec (moveCursor row (pageCursor page hi rows))
  if !(decide (rows ≤ page.length)) && db.maxIdx row.pack_id ≤ pageCursor page hi rows then
    Span.exec (dropDone row)
  else pure ()
  Span.exec deltaRound

/-- `pending_page`, with the window and the number of rows that the knobs of the tests set: `false`
when the fence failed. -/
def pendingPageWith (window : ℤ) (rows : ℕ) (job : GcJob) (now : ℤ) (chain : Option ChainId)
    (want : Option GcPhase) : Span Db Error Bool := do
  let db ← Span.read
  if db.gc_pending.size = 0 then pure true
  else do
    let held ← phaseFence job now chain want
    if !held then pure false
    else do
      Span.exec dropDeadPending
      let db ← Span.read
      match db.firstPending with
      | none => Span.exec deltaRound
      | some row => pageSpan (pageEnd window row.cursor) rows row
      pure true

/-- `pending_page` without the knobs. -/
def pendingPage : GcJob → ℤ → Option ChainId → Option GcPhase → Span Db Error Bool :=
  pendingPageWith pendingWindow pendingRows

/-! ## The step of the walk -/

/-- What a step of the walk did. -/
inductive WalkStep where
  | done | empty | stepped
deriving DecidableEq

/-- `SELECT MIN(gen) FROM gc_frontier`. -/
def Db.minGen (db : Db) : Option ℕ := (db.gc_frontier.rows.map (·.gen)).min?

/-- The batch that a step takes: with the barrier, from the first generation only. -/
def Db.popBatch (w : World) (db : Db) (barrier : Bool) : List FrontierRow :=
  (w.scan (if barrier then db.gc_frontier.rows.filter fun f => db.minGen = some f.gen
    else db.gc_frontier.rows)).take roundIds

/-- One live row for each id that has one, in the order of the ids. -/
def Db.liveRowsBySha (w : World) (db : Db) (batch : List Oid) : List ObjRow :=
  (batch.insertionSort (· ≤ ·)).filterMap (w.pick.row db)

/-- The bitmap of a pack as the slice has it, or as it is stored. -/
def Touched.bitmap (bits : Touched) (db : Db) (p : PackId) : List Bool :=
  (bits.lookup p).getD (((db.marked.find p).map (·.bitmap)).getD [])

/-- The touched bitmaps with one replaced. -/
def Touched.put (bits : Touched) (p : PackId) (b : List Bool) : Touched :=
  bits.filter (fun q => q.1 ≠ p) ++ [(p, b)]

/-- The loop that sets the bits of the rows within the cohort. -/
def markRows (cand : List PackId) (db : Db) : List ObjRow → Touched → Except Error Touched
  | [], bits => .ok bits
  | r :: rs, bits =>
    if r.pack_id ∈ cand then
      match Bits.set? (bits.bitmap db r.pack_id) r.idx with
      | none => .error (.internal "idx past pack count")
      | some b => markRows cand db rs (bits.put r.pack_id b)
    else markRows cand db rs bits

/-- The links of the entries of a chunk, admitted early when there are many of them; the last ones
are returned with the bitmaps that are not written back. -/
def chunkKids (objs : Objects) (gen : ℕ) (barrier : Bool) :
    List ObjRow → List Oid → Touched → Span Db Error (List Oid × Touched)
  | [], kids, bits => pure (kids, bits)
  | l :: ls, kids, bits =>
    match objs.extractLinks l.sha with
    | .error e => Span.fail e
    | .ok links =>
      if maxKids < (kids ++ links).length then do
        commitIds [] [] (kids ++ links) bits gen barrier
        chunkKids objs gen barrier ls [] []
      else chunkKids objs gen barrier ls (kids ++ links) bits

/-- The span after the reads of a chunk; `false` when the fence failed. -/
def commitChunk (w : World) (job : GcJob) (now : ℤ) (chain : Option ChainId) (want : Option GcPhase)
    (gen : ℕ) (barrier : Bool) (chunk : List ObjRow) (bits : Touched) : Span Db Error Bool := do
  let held ← phaseFence job now chain want
  if !held then pure false
  else do
    let (kids, bits) ← chunkKids w.objs gen barrier (chunk.insertionSort readsBefore) [] bits
    commitIds (chunk.map (·.sha)) [] kids bits gen barrier
    pure true

/-- The loop over the chunks; `none` when a fence failed. -/
def walkChunks (w : World) (job : GcJob) (chain : Option ChainId) (want : Option GcPhase) (gen : ℕ)
    (barrier : Bool) : List (List ObjRow) → Touched → Reply → Proc (Option (Touched × Reply))
  | [], bits, r => pure (some (bits, r))
  | chunk :: chunks, bits, _ => do
    let r ← request
    let held ← Proc.span (commitChunk w job r.now chain want gen barrier chunk bits)
    if !held then pure none
    else if r.spent then pure (some ([], r))
    else walkChunks w job chain want gen barrier chunks [] r

/-- The span after the chunks: the ids of the batch that were not read. -/
def commitRest (job : GcJob) (now : ℤ) (chain : Option ChainId) (want : Option GcPhase) (gen : ℕ)
    (barrier : Bool) (rest live : List Oid) (bits : Touched) : Span Db Error Bool := do
  let held ← phaseFence job now chain want
  if !held then pure false
  else if barrier then do
    commitIds (rest.filter (· ∈ live)) (rest.filter (· ∉ live)) [] bits gen true
    pure true
  else do
    commitIds rest [] [] bits 0 false
    pure true

/-- The span before the reads: the page, the batch and its plan. `none` when a fence failed; else
the batch with its generation, the rows of the batch, and the bitmaps. -/
def planBatch (w : World) (job : GcJob) (now : ℤ) (chain : Option ChainId) (want : Option GcPhase)
    (barrier : Bool) (cand : List PackId) (bits : Touched) :
    Span Db Error (Option (List FrontierRow × List ObjRow × Touched)) := do
  let paged ← if barrier then pendingPage job now chain want else pure true
  if !paged then pure none
  else do
    let db ← Span.read
    let batch := db.popBatch w barrier
    let counted ←
      if barrier && (batch.head?.any fun f => f.gen = 1) then do
        let held ← phaseFence job now chain want
        if held then Span.exec deltaRound
        pure held
      else pure true
    if !counted then pure none
    else do
      let db ← Span.read
      let rows := db.liveRowsBySha w (batch.map (·.sha))
      match markRows cand db rows bits with
      | .error e => Span.fail e
      | .ok bits => pure (some (batch, rows, bits))

/-- `walk_step`, with the bitmaps that it leaves. -/
def walkStep (w : World) (job : GcJob) (chain : Option ChainId) (want : Option GcPhase)
    (barrier : Bool) (cand : List PackId) (bits : Touched) (r : Reply) :
    Proc (WalkStep × Touched × Reply) := do
  match ← Proc.span (planBatch w job r.now chain want barrier cand bits) with
  | none => pure (.done, [], r)
  | some ([], _, bits) => pure (.empty, bits, r)
  | some (f :: batch, rows, bits) => do
    let gen := if barrier then f.gen else 0
    let loads := rows.filter fun o => o.kind ≠ .blob
    match ← walkChunks w job chain want gen barrier (loadChunks loads) bits r with
    | none => pure (.done, [], r)
    | some (bits, r) =>
      let rest := ((f :: batch).map (·.sha)).filter fun x => x ∉ loads.map (·.sha)
      if rest = [] then pure (.stepped, bits, r)
      else do
        let held ← Proc.span
          (commitRest job r.now chain want gen barrier rest (rows.map (·.sha)) bits)
        if held then pure (.stepped, [], r) else pure (.done, [], r)

/-! ## `gc_mark` -/

/-- Whether a later job of some chain is queued or runs. -/
def Db.chainBusy (db : Db) : Bool :=
  db.jobs.rows.any fun j => (j.kind = .gcConsolidate || j.kind = .gcSweep) &&
    (j.state = .queued || j.state = .running)

/-- The insert of the cohort: the live packs from before the cutoff, with no bit set. -/
def insertCohort (cutoff : ℤ) (db : Db) : Db :=
  { db with
    marked := (db.packs.select fun p => p.state = .live && p.created_at < cutoff).foldl
      (fun t p => t.insertIgnore ⟨p.id, Bits.zero p.count, none⟩) db.marked }

/-- The targets and the peeled targets of the refs, and the pins. -/
def Db.rootIds (db : Db) : List Oid :=
  db.refs.rows.map (·.target) ++ db.refs.rows.filterMap (·.peeledId) ++ db.pins.rows.map (·.sha)

/-- The insert of the roots into the frontier. -/
def seedRoots (db : Db) : Db :=
  { db with
    gc_frontier := db.rootIds.foldl (fun t x => t.insertIgnore ⟨x, 0⟩) db.gc_frontier }

/-- The objects other than blobs of the live packs outside the cohort. -/
def Db.youngIds (db : Db) : List Oid :=
  (db.objects.select fun o => db.packLive o.pack_id && o.kind ≠ .blob &&
    o.pack_id ∉ db.cohort).map (·.sha)

/-- The insert of these objects into the frontier. -/
def seedYoung (db : Db) : Db :=
  { db with
    gc_frontier := db.youngIds.foldl (fun t x => t.insertIgnore ⟨x, 0⟩) db.gc_frontier }

/-- The first slice of a chain: an outcome when there is nothing to walk. -/
def initChain (w : World) (now : ℤ) (fresh : ℕ) : Span Db Error (Option SliceOutcome) := do
  let db ← Span.read
  if db.chainBusy then pure (some (.reschedule (now + w.env.gc_quiet_ms)))
  else do
    wipeScratch
    Span.exec clearGc
    Span.exec (putGc fun g => { g with chain := some fresh })
    Span.exec fun db => putGc (fun g => { g with refs_version := some db.refs_version }) db
    Span.exec (insertCohort (now - w.env.gc_grace_ms))
    let db ← Span.read
    if db.marked.size = 0 then do
      wipeAll now
      pure (some .done)
    else do
      Span.exec seedRoots
      Span.exec seedYoung
      Span.exec (putGc fun g => { g with started_at := some now })
      if w.barrier then Span.exec (putGc fun g => { g with barrier := some 1 })
      pure none

/-- The guard for a compaction that holds the chain. -/
def compactGuard (env : Env) (now : ℤ) : Span Db Error (Option SliceOutcome) := do
  let db ← Span.read
  if !db.compacting then pure none
  else if db.orphaned then do
    orphanAbort now
    pure none
  else pure (some (.reschedule (now + env.gc_quiet_ms)))

/-- The guard for a chain that is past its mark. -/
def phaseGuard (env : Env) (now : ℤ) : Span Db Error (Option SliceOutcome) := do
  let db ← Span.read
  if db.gc.phase.isNone then pure none
  else if db.barrierActive then
    if db.orphaned then do
      orphanAbort now
      pure none
    else pure (some (.reschedule (now + env.gc_quiet_ms)))
  else if db.refsFrozenMoved then do
    let o ← abort env now
    pure (some o)
  else pure (some .done)

/-- The span at the start of a mark slice: the guards, and the start of a chain if there is none. -/
def markEntry (w : World) (now : ℤ) (fresh : ℕ) : Span Db Error (Option SliceOutcome) := do
  let db ← Span.read
  if db.legacyChain then do
    let o ← abort w.env now
    pure (some o)
  else do
    match ← compactGuard w.env now with
    | some o => pure (some o)
    | none =>
      match ← phaseGuard w.env now with
      | some o => pure (some o)
      | none =>
        let db ← Span.read
        if db.gc.started_at.isNone then initChain w now fresh else pure none

/-- The hand-off to the build: the job, then the phase. -/
def handOff (now : ℤ) : Span Db Error Unit := do
  Span.exec fun db => enqueue .gcConsolidate now db.chainPayload db
  Span.exec (putGc fun g => { g with phase := some .build })

/-- `barrier_handoff_if_ready`. -/
def barrierHandoffIfReady (job : GcJob) (now : ℤ) (chain : Option ChainId) :
    Span Db Error (Option SliceOutcome) := do
  let db ← Span.read
  if db.minGen = some 0 then pure none
  else do
    let held ← phaseFence job now chain none
    if !held then pure (some .done)
    else
      let empty := db.gc_pending.size = 0 && db.minGen.isNone
      match (if empty then .ok true
          else if deltaCap ≤ db.gc.delta_rounds.getD 0 then db.refsMoved else .ok false) with
      | .error e => Span.fail e
      | .ok false => pure none
      | .ok true => do
        handOff now
        pure (some .done)

/-- The span at the top of the mark's loop: an outcome when the slice ends here. -/
def markTop (env : Env) (job : GcJob) (now : ℤ) (chain : Option ChainId) (barrier : Bool) :
    Span Db Error (Option SliceOutcome) := do
  if barrier then barrierHandoffIfReady job now chain
  else do
    let db ← Span.read
    match db.refsMoved with
    | .error e => Span.fail e
    | .ok false => pure none
    | .ok true => do
      let held ← phaseFence job now chain none
      if !held then pure (some .done)
      else do
        let o ← abort env now
        pure (some o)

/-- The span after a step that found the frontier empty. -/
def markEmpty (job : GcJob) (now : ℤ) (chain : Option ChainId) (barrier : Bool) :
    Span Db Error (Option SliceOutcome) := do
  let held ← phaseFence job now chain none
  if !held then pure (some .done)
  else if barrier then pure none
  else do
    Span.exec fun db => { db with gc_seen := .empty }
    handOff now
    pure (some .done)

/-- The loop of `gc_mark`, with a bound on its rounds: a slice that ran over its budget fails. -/
def markLoop (w : World) (job : GcJob) (chain : Option ChainId) (barrier : Bool)
    (cand : List PackId) : ℕ → Touched → Reply → Proc SliceOutcome
  | 0, _, _ => Process.fail .budget
  | n + 1, bits, r =>
    if r.spent then pure (.continue none)
    else do
      match ← Proc.span (markTop w.env job r.now chain barrier) with
      | some o => pure o
      | none =>
        match ← walkStep w job chain none barrier cand bits r with
        | (.done, _, _) => pure .done
        | (.stepped, bits, r) => markLoop w job chain barrier cand n bits r
        | (.empty, bits, r) =>
          match ← Proc.span (markEmpty job r.now chain barrier) with
          | some o => pure o
          | none => markLoop w job chain barrier cand n bits r

/-- `gc_mark`. -/
def gcMark (w : World) (job : GcJob) (rounds : ℕ) (r : Reply) : Proc SliceOutcome := do
  match ← Proc.span (markEntry w r.now r.fresh) with
  | some o => pure o
  | none =>
    let db ← Proc.read
    markLoop w job db.gc.chain db.barrierActive db.cohort rounds [] r

end GitEdge
