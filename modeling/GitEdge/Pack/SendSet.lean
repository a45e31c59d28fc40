import GitEdge.Lib.Bits
import GitEdge.Store.Io
import GitEdge.Repo.Index

/-!
# The objects of a fetch

`send_set` of `pack/generate.rs`: which objects the answer to a fetch carries. Four loops cooperate:
the tags among the wants are peeled, the commits are walked down to what the client has, the trees
are expanded against the trees that the client has, and the marked entries are planned as reads. The
walk reads objects from the bucket between its steps; what it read need not be kept in the model,
since the content is a function of the id.
-/

namespace GitEdge

open Sql

/-- `MAX_COMMITS`. -/
def maxCommits : ℕ := 200000

/-- `MAX_OBJECTS`. -/
def maxObjects : ℕ := 1000000

/-- `CHUNK`. -/
def walkChunk : ℕ := 10000

/-- `INFINITE`. -/
def infiniteDepth : ℕ := 0x7fffffff

/-- `TOO_BIG`. -/
def tooBig : String := "fetch too large for this server; clone instead"

/-- `Filter`. -/
inductive Filter where
  | blobNone
  | blobLimit (n : ℕ)
deriving DecidableEq

/-- The arguments of a fetch. -/
structure FetchArgs where
  wants : List Oid
  haves : List Oid
  filter : Option Filter
  deepen : Option ℕ
  deepen_since : Option ℤ
  deepen_not : List Oid
  deepen_relative : Bool
  include_tag : Bool
  client_shallow : List Oid

/-- Shallow mode: any of `deepen`, `deepen-since` and `deepen-not`. -/
def FetchArgs.shallowMode (a : FetchArgs) : Bool :=
  a.deepen.isSome || a.deepen_since.isSome || !a.deepen_not.isEmpty

/-! ## The set -/

/-- The marked entries of one pack. -/
structure PackSlice where
  pack : PackId
  count : ℕ
  bytes : ℕ
  bitmap : List Bool
deriving DecidableEq, Repr

/-- A planned read: a range of the pack at this place in the list, and the entries to copy. -/
structure ReadSpan where
  pack : ℕ
  off : ℕ
  len : ℕ
  ents : List (ℕ × ℕ)
deriving DecidableEq, Repr

/-- `SendSet`. -/
structure SendSet where
  packs : List PackSlice
  reads : List ReadSpan
  shallow : List Oid
  unshallow : List Oid
  /-- The ids marked, in order, on the walk. -/
  shas : Option (List Oid)
  /-- A mark fell on a pack that is no longer live. -/
  stale : Bool
deriving DecidableEq, Repr

/-- `Index::pack_meta`. -/
def Db.packMeta (db : Db) (p : PackId) : Option (ℕ × ℕ) :=
  (db.packs.find p).bind fun r => if r.state = .live then some (r.count, r.bytes) else none

/-- `set_bit`. -/
def setBit (packs : List PackSlice) (i : ℕ) (loc : ObjRow) : Except Error (List PackSlice) :=
  match packs[i]? with
  | none => .error (.storage "idx past pack count")
  | some p =>
    match Bits.set? p.bitmap loc.idx with
    | none => .error (.storage "idx past pack count")
    | some b => .ok (packs.set i { p with bitmap := b })

/-- A mark on the slices: the slice of the pack is made on the first one. -/
def markSlice (db : Db) (packs : List PackSlice) (loc : ObjRow) :
    Except Error (Option (List PackSlice)) :=
  match packs.findIdx? fun p => p.pack = loc.pack_id with
  | some i => (setBit packs i loc).map some
  | none =>
    match db.packMeta loc.pack_id with
    | none => .ok none
    | some (count, bytes) =>
      (setBit (packs ++ [⟨loc.pack_id, count, bytes, Bits.zero count⟩]) packs.length loc).map some

/-- `SendSet::mark`. On the walk, a mark on a pack that is not live makes the set stale. -/
def SendSet.mark (db : Db) (set : SendSet) (id : Oid) (loc : ObjRow) : Except Error SendSet :=
  let set := { set with shas := set.shas.map (· ++ [id]) }
  match markSlice db set.packs loc with
  | .error e => .error e
  | .ok (some packs) => .ok { set with packs := packs }
  | .ok none =>
    if set.shas.isSome then .ok { set with stale := true }
    else .error (.storage s!"pack {loc.pack_id} not live")

/-- A mark for each of the ids with its row. -/
def SendSet.markAll (db : Db) (set : SendSet) (ids : List (Oid × ObjRow)) : Except Error SendSet :=
  ids.foldlM (fun set p => set.mark db p.1 p.2) set

/-! ## Reading objects -/

/-- The rows of ids that are all live. -/
def liveRows (pick : Pick) (db : Db) : List Oid → Except Error (List (Oid × ObjRow))
  | [] => .ok []
  | id :: ids =>
    match pick.row db id with
    | none => .error (.internal s!"reachable {id} is not live")
    | some r => (liveRows pick db ids).map ((id, r) :: ·)

/-- `load` and `load_commits`: the rows of the ids, whose objects are read. -/
def load (pick : Pick) (ids : List Oid) : Proc (List (Oid × ObjRow)) := do
  let db ← (Span.read : Span Db Error Db)
  match liveRows pick db ids with
  | .error e => Process.fail e
  | .ok rows => do
    if !ids.isEmpty then
      let _ ← request
    pure rows

/-- An error of the walk, or its value. -/
def ofResult {α : Type} : Except Error α → Proc α := Process.ofExcept

/-! ## Wants and tags -/

/-- What the first two loops collect. -/
structure WantWalk where
  set : SendSet
  seen : List Oid
  commits : List Oid
  trees : List Oid
  tags : List Oid
  sent : List Oid

/-- The empty set of a walk. -/
def SendSet.walk : SendSet := ⟨[], [], [], [], some [], false⟩

/-- One want: it is marked, and goes to the loop for its kind. -/
def takeWant (pick : Pick) (db : Db) (w : WantWalk) (id : Oid) : Except Error WantWalk := do
  match pick.row db id with
  | none => .error (.protocol s!"upload-pack: not our ref {id}")
  | some loc =>
    let set ← w.set.mark db id loc
    let w := { w with set := set, seen := w.seen.insert id }
    match loc.kind with
    | .commit => pure { w with commits := w.commits ++ [id], sent := w.sent.insert id }
    | .tree => pure { w with trees := w.trees ++ [id] }
    | .tag => pure { w with tags := w.tags ++ [id] }
    | .blob => pure w

/-- One tag, peeled by one level. A target that is a blob is marked; a target of another kind goes
to its loop, and one that is a tag is not marked. -/
def peelTag (objs : Objects) (pick : Pick) (db : Db) (w : WantWalk) (t : Oid) :
    Except Error WantWalk := do
  match objs.tag t with
  | none => .error (.storage "tag")
  | some ⟨.commit, x⟩ => pure { w with commits := w.commits ++ [x] }
  | some ⟨.tree, x⟩ => pure { w with trees := w.trees ++ [x] }
  | some ⟨.tag, x⟩ => pure { w with tags := w.tags ++ [x] }
  | some ⟨.blob, x⟩ =>
    match pick.row db x with
    | none => pure w
    | some loc => do
      let set ← w.set.mark db x loc
      pure { w with set := set, seen := w.seen.insert x }

/-- The loop that peels the tags, one round for each level. Each round reads at least one object, so
the subrequests left bound the rounds. -/
def peelTags (objs : Objects) (pick : Pick) : ℕ → WantWalk → Proc WantWalk
  | 0, w => if w.tags.isEmpty then pure w else Process.fail .budget
  | n + 1, w =>
    if w.tags.isEmpty then pure w
    else do
      let _ ← load pick w.tags
      let db ← (Span.read : Span Db Error Db)
      let w ← ofResult (w.tags.foldlM (peelTag objs pick db) { w with tags := [] })
      peelTags objs pick n w

/-! ## The excluded side -/

/-- Ids in order, each once. -/
def sortDedup (l : List Oid) : List Oid := (l.insertionSort (· ≤ ·)).dedup

/-- The parents of a commit as the walk of `deepen-not` takes them; other kinds have none. -/
def notParents (objs : Objects) (nots : List Oid) (p : Oid × ObjRow) : List Oid :=
  if p.2.kind ≠ .commit then []
  else (objs.commit p.1).elim [] fun c => c.parents.filter fun x => x ∉ nots

/-- The commits that `deepen-not` excludes: every one that its tips reach. -/
def excluded (objs : Objects) (pick : Pick) : ℕ → List Oid → List Oid → Proc (List Oid)
  | 0, nots, _ => pure nots
  | n + 1, nots, frontier => do
    let frontier := (sortDedup frontier).filter fun c => c ∉ nots
    if frontier.isEmpty then pure nots
    else if maxCommits < nots.length + frontier.length then Process.fail (.limit tooBig)
    else do
      let db ← (Span.read : Span Db Error Db)
      let frontier := frontier.filter fun c => (pick.row db c).isSome
      if frontier.isEmpty then pure nots
      else do
        let rows ← load pick frontier
        excluded objs pick n (frontier ++ nots) (rows.flatMap (notParents objs (frontier ++ nots)))

/-! ## Commits -/

/-- An entry of the queue: a commit, its depth, and whether the depth counts. -/
structure QueueItem where
  id : Oid
  depth : ℕ
  counted : Bool
deriving DecidableEq

/-- The order of the queue: by id, counted visits first, then by depth. -/
def QueueItem.le (a b : QueueItem) : Bool :=
  a.id < b.id || (a.id = b.id && ((a.counted && !b.counted) ||
    (a.counted = b.counted && a.depth ≤ b.depth)))

/-- The first entry of each id. -/
def firstOfEach : List QueueItem → List QueueItem
  | [] => []
  | q :: qs => q :: (firstOfEach qs).filter fun p => p.id ≠ q.id

/-- What the walk over the commits collects. -/
structure CommitWalk where
  set : SendSet
  sent : List Oid
  /-- The commits visited, with their depths. -/
  depth : List (Oid × ℕ)
  parents_of : List (Oid × List Oid)
  visited_cs : List Oid
  bases : List Oid
  trees : List Oid
  edge : List Oid
  next : List QueueItem

/-- One commit of the walk. `acks` are the haves that the server holds, `nots` the excluded side. -/
def visitCommit (objs : Objects) (db : Db) (a : FetchArgs) (acks nots : List Oid) (w : CommitWalk)
    (q : QueueItem) (loc : ObjRow) : Except Error CommitWalk := do
  match objs.commit q.id with
  | none => .error (.storage "commit")
  | some c =>
    let cap := a.deepen
    let w := { w with
      depth := (q.id, q.depth) :: w.depth
      parents_of := if a.shallowMode then (q.id, c.parents) :: w.parents_of else w.parents_of }
    let is_ack := q.id ∈ acks
    let is_cs := q.id ∈ a.client_shallow
    let is_not := q.id ∈ nots
    let since_boundary := a.deepen_since.any fun since => c.time.any fun t => t < since
    let depth_boundary :=
      q.counted && (cap.any fun n => n ≠ infiniteDepth && n ≤ q.depth)
    let descend_past_cs := is_cs && a.shallowMode &&
      (a.deepen_relative || cap = some infiniteDepth || cap.all fun n => q.depth < n)
    if descend_past_cs then
      -- Below a client-shallow commit a relative depth starts again.
      let nd := if a.deepen_relative || cap = some infiniteDepth then 1 else q.depth + 1
      pure { w with
        visited_cs := w.visited_cs.insert q.id
        bases := w.bases ++ [c.tree]
        next := w.next ++ c.parents.map fun p => ⟨p, nd, true⟩ }
    else do
      let w ←
        if is_ack || is_cs then pure { w with bases := w.bases ++ [c.tree] }
        else if !is_not && !since_boundary then do
          let set ← w.set.mark db q.id loc
          pure { w with set := set, sent := w.sent.insert q.id }
        else pure w
      let w := if q.id ∈ w.sent then { w with trees := w.trees ++ [c.tree] } else w
      if is_not || since_boundary || depth_boundary || is_cs || (is_ack && !a.shallowMode) then
        pure w
      else
        let (walk, walls) := c.parents.partition fun p => a.shallowMode || p ∉ acks
        pure { w with
          next := w.next ++ walk.map fun p => ⟨p, q.depth + 1, q.counted⟩
          edge := w.edge ++ walls }

/-- The rounds of the walk over the commits: each visits the commits of the queue that no round has
visited, so a bound on the visited commits bounds the rounds. -/
def walkCommits (objs : Objects) (pick : Pick) (a : FetchArgs) (acks nots : List Oid) :
    ℕ → CommitWalk → Proc CommitWalk
  | 0, _ => Process.fail (.limit tooBig)
  | n + 1, w =>
    if w.next.isEmpty then pure w
    else do
      let queue := (firstOfEach (w.next.insertionSort (QueueItem.le · ·))).filter fun q =>
        q.id ∉ w.depth.map (·.1)
      if maxCommits < w.depth.length + queue.length then Process.fail (.limit tooBig)
      else do
        let rows ← load pick (queue.map (·.id))
        let db ← (Span.read : Span Db Error Db)
        let w ← ofResult ((queue.zip rows).foldlM
          (fun w p => visitCommit objs db a acks nots w p.1 p.2.2) { w with next := [] })
        walkCommits objs pick a acks nots n w

/-- The end of the walk in a shallow mode: the client-shallow commits that become interior, and the
new bottom edge. -/
def boundaries (a : FetchArgs) (acks : List Oid) (w : CommitWalk) : SendSet :=
  let held := fun p => p ∈ w.sent || p ∈ acks || p ∈ a.client_shallow
  if a.shallowMode then
    { w.set with
      unshallow := w.visited_cs.filter fun c => (w.parents_of.lookup c).any fun ps => ps.all held
      shallow := w.sent.filter fun c =>
        c ∉ acks && c ∉ a.client_shallow &&
          (w.parents_of.lookup c).any fun ps => ps.any fun p => !held p }
  else w.set

/-! ## Trees -/

/-- What the expansion of the trees collects. -/
structure TreeWalk where
  set : SendSet
  seen : List Oid
  /-- The trees of the next round, each with the client's trees at its place. -/
  next : List (Oid × List Oid)
  blobs : List Oid

/-- The entries of the client's trees. -/
def baseEntries (objs : Objects) (bases : List Oid) : Except Error (List TreeEntry) := do
  let l ← bases.mapM fun b => (objs.tree b).elim (.error (.storage "tree")) .ok
  pure l.flatten

/-- The client's tree under a name: the last one that was inserted. -/
def byName (had : List TreeEntry) (name : String) : List Oid :=
  ((had.filter fun e => e.mode = .tree && e.filename = name).getLast?.map (·.oid)).toList

/-- One entry of a tree that is expanded: a gitlink is skipped, and so is what the client has or
what was seen before. -/
def expandEntry (had : List TreeEntry) (filter : Option Filter) (w : TreeWalk) (e : TreeEntry) :
    Except Error TreeWalk :=
  if e.mode = .commit || e.oid ∈ had.map (·.oid) || e.oid ∈ w.seen then .ok w
  else
    let w := { w with seen := e.oid :: w.seen }
    if maxObjects < w.seen.length then .error (.limit tooBig)
    else if e.mode = .tree then
      .ok { w with next := w.next ++ [(e.oid, byName had e.filename)] }
    else if filter = some .blobNone then .ok w
    else .ok { w with blobs := w.blobs ++ [e.oid] }

/-- `expand_tree`. -/
def expandTree (objs : Objects) (filter : Option Filter) (w : TreeWalk) (item : Oid × List Oid) :
    Except Error TreeWalk := do
  let had ← baseEntries objs item.2
  match objs.tree item.1 with
  | none => .error (.storage "tree")
  | some es => es.foldlM (expandEntry had filter) w

/-- The list in runs of `n`, as the source's `chunks`. -/
def chunks {α : Type} (n : ℕ) (l : List α) : List (List α) :=
  (List.range ((l.length + n - 1) / n)).map fun i => (l.drop (i * n)).take n

theorem flatten_chunks {α : Type} {n : ℕ} (hn : 0 < n) (l : List α) : (chunks n l).flatten = l := by
  have key : ∀ k, ((List.range k).map fun i => (l.drop (i * n)).take n).flatten = l.take
      (k * n) := by
    intro k
    induction k with
    | zero => simp
    | succ k ih =>
      rw [List.range_succ, List.map_append, List.flatten_append, ih, Nat.succ_mul, List.take_add]
      simp
  unfold chunks
  rw [key, List.take_of_length_le]
  -- The last run may be short.
  have hdiv := Nat.div_add_mod (l.length + n - 1) n
  have hmod := Nat.mod_lt (l.length + n - 1) hn
  rw [Nat.mul_comm] at hdiv
  omega

/-- The chunks of a round: its trees are read and marked, then the client's trees are read, and the
trees are expanded. -/
def treeChunks (objs : Objects) (pick : Pick) (filter : Option Filter) :
    List (List (Oid × List Oid)) → TreeWalk → Proc TreeWalk
  | [], w => pure w
  | chunk :: chunks, w => do
    let rows ← load pick (chunk.map (·.1))
    let db ← (Span.read : Span Db Error Db)
    let set ← ofResult (w.set.markAll db rows)
    let _ ← load pick (sortDedup (chunk.flatMap (·.2)))
    let w ← ofResult (chunk.foldlM (expandTree objs filter) { w with set := set })
    treeChunks objs pick filter chunks w

/-- The blobs of a round: one that the filter excludes by its size is not marked. -/
def markBlobs (pick : Pick) (db : Db) (filter : Option Filter) (set : SendSet) (blobs : List Oid) :
    Except Error SendSet :=
  blobs.foldlM (fun set b =>
    match pick.row db b with
    | none => .error (.internal s!"reachable blob {b} is not live")
    | some loc =>
      match filter with
      | some (.blobLimit n) => if n < loc.size then .ok set else set.mark db b loc
      | _ => set.mark db b loc) set

/-- The rounds of the expansion. The trees of every round but the first were not seen before it, so
the bound on the objects seen bounds the rounds. -/
def walkTrees (objs : Objects) (pick : Pick) (filter : Option Filter) : ℕ → TreeWalk → Proc TreeWalk
  | 0, _ => Process.fail (.limit tooBig)
  | n + 1, w =>
    if w.next.isEmpty then pure w
    else do
      let w ← treeChunks objs pick filter (chunks walkChunk w.next)
        { w with next := [], blobs := [] }
      let db ← (Span.read : Span Db Error Db)
      let set ← ofResult (markBlobs pick db filter w.set w.blobs)
      walkTrees objs pick filter n { w with set := set }

/-! ## The plan -/

/-- `GAP` and `WINDOW`. -/
def readGap : ℕ := 256 * 2^10

def readWindow : ℕ := 8 * 2^20

/-- `Index::entries_of`: the rows of the pack whose bit is set, in the order of their offsets. -/
def Db.entriesOf (db : Db) (p : PackSlice) : List ObjRow :=
  (db.objects.select fun r => r.pack_id = p.pack && Bits.get p.bitmap r.idx).insertionSort
    (fun a b => a.offset ≤ b.offset)

/-- The reads of an entry that starts a new read: whole windows, and the rest. -/
def fragments (pack : ℕ) (pos : ℕ) (len : ℕ) : List ReadSpan :=
  (List.range ((len + readWindow - 1) / readWindow)).map fun i =>
    let n := min readWindow (len - i * readWindow)
    ⟨pack, pos + i * readWindow, n, [(pos + i * readWindow, n)]⟩

/-- `coalesce`: an entry joins the last read when the gap is small and the read stays in a
window. -/
def coalesce (pack : ℕ) (gap : ℕ) (locs : List ObjRow) : List ReadSpan :=
  locs.foldl (fun out l =>
    match out.getLast? with
    | some r =>
      if l.offset - (r.off + r.len) < gap && l.offset + l.len - r.off ≤ readWindow then
        out.dropLast ++
          [{ r with len := l.offset + l.len - r.off, ents := r.ents ++ [(l.offset, l.len)] }]
      else out ++ fragments pack l.offset l.len
    | none => out ++ fragments pack l.offset l.len) []

/-- The ids of one lookup of `rebuild_with`. -/
def rebuildBatch : ℕ := 5000

/-- `rebuild_mark_loc` and `set_bit`, for one id of a lookup. -/
def rebuildMark (choice : Choice) (db : Db) (packs : List PackSlice) (id : Oid) :
    Except Error (List PackSlice) :=
  match choice.row db id with
  | none => .error (.storage "pack index changed mid-fetch")
  | some loc =>
    match markSlice db packs loc with
    | .error e => .error e
    | .ok none => .error (.storage s!"pack {loc.pack_id} not live")
    | .ok (some packs) => .ok packs

/-- `rebuild`: the slices made anew from the ids that were marked. Every run of 5000 ids is looked up
on its own, so an id that stands in two runs is looked up twice. -/
def SendSet.rebuild (pick : Pick) (db : Db) (set : SendSet) : Except Error SendSet :=
  match set.shas with
  | none => .error (.storage "pack index changed mid-fetch")
  | some shas => do
    let packs ← shas.zipIdx.foldlM
      (fun packs p => rebuildMark (pick.again (p.2 / rebuildBatch)) db packs p.1) []
    pure { set with packs := packs, stale := false }

/-- The reads of one slice. -/
def planSlice (db : Db) (i : ℕ) (p : PackSlice) : List ReadSpan :=
  let plan := coalesce i readGap (db.entriesOf p)
  if (p.bytes + readWindow - 1) / readWindow < plan.length then
    coalesce i readWindow (db.entriesOf p)
  else plan

/-- Whether the rows of every slice are those that were marked. -/
def SendSet.intact (db : Db) (set : SendSet) : Bool :=
  set.packs.all fun p => (db.entriesOf p).length = Bits.popcount p.bitmap

/-- The set as `plan_reads` takes it: one that is stale, or whose rows are gone, is rebuilt once. -/
def SendSet.settle (pick : Pick) (db : Db) (set : SendSet) : Except Error SendSet :=
  if set.stale || !set.intact db then do
    let set ← set.rebuild pick db
    if set.intact db then pure set else .error (.storage "pack index changed mid-fetch")
  else .ok set

/-- `plan_reads`. `left` is what is left of the request's budget. -/
def planReads (pick : Pick) (db : Db) (left : ℕ) (set : SendSet) : Except Error SendSet := do
  let set ← set.settle pick db
  let reads := (set.packs.zipIdx.map fun p => planSlice db p.2 p.1).flatten
  if left < reads.length then .error .budget else pure { set with reads := reads }

/-! ## `send_set` -/

/-- The tags of `refs` with the peeled ids that they stand for; a text that is no id is passed over. -/
def Db.tagPairs (db : Db) : List (Oid × Oid) :=
  db.refs.rows.filterMap fun r =>
    if "refs/tags/".toList.isPrefixOf (r.name.toList.map Char.toLower) then
      r.peeledId.map fun p => (r.target, p)
    else none

/-- `include-tag`: the tag of every commit that the client will hold rides along. -/
def rideAlong (pick : Pick) (db : Db) (a : FetchArgs) (acks sent : List Oid) (set : SendSet) :
    Except Error SendSet :=
  if a.include_tag then
    db.tagPairs.foldlM (fun set p =>
      if p.2 ∈ sent || p.2 ∈ acks || p.2 ∈ a.client_shallow then
        match pick.row db p.1 with
        | none => .ok set
        | some loc => set.mark db p.1 loc
      else .ok set) set
  else .ok set

/-- `send_set`. `left` and `plan` are what is left of the request's budget when the tags are peeled
and when the reads are planned. -/
def sendSet (objs : Objects) (pick : Pick) (a : FetchArgs) (left plan : ℕ) : Proc SendSet := do
  let db ← (Span.read : Span Db Error Db)
  let acks := a.haves.filter fun h => (pick.row db h).isSome
  let w ← ofResult (a.wants.foldlM (takeWant pick db) ⟨.walk, [], [], [], [], []⟩)
  let w ← peelTags objs pick left w
  let nots ← excluded objs pick (maxCommits + 2) [] a.deepen_not
  let db ← (Span.read : Span Db Error Db)
  let known :=
    if a.deepen = some infiniteDepth then a.client_shallow.filter fun c => (pick.row db c).isSome
    else []
  let c ← walkCommits objs pick a acks nots (maxCommits + 2)
    ⟨w.set, w.sent, [], [], [], [], w.trees, [],
      (w.commits ++ known).map fun c => ⟨c, 1, !a.deepen_relative⟩⟩
  let set := boundaries a acks c
  let edge := (sortDedup c.edge).take 64
  let _ ← load pick edge
  let edges ← ofResult (edge.mapM fun e =>
    (objs.commit e).elim (.error (.storage "commit")) fun d => .ok d.tree)
  let bases := (sortDedup (c.bases ++ edges)).take 64
  let t ← walkTrees objs pick a.filter (maxObjects + 2)
    ⟨set, w.seen, (sortDedup c.trees).map fun t => (t, bases), []⟩
  let db ← (Span.read : Span Db Error Db)
  let set ← ofResult (rideAlong pick db a acks c.sent t.set)
  ofResult (planReads pick db plan set)

end GitEdge
