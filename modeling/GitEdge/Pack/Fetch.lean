import GitEdge.Jobs.Cohort
import GitEdge.Pack.SendSet

/-!
# The answers to a fetch

`fetch_v2_inner` of `repo_do/mod.rs`. A fetch that asks for everything is a plain clone. It is
answered from the packs as they are stored: the only live pack is streamed, or the client gets a
signed link to it, and of several live packs every object is copied once, without a walk. Any other
fetch is answered with what `send_set` marks. The check of the object format comes before, and the
bytes of the protocol are not modelled.
-/

namespace GitEdge

open Sql

/-- A fetch as the client sends it. -/
structure FetchRequest where
  wants : List Oid
  want_refs : List String
  haves : List Oid
  done : Bool
  shallow : List Oid
  deepen : Option ℕ
  deepen_since : Option ℤ
  deepen_not : List String
  deepen_relative : Bool
  filter : Option Filter
  include_tag : Bool
  packfile_uris : List String

/-- What a signed link needs: the names that the edge forwards, a signing key, and the length of the
trailer of a pack. -/
structure LinkEnv where
  base : Option String
  owner : Option String
  repo : Option String
  signing : Bool
  digest_len : ℕ

/-- The answer: the acknowledged haves of a negotiation that goes on, or a pack with the refs that
were wanted by name. The pack is a link to a stored one, a stored one, or one made from a set. -/
inductive FetchAnswer where
  | acks (acks : List Oid)
  | link (pack : PackId) (wanted_refs : List (Oid × String))
  | stream (pack : PackId) (wanted_refs : List (Oid × String))
  | pack (set : SendSet) (acks : List Oid) (wanted_refs : List (Oid × String))

/-! ## Names -/

/-- A ref that is wanted by its name. -/
def Db.wantRef (db : Db) (name : String) : Except Error (Oid × String) :=
  let qname := if name = "HEAD" then db.head else name
  match db.refs.find qname with
  | none => .error (.protocol s!"couldn't find remote ref {qname}")
  | some r => .ok (r.target, name)

/-- The refs that are wanted by their names. -/
def FetchRequest.wantedRefs (q : FetchRequest) (db : Db) : Except Error (List (Oid × String)) :=
  q.want_refs.mapM db.wantRef

/-- The names under which a short name is searched. -/
def searchOrder (qname : String) : List String :=
  [qname, s!"refs/{qname}", s!"refs/tags/{qname}", s!"refs/heads/{qname}", s!"refs/remotes/{qname}",
    s!"refs/remotes/{qname}/HEAD"]

/-- The id that `deepen-not` takes of a row: the peeled one, which must be an id (the message is the
decoder's), or the target. -/
def RefRow.tip (r : RefRow) : Except Error Oid :=
  match r.peeled with
  | none => .ok r.target
  | some (.id x) => .ok x
  | some (.other text) => .error (.protocol s!"invalid id {text}")

/-- A name of `deepen-not`. A tag whose row has no peeled id is read, and peeled by one level. -/
def deepenNot (objs : Objects) (pick : Pick) (name : String) : Proc Oid := do
  let db ← Proc.read
  match (searchOrder name).findSome? db.refs.find with
  | none => Process.fail (.protocol s!"couldn't find remote ref {name}")
  | some r => do
    let id ← ofResult r.tip
    match (pick.row db id).map (·.kind) with
    | some Kind.tag => do
      let _ ← request
      pure ((objs.tag id).elim id (·.target))
    | _ => pure id

/-- The names of `deepen-not`, one after another. -/
def deepenNots (objs : Objects) (pick : Pick) : List String → Proc (List Oid)
  | [] => pure []
  | name :: names => do
    let id ← deepenNot objs pick name
    let ids ← deepenNots objs pick names
    pure (id :: ids)

/-! ## The packs as they are stored -/

/-- `plain_clone`: no haves, and no argument that narrows what is sent. -/
def FetchRequest.plainClone (q : FetchRequest) : Bool :=
  q.haves.isEmpty && q.shallow.isEmpty && q.deepen.isNone && q.deepen_since.isNone &&
    q.deepen_not.isEmpty && !q.deepen_relative && q.filter.isNone

/-- `consolidated_pack`: the only live pack, when every want has its row in it. -/
def consolidatedPack (pick : Pick) (db : Db) (wants : List Oid) : Option (PackId × ℕ) :=
  match db.livePacks with
  | [p] =>
    if wants.all fun w => (pick.row db w).any fun l => l.pack_id = p.id then some (p.id, p.bytes)
    else none
  | _ => none

/-- The protocol of a base. -/
def baseProto (base : String) : String :=
  if "https://".toList.isPrefixOf base.toList then "https" else "http"

/-- `pack_uri_response`: whether the client gets a link. The trailer of the pack is read for it, and
when that fails the pack is streamed. -/
def packUri (u : LinkEnv) (q : FetchRequest) (bytes : ℕ) : Proc Bool :=
  match u.base, u.owner, u.repo with
  | some base, some _, some _ =>
    if bytes < 12 + u.digest_len || baseProto base ∉ q.packfile_uris || !u.signing then pure false
    else do
      let r ← Process.ask
      pure r.err.isNone
  | _, _, _ => pure false

/-- The answer with the pack as it is stored. -/
def verbatim (u : LinkEnv) (q : FetchRequest) (pack : PackId × ℕ) (wanted : List (Oid × String)) :
    Proc FetchAnswer := do
  if ← packUri u q pack.2 then pure (.link pack.1 wanted)
  else do
    let _ ← request
    pure (.stream pack.1 wanted)

/-! ## All live objects -/

/-- The rows of a page of `no_walk_set`. -/
def noWalkPage : ℕ := 5000

/-- The order of the primary key. -/
def ObjRow.keyLe (a b : ObjRow) : Prop := a.sha < b.sha ∨ (a.sha = b.sha ∧ a.pack_id ≤ b.pack_id)

instance : DecidableRel ObjRow.keyLe := fun a b => by unfold ObjRow.keyLe; infer_instance

/-- The rows of these packs after the cursor, in the order of the key. -/
def Db.rowsAfter (db : Db) (ids : List PackId) (last : Option Oid) : List ObjRow :=
  (db.objects.select fun r => r.pack_id ∈ ids && last.all fun x => x < r.sha).insertionSort
    ObjRow.keyLe

/-- `mark_dedup`: of the rows of one object, which stand together, the first is marked. -/
def markDedup : List ObjRow → List PackSlice → Option Oid →
    Except Error (List PackSlice × Option Oid)
  | [], packs, last => .ok (packs, last)
  | r :: rs, packs, last =>
    if some r.sha = last then markDedup rs packs last
    else
      match packs.findIdx? fun p => p.pack = r.pack_id with
      | none => .error (.internal "object row in unlisted pack")
      | some i =>
        match setBit packs i r with
        | .error e => .error e
        | .ok packs => markDedup rs packs (some r.sha)

/-- The pages of `no_walk_set`, with a bound on their number: a page that is full is not the
last. -/
def noWalkPages (db : Db) (ids : List PackId) :
    ℕ → List PackSlice → Option Oid → Except Error (List PackSlice)
  | 0, _, _ => .error .budget
  | n + 1, packs, last =>
    let rows := (db.rowsAfter ids last).take noWalkPage
    match markDedup rows packs last with
    | .error e => .error e
    | .ok (packs, last) =>
      if rows.length < noWalkPage then .ok packs else noWalkPages db ids n packs last

/-- `no_walk_set`. -/
def noWalkSet (pick : Pick) (db : Db) (plan : ℕ) : Except Error (Option SendSet) :=
  if db.livePacks.length < 2 then .ok none
  else do
    let packs ← noWalkPages db (db.livePacks.map (·.id)) (db.objects.size + 1)
      (db.livePacks.map fun p => ⟨p.id, p.count, p.bytes, Bits.zero p.count⟩) none
    let set ← planReads pick db plan ⟨packs, [], [], [], none, false⟩
    pure (some set)

/-! ## `fetch_v2_inner` -/

/-- The arguments of the walk. -/
def FetchRequest.args (q : FetchRequest) (wants nots : List Oid) : FetchArgs :=
  ⟨wants, q.haves, q.filter, q.deepen, q.deepen_since, nots, q.deepen_relative, q.include_tag,
    q.shallow⟩

/-- The answer with what the walk marks. -/
def walkedAnswer (objs : Objects) (pick : Pick) (a : FetchArgs) (left plan : ℕ) (acks : List Oid)
    (wanted : List (Oid × String)) : Proc FetchAnswer := do
  let set ← sendSet objs pick a left plan
  pure (.pack set acks wanted)

/-- The answer to a plain clone, in the state `db` of the span. -/
def cloneAnswer (objs : Objects) (pick : Pick) (u : LinkEnv) (q : FetchRequest) (left plan : ℕ)
    (db : Db) (wants nots acks : List Oid) (wanted : List (Oid × String)) : Proc FetchAnswer :=
  match consolidatedPack pick db wants with
  | some pack => verbatim u q pack wanted
  | none => do
    match ← ofResult (noWalkSet pick db plan) with
    | some set => pure (.pack set acks wanted)
    | none => walkedAnswer objs pick (q.args wants nots) left plan acks wanted

/-- `fetch_v2_inner`. `left` and `plan` are what is left of the request's budget, as in
`send_set`. -/
def fetchV2 (objs : Objects) (pick : Pick) (u : LinkEnv) (q : FetchRequest) (left plan : ℕ) :
    Proc FetchAnswer := do
  let db ← Proc.read
  let wanted ← ofResult (q.wantedRefs db)
  let wants := q.wants ++ wanted.map (·.1)
  let nots ← deepenNots objs pick q.deepen_not
  let db ← Proc.read
  let acks := q.haves.filter fun h => (pick.row db h).isSome
  if !(q.done || q.haves.isEmpty || acks.length = q.haves.length) then pure (.acks acks)
  else if q.plainClone then cloneAnswer objs pick u q left plan db wants nots acks wanted
  else walkedAnswer objs pick (q.args wants nots) left plan acks wanted

end GitEdge
