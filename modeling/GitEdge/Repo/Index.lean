import GitEdge.Repo.Commit
import GitEdge.Lib.Reach

/-!
# Objects and the index of the live packs

The content of an object is a function of its id (`Objects`): the kind, and what the decoders of the
libraries read from its bytes. `Index::lookup` and the walks of the garbage collector take one of
the live rows of an id, and `GROUP BY sha` leaves to SQLite which one: `Choice` is any such choice.
-/

namespace GitEdge

open Sql

/-- The modes of a tree entry that the code tells apart: a tree, a gitlink, and the rest. -/
inductive Mode where
  | tree | commit | other
deriving DecidableEq, Repr

/-- An entry of a tree object. -/
structure TreeEntry where
  mode : Mode
  filename : String
  oid : Oid
deriving DecidableEq, Repr

/-- What `CommitRefIter` reads of a commit, with the committer's time. -/
structure CommitData where
  tree : Oid
  parents : List Oid
  time : Option ℤ
deriving DecidableEq, Repr

/-- What `TagRef` reads of a tag. -/
structure TagData where
  target_kind : Kind
  target : Oid
deriving DecidableEq, Repr

/-- The objects by their ids: the kind and the size, and what each decoder reads from the bytes,
whatever the kind is; `none` where it fails. -/
structure Objects where
  kind : Oid → Kind
  size : Oid → ℕ
  commit : Oid → Option CommitData
  tree : Oid → Option (List TreeEntry)
  tag : Oid → Option TagData

/-- `extract_links`: the tree and the parents of a commit, the entries of a tree other than
gitlinks, and the target of a tag. -/
def Objects.links (objs : Objects) (x : Oid) : List Oid :=
  match objs.kind x with
  | .commit => (objs.commit x).elim [] fun c => c.tree :: c.parents
  | .tree => (objs.tree x).elim [] fun es => (es.filter fun e => e.mode ≠ .commit).map (·.oid)
  | .blob => []
  | .tag => (objs.tag x).elim [] fun t => [t.target]

/-- `y` is a link of `x`. -/
def Objects.Link (objs : Objects) (x y : Oid) : Prop := y ∈ objs.links x

/-- Whether the object has a row in a live pack. -/
def Db.Live (db : Db) (x : Oid) : Prop := ∃ r ∈ db.objects, r.sha = x ∧ db.packLive r.pack_id = true

/-- The rows of the index describe the objects that they name. -/
def Db.Describes (db : Db) (objs : Objects) : Prop :=
  ∀ r ∈ db.objects, r.kind = objs.kind r.sha ∧ r.size = objs.size r.sha

/-- A choice among the live rows of each object. -/
structure Choice where
  row : Db → Oid → Option ObjRow
  /-- The choice is a live row of the object. -/
  mem : ∀ {db x r}, row db x = some r → r ∈ db.objects ∧ r.sha = x ∧ db.packLive r.pack_id = true
  /-- There is one whenever the object is live. -/
  some_of_live : ∀ {db x}, db.Live x → ∃ r, row db x = some r

/-- The choices of a fetch: one for its walk, and one for each lookup of a rebuild. -/
structure Pick extends Choice where
  again : ℕ → Choice

theorem Choice.live {choice : Choice} {db : Db} {x : Oid} {r : ObjRow}
    (h : choice.row db x = some r) : db.Live x := ⟨r, choice.mem h⟩

theorem Db.lookup_eq_some {db : Db} {x : Oid} {r : ObjRow} (h : db.lookup x = some r) :
    r ∈ db.objects ∧ r.sha = x ∧ db.packLive r.pack_id = true := by
  have hr := List.find?_some h
  have hmem := List.mem_of_find?_eq_some h
  simp only [Bool.and_eq_true, decide_eq_true_eq] at hr
  exact ⟨hmem, hr.1, hr.2⟩

theorem Db.lookup_isSome_iff {db : Db} {x : Oid} : (db.lookup x).isSome = true ↔ db.Live x := by
  constructor
  · intro h
    obtain ⟨r, hr⟩ := Option.isSome_iff_exists.mp h
    exact ⟨r, Db.lookup_eq_some hr⟩
  · rintro ⟨r, hr, hx, hl⟩
    rw [Db.lookup, List.find?_isSome]
    exact ⟨r, hr, by simp [hx, hl]⟩

/-- The first row in the order of the table. -/
def Choice.first : Choice where
  row := Db.lookup
  mem := Db.lookup_eq_some
  some_of_live h := Option.isSome_iff_exists.mp (Db.lookup_isSome_iff.mpr h)

/-- The last row in the order of the table. -/
def Choice.last : Choice where
  row db x := db.objects.rows.reverse.find? fun r => r.sha = x && db.packLive r.pack_id
  mem h := by
    have hr := List.find?_some h
    simp only [Bool.and_eq_true, decide_eq_true_eq] at hr
    exact ⟨Table.mem_def.mpr (List.mem_reverse.mp (List.mem_of_find?_eq_some h)), hr.1, hr.2⟩
  some_of_live := by
    rintro db x ⟨r, hr, hx, hl⟩
    refine Option.isSome_iff_exists.mp (List.find?_isSome.mpr ⟨r, List.mem_reverse.mpr hr, ?_⟩)
    simp [hx, hl]

/-- The first row in every lookup. -/
def Pick.first : Pick := ⟨.first, fun _ => .first⟩

end GitEdge
