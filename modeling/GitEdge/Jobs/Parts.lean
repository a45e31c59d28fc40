import GitEdge.Repo.Intake
import GitEdge.Jobs.ImportCommit
import GitEdge.Store.Staged

/-!
# The requests of an import

An import reads the parts that its payload names and deletes them when it commits. The payload comes
from `import_start`, which checks that a key lies in the repository's part of the bucket but not
that it lies under the push, so an import can read and delete what is staged for another one
(`import_touches_another_push`). `imports_touch_own` says that it does not when every start names
only keys of its own push: the keys are carried from the check through the reader of pass A, the
window of pass B and the deletes of the commit.
-/

namespace GitEdge

open Sql

variable {x : String × ℕ × ℕ} {n : KeyNames} {env : Env} {rule : RateRule}

/-! ## Reads of the parts -/

/-- A part in the payload of an import. -/
structure Part where
  key : String
  bytes : ℕ
deriving DecidableEq, Repr

/-- `u64::saturating_add`. -/
def saturatingAdd (a b : ℕ) : ℕ := min (a + b) (2^64 - 1)

/-- The loop of `PartReader::fill` over the parts: the one with the byte at `fetch`, the offset in
it, and the bytes that are left of it. -/
def partAt (fetch : ℕ) : ℕ → List Part → Option (String × ℕ × ℕ)
  | _, [] => none
  | base, p :: ps =>
    let stop := saturatingAdd base p.bytes
    if fetch < stop then some (p.key, fetch - base, p.bytes - (fetch - base))
    else partAt fetch stop ps

/-- The range reads of `PartReader::fill` for `need` bytes, with so many at hand; each reads 8 MiB
at most. It reads at least one byte each time, so `need` rounds are enough. -/
def fillReads (parts : List Part) (need : ℕ) : ℕ → ℕ → ℕ → List (String × ℕ × ℕ)
  | 0, _, _ => []
  | rounds + 1, fetch, buffered =>
    if need ≤ buffered then []
    else
      match partAt fetch 0 parts with
      | none => []
      | some (key, off, left) =>
        let len := min left (8 * 2^20)
        (key, off, len) :: fillReads parts need rounds (saturatingAdd fetch len) (buffered + len)

/-- The loop of `Source::read` over the parts, for the bytes from `off` to `wantEnd`. -/
def partsReads (off wantEnd : ℕ) : ℕ → List Part → List (String × ℕ × ℕ)
  | _, [] => []
  | base, p :: ps =>
    let stop := saturatingAdd base p.bytes
    let a := max off base
    let b := min wantEnd stop
    (if a < b then [(p.key, a - base, b - a)] else []) ++
      if wantEnd ≤ b then [] else partsReads off wantEnd stop ps

/-- The range reads of `Source::read`: of the one part, or of the parts in a row. -/
def sourceReads (parts : List Part) (off len : ℕ) : List (String × ℕ × ℕ) :=
  match parts with
  | [p] => [(p.key, off, len)]
  | ps => partsReads off (saturatingAdd off len) 0 ps

theorem partAt_key {fetch base : ℕ} {ps : List Part} (h : partAt fetch base ps = some x) :
    ∃ p ∈ ps, p.key = x.1 := by
  induction ps generalizing base with
  | nil => cases h
  | cons p ps ih =>
    unfold partAt at h
    dsimp only at h
    split_ifs at h
    · cases h
      exact ⟨p, List.mem_cons_self, rfl⟩
    · obtain ⟨q, hq, hkey⟩ := ih h
      exact ⟨q, List.mem_cons_of_mem _ hq, hkey⟩

theorem fillReads_key {parts : List Part} {need rounds fetch buffered : ℕ}
    (h : x ∈ fillReads parts need rounds fetch buffered) : ∃ p ∈ parts, p.key = x.1 := by
  induction rounds generalizing fetch buffered with
  | zero => cases h
  | succ rounds ih =>
    unfold fillReads at h
    split_ifs at h
    · cases h
    · cases hat : partAt fetch 0 parts with
      | none =>
        simp only [hat] at h
        cases h
      | some y =>
        simp only [hat] at h
        rcases List.mem_cons.mp h with rfl | h
        · obtain ⟨p, hp, hkey⟩ := partAt_key hat
          exact ⟨p, hp, hkey⟩
        · exact ih h

theorem partsReads_key {off wantEnd base : ℕ} {ps : List Part}
    (h : x ∈ partsReads off wantEnd base ps) : ∃ p ∈ ps, p.key = x.1 := by
  induction ps generalizing base with
  | nil => cases h
  | cons p ps ih =>
    unfold partsReads at h
    rcases List.mem_append.mp h with h | h
    · split_ifs at h
      · rw [List.mem_singleton.mp h]
        exact ⟨p, List.mem_cons_self, rfl⟩
      · cases h
    · split_ifs at h
      · cases h
      · obtain ⟨q, hq, hkey⟩ := ih h
        exact ⟨q, List.mem_cons_of_mem _ hq, hkey⟩

theorem sourceReads_key {parts : List Part} {off len : ℕ} (h : x ∈ sourceReads parts off len) :
    ∃ p ∈ parts, p.key = x.1 := by
  unfold sourceReads at h
  split at h
  · next p =>
    rw [List.mem_singleton.mp h]
    exact ⟨p, List.mem_singleton_self p, rfl⟩
  · exact partsReads_key h

/-! ## Imports and their requests -/

/-- A request to the bucket: a read or a head, a step of an upload, or a delete. -/
inductive KeyAccess where
  | read (key : String)
  | write (key : String)
  | delete (key : String)
deriving DecidableEq, Repr

/-- The key that a request is for. -/
def KeyAccess.key : KeyAccess → String
  | .read k | .write k | .delete k => k

/-- The payload of an import job, with its parts. -/
structure ImportRecord where
  job : ℕ
  push : PushId
  pack : PackId
  parts : List Part
deriving DecidableEq, Repr

/-- A request that the import of a push made. -/
structure Touch where
  push : PushId
  pack : PackId
  access : KeyAccess
deriving DecidableEq, Repr

/-- A request of the import. -/
def ImportRecord.touch (i : ImportRecord) (a : KeyAccess) : Touch := ⟨i.push, i.pack, a⟩

/-- A repository with what is staged, the imports that were started, and the requests that they
made. -/
structure Depot where
  db : Db
  staged : Table (String × List UInt8) Prod.fst
  imports : Table ImportRecord ImportRecord.job
  log : List Touch

/-- The parts of a request. -/
def StartBody.partList (b : StartBody) : List Part :=
  b.parts.filterMap fun p => p.key.map fun k => ⟨k, p.bytes.getD 0⟩

/-- The payload of the job that a start inserts; an import by url has no parts yet. -/
def StartBody.record (b : StartBody) (job : ℕ) : ImportRecord :=
  ⟨job, b.push, b.pack, if b.url.isSome then [] else b.partList⟩

theorem StartBody.record_job (b : StartBody) (job : ℕ) : (b.record job).job = job := rfl

/-- The depot after a start: a job that was inserted has the parts of the request in its payload. -/
def Depot.started (d : Depot) (env : Env) (n : KeyNames) (now : ℤ) (b : StartBody) : Depot :=
  let o := (importStart env n.pendingNs now b).run d.db
  { d with
    db := o.state
    imports :=
      if d.db.job_seq < o.state.job_seq then
        d.imports.upsert (b.record o.state.job_seq) (fun q => b.record q.job)
          fun q => b.record_job q.job
      else d.imports }

/-- The depot after a push began, or went on, and an object was written. -/
def Depot.stage (d : Depot) (env : Env) (rule : RateRule) (now : ℤ) (b : BeginDto) (key : String)
    (bytes : List UInt8) : Depot :=
  { d with
    db := ((pushBegin env now rule b).run d.db).state
    staged := d.staged.upsert (key, bytes) (fun r => (r.1, bytes)) (staged_key bytes) }

/-- The depot after reads of an import. -/
def Depot.reads (d : Depot) (i : ImportRecord) (rs : List (String × ℕ × ℕ)) : Depot :=
  { d with log := d.log ++ rs.map fun x => i.touch (.read x.1) }

/-- The depot after `commit_meta`, with the first `k` of the deletes at its end. -/
def Depot.commit (d : Depot) (env : Env) (now : ℤ) (i : ImportRecord) (lease : Lease)
    (p : ImportPayload) (c : ImportCursor) (m : PackMeta) (k : ℕ) : Depot :=
  { d with
    db := ((commitMeta env now i.job lease p c m).run d.db).state
    staged := d.staged.deleteWhere fun r => ((i.parts.take k).map Part.key).contains r.1
    log := d.log ++ (i.parts.take k).map fun q => i.touch (.delete q.key) }

/-- What happens to a depot. -/
inductive DepotEvent where
  | stage (push : PushId)
  | start (b : StartBody)
  | read (push : PushId)
  | base (push : PushId)
  | output (push : PushId)
  | remote (push : PushId)
  | commit (push : PushId)
  | other

/-- A step of a depot. -/
inductive DepotStep (env : Env) (rule : RateRule) (n : KeyNames) : Depot → DepotEvent → Depot → Prop
  /-- `import_stage`: the push begins, or goes on, and an object is written under it. -/
  | stage (d : Depot) (now : ℤ) (b : BeginDto) (key : String) (bytes : List UInt8)
      (hkey : key = n.pending b.push_id ∨ ∃ part, key = n.pendingPart b.push_id part)
      (hok : ((pushBegin env now rule b).run d.db).res = .ok ()) :
      DepotStep env rule n d (.stage b.push_id) (d.stage env rule now b key bytes)
  /-- `import_start`. -/
  | start (d : Depot) (now : ℤ) (b : StartBody) :
      DepotStep env rule n d (.start b) (d.started env n now b)
  /-- The reads of pass A. -/
  | fill (d : Depot) (i : ImportRecord) (hi : i ∈ d.imports) (need rounds fetch buffered : ℕ) :
      DepotStep env rule n d (.read i.push)
      (d.reads i (fillReads i.parts need rounds fetch buffered))
  /-- The reads of pass B, which also writes the blobs verbatim. -/
  | window (d : Depot) (i : ImportRecord) (hi : i ∈ d.imports) (off len : ℕ) :
      DepotStep env rule n d (.read i.push) (d.reads i (sourceReads i.parts off len))
  /-- The read of a base that is not in the pack, from the live pack that has it. -/
  | base (d : Depot) (i : ImportRecord) (hi : i ∈ d.imports) (q : PackId)
      (hq : d.db.packLive q = true) :
      DepotStep env rule n d (.base i.push) { d with
        log := d.log ++ [i.touch (.read (n.packKey q))] }
  /-- The requests for the output pack: its upload, and the head of the finished object. -/
  | output (d : Depot) (i : ImportRecord) (hi : i ∈ d.imports) (a : KeyAccess)
      (ha : a = .write (n.packKey i.pack) ∨ a = .read (n.packKey i.pack)) :
      DepotStep env rule n d (.output i.push) { d with log := d.log ++ [i.touch a] }
  /-- The fetch of an import by url stages the pack of the remote, and writes the payload again. -/
  | remote (d : Depot) (i : ImportRecord) (hi : i ∈ d.imports) (bytes : List UInt8) :
      DepotStep env rule n d (.remote i.push) { d with
        staged := d.staged.upsert (n.pendingPart i.push "remote", bytes) (fun r => (r.1, bytes))
          fun _ => rfl
        imports := d.imports.updateWhere (fun q => q.job = i.job)
          (fun q => { q with parts := [⟨n.pendingPart i.push "remote", bytes.length⟩] })
          fun _ => rfl
        log := d.log ++ [i.touch (.write (n.pendingPart i.push "remote"))] }
  /-- `commit_meta` past its guards, and the first deletes of the parts. -/
  | commit (d : Depot) (i : ImportRecord) (hi : i ∈ d.imports) (now : ℤ) (lease : Lease)
      (p : ImportPayload) (c : ImportCursor) (m : PackMeta) (k : ℕ)
      (hpush : p.push = i.push) (hpack : p.pack = i.pack)
      (hepoch : c.check_epoch = some d.db.gc_epoch)
      (hlease : d.db.leaseHeld i.job lease = true) :
      DepotStep env rule n d (.commit i.push) (d.commit env now i lease p c m k)
  /-- Whatever else happens to the repository and to what is staged. -/
  | other (d : Depot) (db : Db) (staged : Table (String × List UInt8) Prod.fst) :
      DepotStep env rule n d .other { d with db := db, staged := staged }

/-- A run from a repository without imports, with what happened. -/
inductive DepotRun (env : Env) (rule : RateRule) (n : KeyNames) : List DepotEvent → Depot → Prop
  | nil (db : Db) (staged : Table (String × List UInt8) Prod.fst) :
      DepotRun env rule n [] ⟨db, staged, .empty, []⟩
  | snoc {es : List DepotEvent} {d d' : Depot} {e : DepotEvent} (h : DepotRun env rule n es d)
      (hs : DepotStep env rule n d e d') : DepotRun env rule n (es ++ [e]) d'

/-! ## The frame -/

/-- A staged start names only keys of its own push. -/
def StartBody.Own (n : KeyNames) (b : StartBody) : Prop :=
  b.url.isSome = true ∨ ∀ p ∈ b.parts, ∀ k, p.key = some k → n.Owns b.push k

/-- The request is for something that is staged for the push, or for its output pack. -/
def Touch.Own (n : KeyNames) (t : Touch) : Prop :=
  n.Owns t.push t.access.key ∨ t.access.key = n.packKey t.pack

/-- The parts of an import are those of its push. -/
def ImportRecord.Own (n : KeyNames) (i : ImportRecord) : Prop := ∀ p ∈ i.parts, n.Owns i.push p.key

/-- No key of a pack is staged for a push. -/
theorem KeyNames.not_owns_packKey (n : KeyNames) (p : PushId) (q : PackId) :
    ¬ n.Owns p (n.packKey q) := by
  intro h
  obtain ⟨rest, hrest⟩ := List.isPrefixOf_iff_prefix.mp h
  simp only [KeyNames.pendingOf, KeyNames.pendingNs, KeyNames.packKey, String.toList_append,
    List.append_assoc] at hrest
  have h' := List.append_cancel_left (List.append_cancel_left hrest)
  simp at h'

/-- What holds along a run: the parts of each import are its own, and so are the requests, but for
reads of packs that hold a base. -/
structure Depot.Framed (n : KeyNames) (es : List DepotEvent) (d : Depot) : Prop where
  parts : ∀ i ∈ d.imports, i.Own n
  log : ∀ t ∈ d.log, t.Own n ∨
    (∃ p, DepotEvent.base p ∈ es) ∧ ∃ q, t.access = .read (n.packKey q)

/-- A start that names only keys of its push makes an import of its own parts. -/
theorem StartBody.Own.record {b : StartBody} (h : b.Own n) (job : ℕ) : (b.record job).Own n := by
  intro p hp
  unfold StartBody.record at hp
  rcases h with hurl | hkeys
  · simp [hurl] at hp
  · dsimp only at hp
    split_ifs at hp
    · cases hp
    · obtain ⟨part, hpart, hp⟩ := List.mem_filterMap.mp hp
      obtain ⟨k, hk, rfl⟩ := Option.map_eq_some_iff.mp hp
      exact hkeys part hpart k hk

theorem Depot.started_imports {now : ℤ} {d : Depot} {b : StartBody} (hb : b.Own n)
    (h : ∀ i ∈ d.imports, i.Own n) : ∀ i ∈ (d.started env n now b).imports, i.Own n := by
  intro i hi
  unfold Depot.started at hi
  dsimp only at hi
  split at hi
  · rw [Table.mem_upsert] at hi
    rcases hi with ⟨hi, -⟩ | ⟨o, -, -, rfl⟩ | ⟨rfl, -⟩
    · exact h i hi
    · exact hb.record _
    · exact hb.record _
  · exact h i hi

/-- The requests of an import for its parts are its own. -/
theorem ImportRecord.Own.touches {i : ImportRecord} (h : i.Own n) {a : KeyAccess}
    (ha : ∃ p ∈ i.parts, p.key = a.key) : (i.touch a).Own n := by
  obtain ⟨p, hp, hkey⟩ := ha
  refine .inl ?_
  change n.Owns i.push a.key
  rw [← hkey]
  exact h p hp

theorem DepotStep.framed {es : List DepotEvent} {d d' : Depot} {e : DepotEvent} (hd : d.Framed n es)
    (h : DepotStep env rule n d e d') (hown : ∀ b, e = .start b → b.Own n) :
    d'.Framed n (es ++ [e]) := by
  have hlog : ∀ t ∈ d.log, t.Own n ∨
      (∃ p, DepotEvent.base p ∈ es ++ [e]) ∧ ∃ q, t.access = .read (n.packKey q) := by
    intro t ht
    rcases hd.log t ht with h | ⟨⟨p, hp⟩, hq⟩
    · exact .inl h
    · exact .inr ⟨⟨p, List.mem_append_left _ hp⟩, hq⟩
  cases h with
  | stage now b key bytes hkey hok => exact ⟨hd.parts, hlog⟩
  | start now b => exact ⟨Depot.started_imports (hown b rfl) hd.parts, hlog⟩
  | fill i hi need rounds fetch buffered =>
    refine ⟨hd.parts, List.forall_mem_append.mpr ⟨hlog, fun t ht => .inl ?_⟩⟩
    obtain ⟨x, hx, rfl⟩ := List.mem_map.mp ht
    exact (hd.parts i hi).touches (fillReads_key hx)
  | window i hi off len =>
    refine ⟨hd.parts, List.forall_mem_append.mpr ⟨hlog, fun t ht => .inl ?_⟩⟩
    obtain ⟨x, hx, rfl⟩ := List.mem_map.mp ht
    exact (hd.parts i hi).touches (sourceReads_key hx)
  | base i hi q hq =>
    refine ⟨hd.parts,
      List.forall_mem_append.mpr ⟨hlog, fun t ht => .inr ⟨⟨i.push, by simp⟩, q, ?_⟩⟩⟩
    rw [List.mem_singleton.mp ht]
    rfl
  | output i hi a ha =>
    refine ⟨hd.parts, List.forall_mem_append.mpr ⟨hlog, fun t ht => .inl (.inr ?_)⟩⟩
    rw [List.mem_singleton.mp ht]
    rcases ha with rfl | rfl <;> rfl
  | remote i hi bytes =>
    refine ⟨fun j hj => ?_, List.forall_mem_append.mpr ⟨hlog, fun t ht => .inl (.inl ?_)⟩⟩
    · dsimp only at hj
      rw [Table.mem_updateWhere] at hj
      obtain ⟨q, hq, rfl⟩ := hj
      split_ifs with hjob
      · -- The job is the import's, so the key is one of its push.
        have hqi : q = i := Table.eq_of_key_eq hq hi (by simpa using hjob)
        intro p hp
        rw [List.mem_singleton.mp hp, hqi]
        exact n.owns_pendingPart i.push "remote"
      · exact hd.parts q hq
    · rw [List.mem_singleton.mp ht]
      exact n.owns_pendingPart i.push "remote"
  | commit i hi now lease p c m k hpush hpack hepoch hlease =>
    refine ⟨hd.parts, List.forall_mem_append.mpr ⟨hlog, fun t ht => .inl ?_⟩⟩
    obtain ⟨q, hq, rfl⟩ := List.mem_map.mp ht
    exact (hd.parts i hi).touches ⟨q, List.mem_of_mem_take hq, rfl⟩
  | other db staged => exact ⟨hd.parts, hlog⟩

theorem DepotRun.framed {es : List DepotEvent} {d : Depot} (h : DepotRun env rule n es d)
    (hown : ∀ b, DepotEvent.start b ∈ es → b.Own n) : d.Framed n es := by
  induction h with
  | nil db staged => exact ⟨by simp [Table.mem_def, Table.empty], by simp⟩
  | @snoc es d d' e _ hs ih =>
    refine hs.framed (ih fun b hb => hown b (List.mem_append_left _ hb)) ?_
    rintro b rfl
    exact hown b (by simp)

/-- In every run whose starts name only keys of their own push, no import touches what is staged for
another push. If none of them reads a base from a pack either, each request is for something that is
staged for its push or for its output pack. -/
theorem imports_touch_own {es : List DepotEvent} {d : Depot} (h : DepotRun env rule n es d)
    (hown : ∀ b, DepotEvent.start b ∈ es → b.Own n) :
    (∀ t ∈ d.log, ∀ q, n.Owns q t.access.key → q = t.push) ∧
      ((∀ p, DepotEvent.base p ∉ es) → ∀ t ∈ d.log, t.Own n) := by
  have hframed := h.framed hown
  constructor
  · intro t ht q hq
    rcases hframed.log t ht with (hpush | hpack) | ⟨-, p, hp⟩
    · exact n.owns_unique hq hpush
    · rw [hpack] at hq
      exact absurd hq (n.not_owns_packKey q t.pack)
    · rw [hp] at hq
      exact absurd hq (n.not_owns_packKey q p)
  · intro hbase t ht
    rcases hframed.log t ht with hown | ⟨⟨p, hp⟩, -⟩
    · exact hown
    · exact absurd hp (hbase p)

/-! ### A start that names a part of another push -/

section Lent

/-- The settings of the run below. -/
def lentEnv : Env := Env.default fun _ => true

/-- A repository with a token for each of two writers. -/
def lentDepot : Depot where
  db :=
    { Db.fresh with
      tokens := ⟨[⟨1, "a", .write, some "refs/heads/*", none⟩,
        ⟨2, "b", .write, some "refs/heads/*", none⟩], by decide⟩
      obj_format := some .sha1 }
  staged := .empty
  imports := .empty
  log := []

/-- The key of the part that is staged for the push `1`. -/
def lentKey : String := KeyNames.unary.pendingPart 1 "x"

/-- The second writer's import, which names the part of the first. -/
def lentStart : StartBody := ⟨2, 20, [⟨some lentKey, some 3⟩], foreignStart.commands, none, none⟩

/-- Both writers stage a part, and the second starts an import. -/
def lentStarted : Depot :=
  ((lentDepot.stage lentEnv .off 1 ⟨1, "alice", "a", false, none⟩ lentKey [1, 2, 3]).stage
    lentEnv .off 2 ⟨2, "bob", "b", false, none⟩
    (KeyNames.unary.pendingPart 2 "y") [4]).started lentEnv .unary 3 lentStart

/-- The import gets a slice. -/
def lentClaimed : Db :=
  { lentStarted.db with
    jobs := lentStarted.db.jobs.updateWhere (fun j => j.id = 1)
      (fun j => { j with state := .running, lease := some 9 }) fun _ => rfl }

/-- The import, as its payload says it. -/
def lentImport : ImportRecord := ⟨1, 2, 20, [⟨lentKey, 3⟩]⟩

/-- It reads the part, and after its other phases it commits. -/
def lentCommitted : Depot :=
  (({ lentStarted with db := lentClaimed }).reads lentImport
      (fillReads lentImport.parts 30 30 0 0)).commit lentEnv 4 lentImport 9
    ⟨2, 20, "bob", [⟨0, 5, "refs/heads/b", none⟩], none, none⟩
    { fetchCursor with phase := .commit, check_epoch := some 0 } ⟨1, 3⟩ 1

theorem lentCommitted_run : ∃ es, DepotRun lentEnv .off .unary es lentCommitted := by
  refine ⟨_, .snoc (.snoc (.snoc (.snoc (.snoc (.snoc (.nil lentDepot.db .empty)
    (.stage _ 1 ⟨1, "alice", "a", false, none⟩ lentKey [1, 2, 3] (.inr ⟨"x", rfl⟩) ?_))
    (.stage _ 2 ⟨2, "bob", "b", false, none⟩ (KeyNames.unary.pendingPart 2 "y") [4]
      (.inr ⟨"y", rfl⟩) ?_))
    (.start _ 3 lentStart)) (.other _ lentClaimed _)) (.fill _ lentImport ?_ 30 30 0 0))
    (.commit _ lentImport ?_ 4 9 ⟨2, 20, "bob", [⟨0, 5, "refs/heads/b", none⟩], none, none⟩
      { fetchCursor with phase := .commit, check_epoch := some 0 } ⟨1, 3⟩ 1 rfl rfl rfl ?_)⟩
  · decide +kernel
  · decide +kernel
  · rw [Table.mem_def]
    decide +kernel
  · rw [Table.mem_def]
    decide +kernel
  · decide +kernel

/-- The second writer's import reads the part of the first, whose push is open, and deletes it. -/
theorem import_touches_another_push :
    (∃ es, DepotRun lentEnv .off .unary es lentCommitted) ∧
    lentCommitted.log = [⟨2, 20, .read lentKey⟩, ⟨2, 20, .delete lentKey⟩] ∧
    KeyNames.unary.Owns 1 lentKey ∧
    (lentCommitted.db.pushes.find 1).map (·.state) = some .open ∧
    lentStarted.staged.has lentKey = true ∧ lentCommitted.staged.has lentKey = false :=
  ⟨lentCommitted_run, by decide +kernel, KeyNames.unary.owns_pendingPart 1 "x", by decide +kernel,
    by decide +kernel, by decide +kernel⟩

/-- The first writer's own import reads its part. -/
theorem own_import_touches_own :
    ∃ es d, DepotRun lentEnv .off .unary es d ∧ d.log = [⟨1, 10, .read lentKey⟩] ∧
      ∀ t ∈ d.log, t.Own .unary := by
  have hown : ({ lentStart with push := 1, pack := 10 } : StartBody).Own .unary := by
    refine .inr fun p hp k hk => ?_
    rw [List.mem_singleton.mp hp] at hk
    cases hk
    exact KeyNames.unary.owns_pendingPart 1 "x"
  have hrun : DepotRun lentEnv .off .unary _ _ :=
    .snoc (.snoc (.snoc (.nil lentDepot.db .empty)
    (.stage _ 1 ⟨1, "alice", "a", false, none⟩ lentKey [1, 2, 3] (.inr ⟨"x", rfl⟩)
      (by decide +kernel)))
    (.start _ 2 { lentStart with push := 1, pack := 10 }))
    (.fill _ ⟨1, 1, 10, [⟨lentKey, 3⟩]⟩ (by rw [Table.mem_def]; decide +kernel) 30 30 0 0)
  have hstarts : ∀ b, DepotEvent.start b ∈ [DepotEvent.stage 1,
      .start { lentStart with push := 1, pack := 10 }, .read 1] → b.Own .unary := by
    intro b hb
    simp only [List.mem_cons, DepotEvent.start.injEq, reduceCtorEq, false_or, List.not_mem_nil,
      or_false] at hb
    rw [hb]
    exact hown
  exact ⟨_, _, hrun, by decide +kernel, (imports_touch_own hrun hstarts).2 (by simp)⟩

end Lent

end GitEdge
