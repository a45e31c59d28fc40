import GitEdge.Lib.FoldM
import GitEdge.Repo.History

/-!
# The advertisement of the refs

`refs_route` and `ls_refs` answer from a snapshot of the refs that the instance keeps in memory,
under the key of `refs_version` and the object format. `MemoOk` says when a snapshot is fresh: under
the version of the database it holds the refs and the head of the database. A step keeps it that
moves the version whenever it changes a ref or the head.

Two steps do not. An import that is rejected can move the head under the same version, and a
repository that is created again after a purge counts its versions from zero while the instance
still has the snapshot of the one before (`memo_answers_stale`). Without those, every answer is the
one that the database would give at that moment (`memo_answers_fresh`).
-/

namespace GitEdge

open Sql

/-! ## The routes -/

/-- A ref as it is advertised. -/
structure RefView where
  name : String
  target : Oid
  peeled : Option Oid
deriving DecidableEq, Repr

/-- A row as it is advertised. A peeled text that is no id fails the list. -/
def RefRow.view (r : RefRow) : Except Error RefView :=
  match r.peeled with
  | none => .ok ⟨r.name, r.target, none⟩
  | some (.id x) => .ok ⟨r.name, r.target, some x⟩
  | some (.other _) => .error (.internal "bad peeled")

/-- `list_refs`: the head, and the refs in the order of their names. -/
def Db.listRefs (db : Db) : Except Error (String × List RefView) := do
  let refs ← (db.refs.rows.insertionSort fun a b => a.name ≤ b.name).mapM RefRow.view
  pure (db.head, refs)

/-- The parts of the protocol that the routes call: the body of `refs_route`, the parser of a
request to list refs, with the format that the client names, and the writer of the list. -/
structure Wire (Body Args Bytes : Type) where
  refsValue : String → List RefView → ObjFormat → Bool → Bytes
  parseLsRefs : Body → Except Error (ObjFormat × Args)
  writeLsRefs : Args → String → List RefView → Bytes

/-- `RefsMemo`: the key, the snapshot, the body of `refs_route`, and the last lists that were asked
for. -/
structure RefsMemo (Body Bytes : Type) where
  version : ℤ
  kind : ObjFormat
  pinned : Bool
  head : String
  refs : List RefView
  json : Bytes
  ls : List (Body × Bytes)
deriving DecidableEq

/-- A live instance of a repository: the database, and the snapshot in memory. -/
structure Instance (Body Bytes : Type) where
  db : Db
  memo : Option (RefsMemo Body Bytes)

section

variable {Body Args Bytes : Type} (w : Wire Body Args Bytes)

/-- `obj_format_pinned`. -/
def Instance.pinned (i : Instance Body Bytes) : Bool := i.db.obj_format.isSome

/-- `check_object_format`. -/
def checkObjectFormat (repo : ObjFormat) (pinned : Bool) (client : ObjFormat) :
    Except Error ObjFormat :=
  if !pinned then .ok client
  else if client ≠ repo then
    .error (.protocol s!"object-format {client.name} does not match repo {repo.name}")
  else .ok repo

/-- The snapshot of the database. -/
def Instance.render (i : Instance Body Bytes) : Except Error (RefsMemo Body Bytes) := do
  let (head, refs) ← i.db.listRefs
  pure
    { version := i.db.refs_version
      kind := i.db.objKind
      pinned := i.pinned
      head := head
      refs := refs
      json := w.refsValue head refs i.db.objKind i.pinned
      ls := [] }

/-- Whether a snapshot has the key of the database. -/
def Instance.hits (i : Instance Body Bytes) (m : RefsMemo Body Bytes) : Bool :=
  m.version = i.db.refs_version && m.kind = i.db.objKind && m.pinned = i.pinned

/-- `refs_snapshot`: the snapshot in memory, if it has the key, and otherwise a new one. -/
def Instance.snapshot (i : Instance Body Bytes) : Except Error (RefsMemo Body Bytes) :=
  match i.memo.filter i.hits with
  | some m => .ok m
  | none => i.render w

/-- `refs_route`: the body and the header with the version. -/
def Instance.refsRoute (i : Instance Body Bytes) :
    Except Error (Bytes × ℤ) × Instance Body Bytes :=
  match i.snapshot w with
  | .error e => (.error e, i)
  | .ok m => (.ok (m.json, m.version), { i with memo := some m })

/-- The list for a request, from a head and refs. -/
def Wire.lsAnswer (kind : ObjFormat) (pinned : Bool) (head : String) (refs : List RefView)
    (body : Body) : Except Error Bytes :=
  match w.parseLsRefs body with
  | .error e => .error e
  | .ok (client, args) =>
    match checkObjectFormat kind pinned client with
    | .error e => .error e
    | .ok _ => .ok (w.writeLsRefs args head refs)

/-- The lists with a new one; the oldest goes when there are eight. -/
def pushLs (ls : List (Body × Bytes)) (e : Body × Bytes) : List (Body × Bytes) :=
  (if 8 ≤ ls.length then ls.tail else ls) ++ [e]

/-- `ls_refs`. -/
def Instance.lsRefs [DecidableEq Body] (i : Instance Body Bytes) (body : Body) :
    Except Error Bytes × Instance Body Bytes :=
  match i.snapshot w with
  | .error e => (.error e, i)
  | .ok m =>
    match m.ls.find? fun e => e.1 = body with
    | some e => (.ok e.2, { i with memo := some m })
    | none =>
      match w.lsAnswer i.db.objKind i.pinned m.head m.refs body with
      | .error e => (.error e, { i with memo := some m })
      | .ok out => (.ok out, { i with memo := some { m with ls := pushLs m.ls (body, out) } })

/-- The answer of `refs_route` from the database as it is. -/
def Instance.freshRefs (i : Instance Body Bytes) : Except Error (Bytes × ℤ) := do
  let (head, refs) ← i.db.listRefs
  pure (w.refsValue head refs i.db.objKind i.pinned, i.db.refs_version)

/-- The answer of `ls_refs` from the database as it is. -/
def Instance.freshLs (i : Instance Body Bytes) (body : Body) : Except Error Bytes := do
  let (head, refs) ← i.db.listRefs
  w.lsAnswer i.db.objKind i.pinned head refs body

/-! ## Fresh snapshots -/

/-- A snapshot is fresh: its version is one that the database had, and under the version that the
database has it shows the refs and the head as they are. -/
structure MemoOk (db : Db) (m : RefsMemo Body Bytes) : Prop where
  bound : m.version ≤ db.refs_version
  fresh : m.version = db.refs_version → db.listRefs = .ok (m.head, m.refs)
  json : m.json = w.refsValue m.head m.refs m.kind m.pinned
  ls : ∀ e ∈ m.ls, w.lsAnswer m.kind m.pinned m.head m.refs e.1 = .ok e.2

/-- The instance has no snapshot, or a fresh one. -/
def Instance.Fresh (i : Instance Body Bytes) : Prop := ∀ m ∈ i.memo, MemoOk w i.db m

variable {w}

/-- The snapshot that a route takes is fresh and has the key of the database. -/
theorem Instance.Fresh.snapshot {i : Instance Body Bytes} (h : i.Fresh w)
    {m : RefsMemo Body Bytes} (hm : i.snapshot w = .ok m) : MemoOk w i.db m ∧ i.hits m = true := by
  unfold Instance.snapshot at hm
  cases hmemo : i.memo.filter i.hits with
  | some m' =>
    rw [hmemo] at hm
    cases hm
    obtain ⟨hmem, hhit⟩ := Option.filter_eq_some_iff.mp hmemo
    exact ⟨h m hmem, hhit⟩
  | none =>
    rw [hmemo] at hm
    obtain ⟨⟨head, refs⟩, hlist, hm⟩ := FoldM.bind_eq_ok.mp hm
    cases hm
    refine ⟨⟨le_refl _, fun _ => hlist, rfl, fun e he => by cases he⟩, ?_⟩
    simp [Instance.hits]

/-- What a snapshot with the key of the database shows. -/
theorem Instance.Fresh.view {i : Instance Body Bytes} (h : i.Fresh w) {m : RefsMemo Body Bytes}
    (hm : i.snapshot w = .ok m) : i.db.listRefs = .ok (m.head, m.refs) ∧
      m.version = i.db.refs_version ∧ m.kind = i.db.objKind ∧ m.pinned = i.pinned := by
  obtain ⟨hok, hhit⟩ := h.snapshot hm
  simp only [Instance.hits, Bool.and_eq_true, decide_eq_true_eq] at hhit
  exact ⟨hok.fresh hhit.1.1, hhit.1.1, hhit.1.2, hhit.2⟩

/-- A route that gets no snapshot fails as the list does. -/
theorem Instance.listRefs_of_snapshot {i : Instance Body Bytes} {e : Error}
    (h : i.snapshot w = .error e) : i.db.listRefs = .error e := by
  unfold Instance.snapshot at h
  cases hmemo : i.memo.filter i.hits with
  | some m =>
    rw [hmemo] at h
    cases h
  | none =>
    rw [hmemo] at h
    unfold Instance.render at h
    cases hlist : i.db.listRefs with
    | error e' =>
      rw [hlist] at h
      cases h
      rfl
    | ok v =>
      rw [hlist] at h
      cases h

/-- From a fresh snapshot `refs_route` answers as the database would. -/
theorem Instance.Fresh.refsRoute {i : Instance Body Bytes} (h : i.Fresh w) :
    (i.refsRoute w).1 = i.freshRefs w ∧ (i.refsRoute w).2.Fresh w := by
  unfold Instance.refsRoute Instance.freshRefs
  cases hm : i.snapshot w with
  | error e =>
    rw [Instance.listRefs_of_snapshot hm]
    exact ⟨rfl, h⟩
  | ok m =>
    obtain ⟨hview, hversion, hkind, hpinned⟩ := h.view hm
    obtain ⟨hok, -⟩ := h.snapshot hm
    rw [hview]
    constructor
    · show Except.ok (m.json, m.version) = .ok (_, _)
      rw [hok.json, hversion, hkind, hpinned]
    · rintro m ⟨⟩
      exact hok

/-- From a fresh snapshot `ls_refs` answers as the database would. -/
theorem Instance.Fresh.lsRefs [DecidableEq Body] {i : Instance Body Bytes} (h : i.Fresh w)
    (body : Body) :
    (i.lsRefs w body).1 = i.freshLs w body ∧ (i.lsRefs w body).2.Fresh w := by
  unfold Instance.lsRefs Instance.freshLs
  cases hm : i.snapshot w with
  | error e =>
    rw [Instance.listRefs_of_snapshot hm]
    exact ⟨rfl, h⟩
  | ok m =>
    obtain ⟨hview, -, hkind, hpinned⟩ := h.view hm
    obtain ⟨hok, -⟩ := h.snapshot hm
    rw [hview]
    show _ = w.lsAnswer i.db.objKind i.pinned m.head m.refs body ∧ _
    dsimp only
    cases hfind : m.ls.find? fun e => e.1 = body with
    | some e =>
      have hls := hok.ls e (List.mem_of_find?_eq_some hfind)
      have hbody : e.1 = body := by simpa using List.find?_some hfind
      rw [hkind, hpinned, hbody] at hls
      refine ⟨hls.symm, ?_⟩
      rintro m ⟨⟩
      exact hok
    | none =>
      cases hout : w.lsAnswer i.db.objKind i.pinned m.head m.refs body with
      | error e =>
        refine ⟨rfl, ?_⟩
        rintro m ⟨⟩
        exact hok
      | ok out =>
        refine ⟨rfl, ?_⟩
        rintro m' ⟨⟩
        refine ⟨hok.bound, hok.fresh, hok.json, fun e he => ?_⟩
        rcases List.mem_append.mp he with he | he
        · refine hok.ls e ?_
          split_ifs at he
          · exact List.mem_of_mem_tail he
          · exact he
        · rw [List.mem_singleton.mp he, hkind, hpinned]
          exact hout

/-- A step that moves the version whenever it changes a ref or the head keeps a snapshot fresh. -/
theorem MemoOk.step {s t : Db} {m : RefsMemo Body Bytes} (h : MemoOk w s m)
    (hle : s.refs_version ≤ t.refs_version)
    (hmoves : t.refs ≠ s.refs ∨ t.head ≠ s.head → s.refs_version < t.refs_version) :
    MemoOk w t m := by
  refine ⟨h.bound.trans hle, fun hv => ?_, h.json, h.ls⟩
  -- The version did not move, so the refs and the head are those from before.
  have hsame : t.refs_version = s.refs_version := le_antisymm (hv ▸ h.bound) hle
  have hrefs : t.refs = s.refs := by
    by_contra hc
    exact absurd (hmoves (.inl hc)) (by omega)
  have hhead : t.head = s.head := by
    by_contra hc
    exact absurd (hmoves (.inr hc)) (by omega)
  rw [← h.fresh (hv.trans hsame), Db.listRefs, Db.listRefs, hrefs, hhead]

end

/-! ## The version of the refs -/

/-- A commit moves the version up only. -/
theorem commitPush_version (env : Env) (now : ℤ) (req : CommitRequest) (s : Db) :
    s.refs_version ≤ ((commitPush env now req).run s).state.refs_version := by
  rcases commitPush_cases env now req s with ⟨m, -, hs⟩ | ⟨-, -, why, -, hs⟩ |
    ⟨m, -, hs⟩ | ⟨pack, m, -, -, -, hs⟩ | ⟨scopes, P, -, h3, -, hs⟩
  · rw [hs]
  · rw [hs]
    exact le_refl _
  · rw [hs]
    exact le_refl _
  · rw [hs]
    show s.refs_version ≤ (withPending s.barrierActive pack s).refs_version
    unfold withPending addPending bumpRefsVersion
    split_ifs
    · exact Int.le_add_one (le_refl _)
    · exact Int.le_add_one (le_refl _)
    · exact le_refl _
  · rw [hs]
    refine h3.frame.1.trans ?_
    rcases commitCommands_cases env now req s.barrierActive scopes P with ⟨rs, -, -, hst⟩ |
      ⟨-, jobs, seq, events, dropped, hst⟩
    · rw [hst, (rejectAtomic_eq req now _ _ P).2]
      split
      · exact le_refl _
      · split_ifs <;> exact le_refl _
    · rw [hst]
      have hL := (landCommands_frame env P.head req.push_id req.principal now s.barrierActive scopes
        req.commands P).1
      generalize landCommands env P.head req.push_id req.principal now s.barrierActive scopes
        req.commands P = L at hL
      show P.refs_version ≤ (settled (L.1.any fun r => r.2.isNone) req L.2).refs_version
      rw [(settled_frame _ req L.2).2.1]
      split_ifs
      · exact hL.trans (Int.le_add_one (le_refl _))
      · exact hL

/-- So does the commit of an import. -/
theorem commitMeta_version (env : Env) (now : ℤ) (id : ℕ) (lease : Lease) (p : ImportPayload)
    (c : ImportCursor) (m : PackMeta) (s : Db) :
    s.refs_version ≤ ((commitMeta env now id lease p c m).run s).state.refs_version := by
  rcases commitMeta_cases env now id lease p c m s with ⟨-, ht⟩ |
    ⟨-, links, toc, parts, opens, tail, ht⟩
  · rcases ht with ht | ht
    · rw [ht]
    · rw [ht]
      exact le_refl _
  · rw [ht]
    exact commitPush_version env now p.request (prepared now id lease p m s)

/-! ## Runs -/

/-- What a step does, as far as a property names it. -/
inductive MemoAct where
  | importPack (now : ℤ) (id : ℕ) (lease : Lease) (p : ImportPayload) (c : ImportCursor)
      (m : PackMeta)
  | recreate
  | other

section

variable {Body Args Bytes : Type} [DecidableEq Body]

/-- A step of a live instance. All other code writes neither the refs nor the head, and moves the
version up only. After a purge the next request creates the repository again, in the same instance:
the flag of the schema is dropped, and the snapshot is not. -/
inductive MemoStep (env : Env) (w : Wire Body Args Bytes) :
    Instance Body Bytes → MemoAct → Instance Body Bytes → Prop
  | push (now : ℤ) (req : CommitRequest) (i : Instance Body Bytes) :
      MemoStep env w i .other { i with db := ((commitPush env now req).run i.db).state }
  | importPack (now : ℤ) (id : ℕ) (lease : Lease) (p : ImportPayload) (c : ImportCursor)
      (m : PackMeta) (i : Instance Body Bytes) :
      MemoStep env w i (.importPack now id lease p c m)
        { i with db := ((commitMeta env now id lease p c m).run i.db).state }
  | pin (kind : ObjFormat) (i : Instance Body Bytes) :
      MemoStep env w i .other { i with db := ((pinObjFormat kind).run i.db).state }
  | recreate (now : ℤ) (i : Instance Body Bytes) :
      MemoStep env w i .recreate ⟨boot now, i.memo⟩
  | refsRoute (i : Instance Body Bytes) : MemoStep env w i .other (i.refsRoute w).2
  | lsRefs (body : Body) (i : Instance Body Bytes) : MemoStep env w i .other (i.lsRefs w body).2
  | rest (t : Db) (i : Instance Body Bytes) (refs : t.refs = i.db.refs) (head : t.head = i.db.head)
      (version : i.db.refs_version ≤ t.refs_version) : MemoStep env w i .other { i with db := t }

/-- The states of runs of one instance, from a new repository, whose steps all meet a condition. -/
inductive MemoReach (env : Env) (w : Wire Body Args Bytes)
    (meets : Instance Body Bytes → MemoAct → Prop) : Instance Body Bytes → Prop
  | boot (now : ℤ) : MemoReach env w meets ⟨boot now, none⟩
  | step {i j : Instance Body Bytes} {act : MemoAct} (hi : MemoReach env w meets i)
      (hs : MemoStep env w i act j) (hm : meets i act) : MemoReach env w meets j

/-- No import leaks a head, and no repository is created again under a snapshot. -/
def Versioned (env : Env) (i : Instance Body Bytes) : MemoAct → Prop
  | .importPack now id lease p c m => ¬ HeadLeaks env now id lease p c m i.db
  | .recreate => i.memo = none
  | .other => True

variable {env : Env} {w : Wire Body Args Bytes}

theorem MemoStep.fresh {i j : Instance Body Bytes} {act : MemoAct} (hs : MemoStep env w i act j)
    (hi : i.Fresh w) (hm : Versioned env i act) : j.Fresh w := by
  cases hs with
  | push now req =>
    have hhonest := commitPush_honest env now req i.db
    exact fun m hmem => (hi m hmem).step (commitPush_version env now req i.db) hhonest.2
  | importPack now id lease p c m =>
    have hhonest := (importCommit_honest_iff env now id lease p c m i.db).mpr hm
    exact fun m' hmem =>
      (hi m' hmem).step (commitMeta_version env now id lease p c m i.db) hhonest.2
  | pin kind =>
    have hstate := (pinObjFormat_run kind i.db).1
    intro m hmem
    rw [hstate]
    exact (hi m hmem).step (le_refl _) (by rintro (h | h) <;> exact absurd rfl h)
  | recreate now =>
    intro m hmem
    rw [show i.memo = none from hm] at hmem
    cases hmem
  | refsRoute => exact hi.refsRoute.2
  | lsRefs body => exact (hi.lsRefs body).2
  | rest t _ refs head version =>
    refine fun m hmem => (hi m hmem).step version ?_
    rintro (h | h)
    · exact absurd refs h
    · exact absurd head h

theorem MemoReach.fresh {i : Instance Body Bytes} (hi : MemoReach env w (Versioned env) i) :
    i.Fresh w := by
  induction hi with
  | boot now => exact fun m hm => by cases hm
  | step _ hs hm ih => exact hs.fresh ih hm

/-- In every run of an instance in which no import leaks a head, and no repository is created again
under a snapshot, both routes answer as the database would at that moment. -/
theorem memo_answers_fresh {i : Instance Body Bytes} (hi : MemoReach env w (Versioned env) i) :
    (i.refsRoute w).1 = i.freshRefs w ∧ ∀ body, (i.lsRefs w body).1 = i.freshLs w body :=
  ⟨hi.fresh.refsRoute.1, fun body => (hi.fresh.lsRefs body).1⟩

end

/-- The protocol that writes what it is given. -/
def plainWire : Wire Unit Unit (String × List RefView) where
  refsValue head refs _ _ := (head, refs)
  parseLsRefs _ := .ok (.sha1, ())
  writeLsRefs _ head refs := (head, refs)

/-- An instance whose snapshot was just taken. -/
def taken (db : Db) : Instance Unit (String × List RefView) :=
  (Instance.refsRoute plainWire ⟨db, none⟩).2

/-- The race, after the first push, with a snapshot: the answers are those of the database. -/
theorem memo_answers_fresh_race :
    MemoReach (Env.default fun _ => true) plainWire (Versioned (Env.default fun _ => true))
        (taken raceWon) ∧
      ((taken raceWon).refsRoute plainWire).1 = (taken raceWon).freshRefs plainWire ∧
      ((taken raceWon).lsRefs plainWire ()).1 = (taken raceWon).freshLs plainWire () := by
  have hready : MemoReach (Env.default fun _ => true) plainWire
      (Versioned (Env.default fun _ => true)) ⟨raceReady, none⟩ :=
    .step (.boot 0) (.rest raceReady _ rfl rfl (by decide)) trivial
  have htaken : MemoReach (Env.default fun _ => true) plainWire
      (Versioned (Env.default fun _ => true)) (taken raceWon) :=
    .step (.step hready (.push 4 ⟨1, some 10, "admin", [⟨0, 7, "refs/heads/a", none⟩], true⟩ _)
      trivial)
      (.refsRoute _) trivial
  obtain ⟨hrefs, hls⟩ := memo_answers_fresh htaken
  exact ⟨htaken, hrefs, hls ()⟩

/-- The import that leaks a head, after a snapshot. -/
def leakedHead : Instance Unit (String × List RefView) :=
  { taken lateImport with
    db := ((commitMeta (Env.default fun _ => true) 8 9 77 lateImportPayload lateImportCursor
      ⟨1, 100⟩).run lateImport).state }

/-- The repository of the race is purged and created again after a snapshot, and another branch is
pushed to it. -/
def purgedRace : Instance Unit (String × List RefView) :=
  { taken raceWon with
    db := ((commitPush (Env.default fun _ => true) 4 ⟨1, some 10, "admin",
      [⟨0, 8, "refs/heads/b", none⟩], true⟩).run raceReady).state }

/-- Two answers that are not those of the database: after an import that leaks a head, and after the
repository was created again. -/
theorem memo_answers_stale :
    (MemoReach (Env.default fun _ => true) plainWire (fun _ _ => True) leakedHead ∧
        ((leakedHead.refsRoute plainWire).1.map (·.1.1)) = .ok "refs/heads/a" ∧
        leakedHead.db.head = "refs/heads/b" ∧
        (leakedHead.refsRoute plainWire).1 ≠ leakedHead.freshRefs plainWire) ∧
      MemoReach (Env.default fun _ => true) plainWire (fun _ _ => True) purgedRace ∧
        ((purgedRace.refsRoute plainWire).1.map (·.1.2)) = .ok [⟨"refs/heads/a", 7, none⟩] ∧
        purgedRace.db.target "refs/heads/a" = none ∧
        (purgedRace.refsRoute plainWire).1 ≠ purgedRace.freshRefs plainWire := by
  have hindexed : MemoReach (Env.default fun _ => true) plainWire (fun _ _ => True)
      ⟨((pushIndex 2 ⟨10, 1, 1, 100⟩ [⟨⟨7, 10, 0, 12, 50, .commit, 40⟩, some []⟩]).run
        ((pushBegin (Env.default fun _ => true) 1 .off ⟨1, "admin", "", true, none⟩).run
          (boot 0)).state).state, none⟩ :=
    .step (.boot 0) (.rest _ _ rfl rfl (by decide)) trivial
  have hlate : MemoReach (Env.default fun _ => true) plainWire (fun _ _ => True)
      ⟨lateImport, none⟩ :=
    .step (.step hindexed (.push 3 ⟨1, some 10, "admin",
      [⟨0, 7, "refs/heads/a", none⟩, ⟨0, 7, "refs/heads/b", none⟩], true⟩ _) trivial)
      (.rest lateImport _ rfl rfl (by decide)) trivial
  have hversion : (boot 0).refs_version ≤ raceReady.refs_version := by decide
  have hready : ∀ memo, MemoReach (Env.default fun _ => true) plainWire (fun _ _ => True)
      ⟨boot 0, memo⟩ → MemoReach (Env.default fun _ => true) plainWire (fun _ _ => True)
        ⟨raceReady, memo⟩ := fun memo hi =>
    .step hi (.rest raceReady _ rfl rfl hversion) trivial
  have hwon := MemoReach.step (hready _ (.boot 0)) (.push 4 ⟨1, some 10, "admin",
    [⟨0, 7, "refs/heads/a", none⟩], true⟩ _) trivial
  have hagain := hready _ (.step (.step hwon (.refsRoute _) trivial) (.recreate 0 _) trivial)
  refine ⟨⟨?_, by decide, by decide, by decide⟩, ?_, by decide, by decide, by decide⟩
  · exact .step (.step hlate (.refsRoute _) trivial)
      (.importPack 8 9 77 lateImportPayload lateImportCursor ⟨1, 100⟩ _) trivial
  · exact .step hagain (.push 4 ⟨1, some 10, "admin", [⟨0, 8, "refs/heads/b", none⟩], true⟩ _)
      trivial

end GitEdge
