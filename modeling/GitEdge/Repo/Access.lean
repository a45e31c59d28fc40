import Mathlib.Data.List.DropRight
import GitEdge.Jobs.Imports

/-!
# Credentials over the life of a push

A push is opened with one credential, may be handed its commands by another request, and writes its
refs later, in the span of its commit or of its import's. `Access` is the repository with two ghost
records: which request opened each push, with the scope that was captured, and on whose behalf
each import job was queued. Tokens may change between any two steps, and the clock is an argument of
each.

- `Access.Opened`: every push row carries the credential and the scope of a request that opened it.
  With the check that a commit makes, a ref is written only with a credential that still stands
  (`ref_write_authorised`).
- `Access.Submitted`: the commands of a staged import are those of the request that queued it. The
  start of an import checks them against the scope of whoever opened the push, and never against the
  submitter's (`import_borrows_scope`); where the submitter's scope covers them, an import stays
  within it (`import_within_submitter`).
-/

namespace GitEdge

open Sql

/-! ## Texts -/

theorem toList_trim (s : String) :
    (trim s).toList = (s.toList.dropWhile isWhite).rdropWhile isWhite := String.toList_ofList

/-- Trimming twice is trimming once. -/
theorem trim_trim (s : String) : trim (trim s) = trim s := by
  have hkey : ∀ l : List Char, ((l.dropWhile isWhite).rdropWhile isWhite).dropWhile isWhite =
      (l.dropWhile isWhite).rdropWhile isWhite := by
    intro l
    rw [List.dropWhile_eq_self_iff]
    intro hpos
    -- The first character survives the cut at the end, and the cut at the start left it.
    have hfront := List.rdropWhile_prefix isWhite (l.dropWhile isWhite)
    have hpos' := lt_of_lt_of_le hpos hfront.length_le
    rw [hfront.getElem hpos]
    exact List.dropWhile_eq_self_iff.mp (List.dropWhile_idempotent _ l) hpos'
  show String.ofList (((trim s).toList.dropWhile isWhite).rdropWhile isWhite) = _
  have htrim := toList_trim s
  rw [htrim, hkey, List.rdropWhile_idempotent, ← htrim, String.ofList_toList]

/-- A trimmed scope covers the same refs. -/
theorem scopeAllows_nonempty (scope : Option String) (name : String) :
    scopeAllows (nonempty scope) name = scopeAllows scope name := by
  have hidem : nonempty (nonempty scope) = nonempty scope := by
    cases scope with
    | none => rfl
    | some s =>
      simp only [nonempty, Option.map_some, Option.filter]
      split_ifs with h
      · simp only [Option.map_some, trim_trim, h, if_true]
      · rfl
  unfold scopeAllows
  rw [hidem]

/-- A trimmed text keeps some of the characters. -/
theorem mem_trim {s : String} {c : Char} (h : c ∈ (trim s).toList) : c ∈ s.toList := by
  rw [toList_trim] at h
  have hfront := List.rdropWhile_prefix isWhite (s.toList.dropWhile isWhite)
  exact (List.dropWhile_suffix _).subset (hfront.subset h)

/-! ## Credentials -/

/-- A key as the edge makes it, the digest of the token in lower case hexadecimal. -/
def isDigest (key : String) : Bool :=
  key.toList.length = 40 && key.toList.all fun c => c.isDigit || ('a' ≤ c && c ≤ 'f')

/-- A digest is not the administrator's marker, trimmed or not. -/
theorem trim_ne_adminAuth {key : String} (h : isDigest key = true) : trim key ≠ adminAuth := by
  intro he
  have hm : 'm' ∈ (trim key).toList := by rw [he]; decide
  simp only [isDigest, Bool.and_eq_true, List.all_eq_true] at h
  exact absurd (h.2 'm' (mem_trim hm)) (by decide)

/-- A request that begins a push comes from the edge: without the administrator's flag its key is a
digest. -/
def BeginDto.FromEdge (b : BeginDto) : Prop := b.admin = false → isDigest b.key = true

/-- A live token with write access whose scope covers a ref. -/
def Db.TokenCovers (db : Db) (now : ℤ) (key : String) (name : String) : Prop :=
  ∃ t ∈ db.tokens, t.hash = key ∧ tokenLive t.expires_at now = true ∧ t.level = .write ∧
    nonempty t.scope ≠ none ∧ scopeAllows t.scope name = true

/-- A commit accepts the marker of a token only while the token is live, may write, and has a scope,
which is the one that the commands are then held against. -/
theorem commitAuth_token {db : Db} {now : ℤ} {key : String} {current captured : Option String}
    {name : String} (hkey : isDigest key = true)
    (h : commitAuth (some key) (db.tokenRow (some key) now) = .ok current)
    (hcover : scopeAllows (current.or captured) name = true) : db.TokenCovers now key name := by
  unfold commitAuth at h
  split at h
  · cases h
  · rename_i a ha
    -- The marker is the key, up to blanks, and so not the administrator's.
    have hna : a ≠ adminAuth := by
      simp only [nonempty, Option.map_some, Option.filter] at ha
      split_ifs at ha
      cases ha
      exact trim_ne_adminAuth hkey
    rw [if_neg hna] at h
    cases hrow : db.tokenRow (some key) now with
    | none => simp [hrow] at h
    | some row =>
      obtain ⟨level, scope⟩ := row
      simp only [hrow] at h
      split_ifs at h with hlevel
      cases hscope : nonempty scope with
      | none => simp [hscope] at h
      | some sc =>
        simp only [hscope, Except.ok.injEq] at h
        subst h
        unfold Db.tokenRow Db.liveToken at hrow
        simp only at hrow
        split_ifs at hrow
        obtain ⟨t, ht, hts⟩ := Option.map_eq_some_iff.mp hrow
        obtain ⟨hfind, hlive⟩ := Option.filter_eq_some_iff.mp ht
        simp only [Prod.mk.injEq] at hts
        refine ⟨t, List.mem_of_find?_eq_some hfind, ?_, hlive, ?_, ?_, ?_⟩
        · simpa using List.find?_some hfind
        · rw [hts.1]
          exact not_not.mp hlevel
        · rw [hts.2, hscope]
          exact Option.some_ne_none sc
        · rw [hts.2, ← scopeAllows_nonempty, hscope]
          exact hcover

/-! ## The requests -/

/-- The credential of a request. -/
structure Caller where
  key : String
  admin : Bool

/-- The caller has write access. -/
def Db.MayWrite (db : Db) (now : ℤ) (c : Caller) : Prop :=
  c.admin = true ∨ ∃ scope, db.liveToken c.key now = some (.write, scope)

/-- The scope of the caller. -/
def Db.callerScope (db : Db) (now : ℤ) (c : Caller) : Option String :=
  if c.admin then some allRefs else (db.liveToken c.key now).bind (·.2)

/-! ## The system -/

/-- The staged commands of an import job, and the scope of the credential that submitted them. -/
structure Submission where
  job : ℕ
  commands : List Cmd
  scope : Option String
deriving DecidableEq

/-- The repository, with the requests that opened pushes and the scopes that these captured, and the
submissions of staged imports. -/
structure Access where
  db : Db
  opened : List (BeginDto × String)
  submitted : List Submission

/-- What a step does, as far as a property names it. -/
inductive Act where
  | push (now : ℤ) (push : PushId)
  | importPack (now : ℤ) (push : PushId) (job : ℕ)
  | start (now : ℤ) (caller : Caller) (b : StartBody)
  | other

/-- The submissions of a request to start an import. -/
def StartBody.submits (env : Env) (ns : String) (now : ℤ) (caller : Caller) (b : StartBody)
    (db : Db) : List Submission :=
  if b.url.isSome then []
  else
    ((b.queues env ns db).map fun q =>
      ⟨db.job_seq + 1, q.2, db.callerScope now caller⟩).toList

/-- A step of the repository. The last rule stands for all other code: it writes no ref, opens no
push, and queues no import. -/
inductive AccessStep (env : Env) (ns : String) : Access → Act → Access → Prop
  | begin (now : ℤ) (rule : RateRule) (b : BeginDto) (edge : b.FromEdge) (a : Access) :
      AccessStep env ns a .other
        { a with
          db := ((pushBegin env now rule b).run a.db).state
          opened := a.opened ++ ((b.opens env now rule a.db).map fun scope => (b, scope)).toList }
  | index (now : ℤ) (m : PackDto) (rows : List PostedRow) (a : Access) :
      AccessStep env ns a .other { a with db := ((pushIndex now m rows).run a.db).state }
  | push (now : ℤ) (req : CommitRequest) (a : Access) :
      AccessStep env ns a (.push now req.push_id)
        { a with db := ((commitPush env now req).run a.db).state }
  | start (now : ℤ) (caller : Caller) (b : StartBody) (a : Access)
      (auth : a.db.MayWrite now caller) :
      AccessStep env ns a (.start now caller b)
        { a with
          db := ((importStart env ns now b).run a.db).state
          submitted := a.submitted ++ b.submits env ns now caller a.db }
  | importPack (now : ℤ) (lease : Lease) (p : ImportPayload) (c : ImportCursor) (m : PackMeta)
      (j : Job) (a : Access) (job : j ∈ a.db.jobs) (payload : j.payload = .import p) :
      AccessStep env ns a (.importPack now p.push j.id)
        { a with db := ((commitMeta env now j.id lease p c m).run a.db).state }
  | tokens (tokens : Table TokenRow TokenRow.id) (a : Access) :
      AccessStep env ns a .other { a with db := { a.db with tokens := tokens } }
  | rest (t : Db) (a : Access) (refs : t.refs = a.db.refs)
      (credentials : ∀ r' ∈ t.pushes, ∃ r ∈ a.db.pushes, r.id = r'.id ∧ r.auth = r'.auth ∧
        r.scope = r'.scope)
      (imports : SameImports a.db t) : AccessStep env ns a .other { a with db := t }

/-- The states of runs from a new repository whose steps all meet a condition. -/
inductive Access.Reach (env : Env) (ns : String) (meets : Access → Act → Prop) : Access → Prop
  | boot (now : ℤ) : Access.Reach env ns meets ⟨boot now, [], []⟩
  | step {a a' : Access} {act : Act} (ha : Access.Reach env ns meets a)
      (hs : AccessStep env ns a act a') (hm : meets a act) : Access.Reach env ns meets a'

section

variable {env : Env} {ns : String} {meets : Access → Act → Prop}

/-! ## Who opened a push -/

/-- Every push row carries the credential and the scope of a request that opened it. -/
def Access.Opened (a : Access) : Prop :=
  ∀ r ∈ a.db.pushes, ∃ o ∈ a.opened, o.1.FromEdge ∧ o.1.push_id = r.id ∧
    r.auth = some o.1.auth ∧ r.scope = some o.2

theorem Access.Opened.step {a a' : Access} {act : Act} (h : a.Opened)
    (hs : AccessStep env ns a act a') : a'.Opened := by
  -- A step that adds no push row and changes no credential.
  have hkept : ∀ t : Db, (∀ r' ∈ t.pushes, ∃ r ∈ a.db.pushes, r.id = r'.id ∧ r.auth = r'.auth ∧
      r.scope = r'.scope) → ∀ r' ∈ t.pushes, ∃ o ∈ a.opened, o.1.FromEdge ∧ o.1.push_id = r'.id ∧
        r'.auth = some o.1.auth ∧ r'.scope = some o.2 := by
    intro t ht r' hr'
    obtain ⟨r, hr, hid, hauth, hscope⟩ := ht r' hr'
    obtain ⟨o, ho, hedge, hoid, hoauth, hoscope⟩ := h r hr
    exact ⟨o, ho, hedge, hoid.trans hid, hauth ▸ hoauth, hscope ▸ hoscope⟩
  have hsame : ∀ t : Db, t.pushes = a.db.pushes → ∀ r' ∈ t.pushes, ∃ o ∈ a.opened,
      o.1.FromEdge ∧ o.1.push_id = r'.id ∧ r'.auth = some o.1.auth ∧ r'.scope = some o.2 :=
    fun t ht r' hr' => h r' (ht ▸ hr')
  cases hs with
  | begin now rule b edge =>
    intro r hr
    obtain ⟨rate, hstate⟩ := pushBegin_state env now rule b a.db
    rw [hstate] at hr
    cases hopens : b.opens env now rule a.db with
    | none =>
      rw [hopens] at hr
      obtain ⟨o, ho, hrest⟩ := h r hr
      exact ⟨o, by simp [ho], hrest⟩
    | some scope =>
      rw [hopens] at hr
      rcases Table.mem_insertIgnore.mp hr with hr | ⟨rfl, -⟩
      · obtain ⟨o, ho, hrest⟩ := h r hr
        exact ⟨o, by simp [ho], hrest⟩
      · exact ⟨(b, scope), by simp, edge, rfl, rfl, rfl⟩
  | index now m rows => exact hsame _ (pushIndex_frame now m rows a.db).2.1
  | push now req => exact hkept _ (commitPush_kept env now req a.db).credentials
  | start now caller b =>
    refine hsame _ ?_
    rw [importStart_state]
    split <;> rfl
  | importPack now lease p c m j =>
    exact hkept _ (commitMeta_kept env now j.id lease p c m a.db).credentials
  | tokens => exact h
  | rest t _ refs credentials imports => exact hkept t credentials

theorem Access.Reach.opened {a : Access} (ha : Access.Reach env ns meets a) : a.Opened := by
  induction ha with
  | boot now =>
    obtain ⟨jobs, seq, he⟩ := enqueue_eq .janitor now .none .fresh
    intro r hr
    rw [show (GitEdge.boot now).pushes = Table.empty by rw [GitEdge.boot, he]; rfl] at hr
    exact absurd hr (Table.not_mem_empty r)
  | step _ hs _ ih => exact ih.step hs

/-- A push may write a ref now: it was opened by the administrator, or its token still stands, and
both the captured scope and the token's cover the ref. -/
def Access.Authorised (a : Access) (now : ℤ) (push : PushId) (name : String) : Prop :=
  ∃ o ∈ a.opened, o.1.push_id = push ∧ (o.1.admin = true ∨
    scopeAllows (some o.2) name = true ∧ a.db.TokenCovers now o.1.key name)

theorem Access.Opened.authorised {a : Access} (h : a.Opened) {now : ℤ} {push : PushId}
    {name : String} (hg : a.db.Grants now push name) : a.Authorised now push name := by
  obtain ⟨row, current, hfind, hauth, hscope, hcurrent⟩ := hg
  obtain ⟨hmem, hid⟩ := Table.find_eq_some.mp hfind
  obtain ⟨o, ho, hedge, hoid, hoauth, hoscope⟩ := h row hmem
  refine ⟨o, ho, hoid.trans hid, ?_⟩
  cases hadmin : o.1.admin with
  | true => exact .inl rfl
  | false =>
    right
    rw [hoscope] at hscope
    rw [hoauth, BeginDto.auth, hadmin] at hauth
    exact ⟨hscope, commitAuth_token (hedge hadmin) hauth hcurrent⟩

/-- In every run, a ref is created, changed or deleted only in the commit of a push or of its
import, at a time at which the push may write it. -/
theorem ref_write_authorised {a a' : Access} {act : Act} (ha : Access.Reach env ns meets a)
    (hs : AccessStep env ns a act a') (name : String)
    (hchanged : a'.db.refs.find name ≠ a.db.refs.find name) :
    ∃ now push, (act = .push now push ∨ ∃ job, act = .importPack now push job) ∧
      a.Authorised now push name := by
  have hopened := ha.opened
  cases hs with
  | begin now rule b edge =>
    obtain ⟨rate, hstate⟩ := pushBegin_state env now rule b a.db
    rw [hstate] at hchanged
    dsimp only at hchanged
    split at hchanged <;> exact absurd rfl hchanged
  | index now m rows => exact absurd (by rw [(pushIndex_frame now m rows a.db).1]) hchanged
  | push now req =>
    obtain ⟨hg, -⟩ := commitPush_changed env now req a.db name hchanged
    exact ⟨now, req.push_id, .inl rfl, hopened.authorised hg⟩
  | start now caller b =>
    rw [importStart_state] at hchanged
    split at hchanged <;> exact absurd rfl hchanged
  | importPack now lease p c m j =>
    obtain ⟨hg, -⟩ := commitMeta_changed env now j.id lease p c m a.db name hchanged
    exact ⟨now, p.push, .inr ⟨j.id, rfl⟩, hopened.authorised hg⟩
  | tokens => exact absurd rfl hchanged
  | rest t _ refs credentials imports => exact absurd (by rw [refs]) hchanged

/-- A token for all branches, and one for the branches below `dev`. -/
def exampleTokens : Table TokenRow TokenRow.id :=
  ⟨[⟨1, "aaaaaaaaaaaaaaaaaaaaaaaaaaaaaaaaaaaaaaaa", .write, some "refs/heads/*", none⟩,
    ⟨2, "bbbbbbbbbbbbbbbbbbbbbbbbbbbbbbbbbbbbbbbb", .write, some "refs/heads/dev/*",
      none⟩], by decide⟩

/-- The request that opens a push with the first token. -/
def exampleBegin : BeginDto := ⟨1, "a", "aaaaaaaaaaaaaaaaaaaaaaaaaaaaaaaaaaaaaaaa", false, none⟩

/-- That push, with its pack indexed. -/
def exampleOpen : Access where
  db := ((pushIndex 2 ⟨10, 1, 1, 100⟩ [⟨⟨7, 10, 0, 12, 30, .commit, 40⟩, some []⟩]).run
    ((pushBegin (Env.default fun _ => true) 1 .off exampleBegin).run
      { boot 0 with tokens := exampleTokens }).state).state
  opened := [(exampleBegin, "refs/heads/*")]
  submitted := []

/-- A push with the first token creates a branch. -/
theorem ref_write_authorised_token :
    Access.Reach (Env.default fun _ => true) "r/1/pending/" (fun _ _ => True) exampleOpen ∧
      exampleOpen.Authorised 3 1 "refs/heads/main" := by
  have hreach : Access.Reach (Env.default fun _ => true) "r/1/pending/" (fun _ _ => True)
      exampleOpen :=
    .step (.step (.step (.boot 0) (.tokens exampleTokens _) trivial)
      (.begin 1 .off exampleBegin (fun _ => by decide) _) trivial)
      (.index 2 ⟨10, 1, 1, 100⟩ [⟨⟨7, 10, 0, 12, 30, .commit, 40⟩, some []⟩] _) trivial
  refine ⟨hreach, ?_⟩
  obtain ⟨now, push, hact, hauth⟩ := ref_write_authorised hreach
    (.push 3 ⟨1, some 10, "a", [⟨0, 7, "refs/heads/main", none⟩], true⟩ exampleOpen)
    "refs/heads/main" (by decide)
  rcases hact with hact | ⟨job, hact⟩
  · cases hact
    exact hauth
  · cases hact

/-! ## Who submitted an import -/

/-- The commands of a staged import job are those of its submission. -/
structure Access.Submitted (a : Access) : Prop where
  jobs : ∀ j ∈ a.db.jobs, ∀ p, j.payload = .import p → j.id ≤ a.db.job_seq ∧
    ∀ x ∈ a.submitted, x.job = j.id → p.url = none ∧ p.commands = x.commands
  seq : ∀ x ∈ a.submitted, x.job ≤ a.db.job_seq

/-- A step that queues no import. -/
theorem Access.Submitted.same {a a' : Access} (h : a.Submitted)
    (hsame : a'.submitted = a.submitted) (ht : SameImports a.db a'.db) : a'.Submitted := by
  refine ⟨fun j' hj' p' hp' => ?_, fun x hx => (h.seq x (hsame ▸ hx)).trans ht.seq⟩
  obtain ⟨j, hj, p, hid, hp, hurl, hcmd⟩ := ht.jobs j' hj' p' hp'
  obtain ⟨hseq, hsub⟩ := h.jobs j hj p hp
  rw [hsame]
  refine ⟨hid ▸ hseq.trans ht.seq, fun x hx hxj => ?_⟩
  obtain ⟨hnone, hcommands⟩ := hsub x hx (hxj.trans hid.symm)
  exact ⟨hurl ▸ hnone, (hcmd hnone).symm.trans hcommands⟩

theorem Access.Submitted.step {a a' : Access} {act : Act} (h : a.Submitted)
    (hs : AccessStep env ns a act a') : a'.Submitted := by
  cases hs with
  | begin now rule b edge =>
    refine h.same rfl ?_
    obtain ⟨rate, hstate⟩ := pushBegin_state env now rule b a.db
    rw [hstate]
    dsimp only
    split <;> exact .same rfl rfl
  | index now m rows =>
    obtain ⟨-, -, hjobs, hseq⟩ := pushIndex_frame now m rows a.db
    exact h.same rfl (.same hjobs hseq)
  | push now req => exact h.same rfl (sameImports_commitPush env now req a.db)
  | start now caller b =>
    rw [importStart_state]
    unfold StartBody.submits
    cases hqueues : b.queues env ns a.db with
    | none =>
      simp only [Option.map_none, Option.toList_none, ite_self, List.append_nil]
      exact h.same rfl (.same rfl rfl)
    | some q =>
      -- The new job has an id of its own, and the commands of the request unless it has a url.
      have hnew : ∀ x ∈ a.submitted, x.job < a.db.job_seq + 1 := fun x hx =>
        Nat.lt_succ_of_le (h.seq x hx)
      have hold : ∀ j ∈ a.db.jobs, ∀ p, j.payload = .import p → j.id < a.db.job_seq + 1 :=
        fun j hj p hp => Nat.lt_succ_of_le (h.jobs j hj p hp).1
      simp only [Option.map_some, Option.toList_some]
      refine ⟨fun j hj p hp => ?_, fun x hx => ?_⟩
      · rcases Table.mem_insertIgnore.mp hj with hj | ⟨rfl, -⟩
        · refine ⟨(hold j hj p hp).le, fun x hx hxj => ?_⟩
          rcases List.mem_append.mp hx with hx | hx
          · exact (h.jobs j hj p hp).2 x hx hxj
          · -- The new submission is for the new job.
            have hlt := hold j hj p hp
            split_ifs at hx
            · cases hx
            · rw [List.mem_singleton] at hx
              subst hx
              exact absurd hxj hlt.ne'
        · refine ⟨le_refl _, fun x hx hxj => ?_⟩
          cases hp
          rcases List.mem_append.mp hx with hx | hx
          · exact absurd hxj (hnew x hx).ne
          · split_ifs at hx with hurl
            · cases hx
            · rw [List.mem_singleton] at hx
              subst hx
              have hnone : b.url = none := by simpa using hurl
              exact ⟨hnone, by rfl⟩
      · rcases List.mem_append.mp hx with hx | hx
        · exact (hnew x hx).le
        · split_ifs at hx
          · cases hx
          · rw [List.mem_singleton] at hx
            subst hx
            exact le_refl _
  | importPack now lease p c m j =>
    exact h.same rfl (sameImports_commitMeta env now j.id lease p c m a.db)
  | tokens => exact h.same rfl (.same rfl rfl)
  | rest t _ refs credentials imports => exact h.same rfl imports

theorem Access.Reach.submitted {a : Access} (ha : Access.Reach env ns meets a) : a.Submitted := by
  induction ha with
  | boot now =>
    refine ⟨fun j hj p hp => ?_, fun x hx => by cases hx⟩
    -- The janitor's job is the only one.
    obtain ⟨q, hq, -⟩ := (sameImports_enqueue .janitor now .fresh).jobs j hj p hp
    exact absurd hq (Table.not_mem_empty q)
  | step _ hs _ ih => exact ih.step hs

/-- A request to start a staged import submits only commands that the caller's own scope covers. -/
def Covered (a : Access) : Act → Prop
  | .start now caller b =>
    b.url = none → ∀ c ∈ b.commands, ∀ cmd, c.parsed = .ok cmd →
      scopeAllows (a.db.callerScope now caller) cmd.name = true
  | _ => True

theorem Access.Reach.covered {a : Access} (ha : Access.Reach env ns Covered a) :
    ∀ x ∈ a.submitted, ∀ c ∈ x.commands, scopeAllows x.scope c.name = true := by
  induction ha with
  | boot now => exact fun x hx => by cases hx
  | @step a a' act _ hs hm ih =>
    cases hs with
    | start now caller b =>
      intro x hx c hc
      rcases List.mem_append.mp hx with hx | hx
      · exact ih x hx c hc
      · unfold StartBody.submits at hx
        split_ifs at hx with hurl
        · cases hx
        · rw [Option.mem_toList] at hx
          obtain ⟨q, hq, rfl⟩ := Option.mem_map.mp hx
          obtain ⟨cb, hcb, hparsed⟩ := StartBody.queues_commands hq (by simpa using hurl) c hc
          exact hm (by simpa using hurl) cb hcb c hparsed
    | begin | index | push | importPack | tokens | rest => exact ih

/-- In every run in which each staged import is submitted with commands that the submitter's own
scope covers, every ref that such an import changes is covered by that scope. -/
theorem import_within_submitter {a a' : Access} {now : ℤ} {push : PushId} {job : ℕ}
    (ha : Access.Reach env ns Covered a) (hs : AccessStep env ns a (.importPack now push job) a')
    {x : Submission} (hx : x ∈ a.submitted) (hjob : x.job = job) (name : String)
    (hchanged : a'.db.refs.find name ≠ a.db.refs.find name) : scopeAllows x.scope name = true := by
  cases hs with
  | importPack _ lease p c m j _ hj hp =>
    obtain ⟨-, cmd, hcmd, rfl⟩ := commitMeta_changed env now j.id lease p c m a.db name hchanged
    obtain ⟨-, hcommands⟩ := (ha.submitted.jobs j hj p hp).2 x hx hjob
    rw [hcommands] at hcmd
    exact ha.covered x hx cmd hcmd

/-- The caller with the second token. -/
def borrower : Caller := ⟨"bbbbbbbbbbbbbbbbbbbbbbbbbbbbbbbbbbbbbbbb", false⟩

/-- The request that the borrower makes for the administrator's push. -/
def borrowStart (name : String) : StartBody :=
  ⟨1, 10, [⟨some "r/1/pending/1", some 40⟩], [⟨some name, .ok ⟨0, 7, name, none⟩⟩], none, none⟩

/-- The administrator's push. -/
def borrowOpen : Access where
  db := ((pushBegin (Env.default fun _ => true) 1 .off ⟨1, "admin", "", true, none⟩).run
    { boot 0 with tokens := exampleTokens }).state
  opened := [(⟨1, "admin", "", true, none⟩, "refs/*")]
  submitted := []

/-- The import that the borrower submits for it. -/
def borrowQueued (name : String) : Access where
  db := ((importStart (Env.default fun _ => true) "r/1/pending/" 2 (borrowStart name)).run
    borrowOpen.db).state
  opened := borrowOpen.opened
  submitted := borrowOpen.submitted ++ (borrowStart name).submits (Env.default fun _ => true)
    "r/1/pending/" 2 borrower borrowOpen.db

/-- The pack of an import is written, and its job runs the last slice. -/
def lastSlice (db : Db) : Db :=
  let db := ((insertObjects 10 [⟨⟨7, 10, 0, 12, 30, .commit, 40⟩, some []⟩]).run db).state
  { db with
    jobs := db.jobs.updateWhere (fun j => j.id = 2)
      (fun j => { j with state := .running, lease := some 77 }) fun _ => rfl }

/-- The borrower's import in its last slice. -/
def borrowReady (name : String) : Access :=
  { borrowQueued name with db := lastSlice (borrowQueued name).db }

theorem lastSlice_step (env : Env) (ns : String) (a : Access) :
    AccessStep env ns a .other { a with db := lastSlice a.db } := by
  refine .rest _ a rfl (fun r hr => ⟨r, hr, rfl, rfl, rfl⟩) ?_
  exact SameImports.trans (.same rfl rfl) (.update (by exact fun _ => rfl) rfl (fun _ => rfl) rfl)

/-- The payload of the job. -/
def borrowPayload (name : String) : ImportPayload := (borrowStart name).payload "admin" [⟨0, 7, name, none⟩]

/-- Its cursor. -/
def borrowCursor : ImportCursor := ⟨.commit, 0, 1, 1, [], none, none, none, some 0, false, 0, 0⟩

/-- The import when it has ended. -/
def borrowDone (name : String) : Access :=
  { borrowReady name with
    db := ((commitMeta (Env.default fun _ => true) 6 2 77 (borrowPayload name) borrowCursor
      ⟨1, 100⟩).run (borrowReady name).db).state }

/-- The run up to the last slice, under a condition that the start of the import meets. -/
theorem borrowReady_reach (name : String) (meets : Access → Act → Prop)
    (hother : ∀ a, meets a .other)
    (hstart : meets borrowOpen (.start 2 borrower (borrowStart name))) :
    Access.Reach (Env.default fun _ => true) "r/1/pending/" meets (borrowReady name) := by
  have hopen : Access.Reach (Env.default fun _ => true) "r/1/pending/" meets borrowOpen :=
    .step (.step (.boot 0) (.tokens exampleTokens _) (hother _))
      (.begin 1 .off ⟨1, "admin", "", true, none⟩ (fun h => by cases h) _) (hother _)
  have hqueued := Access.Reach.step hopen (.start 2 borrower (borrowStart name) borrowOpen
    (.inr ⟨some "refs/heads/dev/*", by decide⟩)) hstart
  exact .step hqueued (lastSlice_step _ _ _) (hother _)

/-- The holder of the second token, whose scope is the branches below `dev`, changes `main`. -/
theorem import_borrows_scope :
    Access.Reach (Env.default fun _ => true) "r/1/pending/" (fun _ _ => True)
        (borrowReady "refs/heads/main") ∧
      AccessStep (Env.default fun _ => true) "r/1/pending/" (borrowReady "refs/heads/main")
        (.importPack 6 1 2) (borrowDone "refs/heads/main") ∧
      (borrowReady "refs/heads/main").submitted =
        [⟨2, [⟨0, 7, "refs/heads/main", none⟩], some "refs/heads/dev/*"⟩] ∧
      (borrowReady "refs/heads/main").db.target "refs/heads/main" = none ∧
      (borrowDone "refs/heads/main").db.target "refs/heads/main" = some 7 ∧
      scopeAllows (some "refs/heads/dev/*") "refs/heads/main" = false := by
  refine ⟨borrowReady_reach _ _ (fun _ => trivial) trivial, ?_, by decide, by decide, by decide,
    by decide⟩
  exact .importPack 6 77 (borrowPayload "refs/heads/main") borrowCursor ⟨1, 100⟩
    { Job.fresh 2 .importPack 2 (.import (borrowPayload "refs/heads/main")) with
      state := .running, lease := some 77 } _ (Table.mem_def.mpr (by decide)) rfl

/-- An import of a branch below `dev` that the same caller submits. -/
theorem import_within_submitter_dev :
    Access.Reach (Env.default fun _ => true) "r/1/pending/" Covered
    (borrowReady "refs/heads/dev/x") ∧
      (borrowDone "refs/heads/dev/x").db.target "refs/heads/dev/x" = some 7 ∧
      scopeAllows (some "refs/heads/dev/*") "refs/heads/dev/x" = true := by
  have hreach : Access.Reach (Env.default fun _ => true) "r/1/pending/" Covered
      (borrowReady "refs/heads/dev/x") := by
    refine borrowReady_reach _ _ (fun _ => trivial) fun _ c hc cmd hcmd => ?_
    rw [List.mem_singleton.mp hc] at hcmd
    cases hcmd
    decide
  have hstep : AccessStep (Env.default fun _ => true) "r/1/pending/"
    (borrowReady "refs/heads/dev/x")
      (.importPack 6 1 2) (borrowDone "refs/heads/dev/x") :=
    .importPack 6 77 (borrowPayload "refs/heads/dev/x") borrowCursor ⟨1, 100⟩
      { Job.fresh 2 .importPack 2 (.import (borrowPayload "refs/heads/dev/x")) with
        state := .running, lease := some 77 } _ (Table.mem_def.mpr (by decide)) rfl
  have hsub : ⟨2, [⟨0, 7, "refs/heads/dev/x", none⟩], some "refs/heads/dev/*"⟩ ∈
      (borrowReady "refs/heads/dev/x").submitted := by decide
  exact ⟨hreach, by decide, import_within_submitter hreach hstep hsub rfl "refs/heads/dev/x"
    (by decide)⟩

end

end GitEdge
