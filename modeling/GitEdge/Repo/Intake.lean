import GitEdge.Lib.FoldM
import GitEdge.Repo.Push

/-!
# What a refused push leaves

`push_begin` and `import_start` pin the object format in the middle of their checks, and a refusal
does not undo the span, so a call that is refused after the pin leaves it (`refused_pins`). The
tables are never touched by a refused call, and `refused_traceless_iff` says when the pin is not
touched either.
-/

namespace GitEdge

open Sql

variable {e : Error} {ns : String} {b : StartBody} {env : Env} {s : Db}

/-! ## What the two routes do -/

/-- The format that the beginning of a push comes to pin: the cap of packs and the rate limit do not
refuse it, and it declares a format that there is. -/
def BeginDto.pins (env : Env) (now : ℤ) (rule : RateRule) (b : BeginDto) (s : Db) :
    Option ObjFormat :=
  if (s.pushes.find b.push_id).isNone && s.atPackCap env then none
  else
    match ((rateCheck rule now b.key).run s).res, parseKind b.object_format with
    | .ok (), .ok kind => kind
    | _, _ => none

/-- The push of a new import, when it is open and the cap of packs lets the import in. -/
def StartBody.admitted (env : Env) (b : StartBody) (s : Db) : Option PushRow :=
  (s.pushes.find b.push).filter fun st =>
    st.state = .open && !(b.url.isNone && (b.parts.isEmpty || b.commands.isEmpty)) &&
      !s.jobs.rows.any (Job.importsFor b.push) && !s.atPackCap env

/-- The format that the start of an import comes to pin: it is an admitted, staged import, and it
declares no format or one that there is. -/
def StartBody.pins (env : Env) (b : StartBody) (s : Db) : Option ObjFormat :=
  if b.url.isSome then none
  else
    match b.admitted env s, parseKind b.format with
    | some _, .ok kind => some (kind.getD s.objKind)
    | _, _ => none

theorem parseKind_error {f : Option String} (h : parseKind f = .error e) : e.undoes = false := by
  unfold parseKind at h
  split at h
  all_goals cases h
  rfl

theorem pinObjFormat_run (kind : ObjFormat) (s : Db) :
    ((pinObjFormat kind).run s).state = { s with obj_format := s.obj_format.or (some kind) } ∧
      ∀ e, ((pinObjFormat kind).run s).res = .error e → e.undoes = false := by
  unfold pinObjFormat
  simp only [Span.run_exec_bind, Span.run_read_bind]
  split
  · exact ⟨rfl, by rintro e ⟨⟩; rfl⟩
  · exact ⟨rfl, by rintro e ⟨⟩⟩

theorem rateCheck_run (rule : RateRule) (now : ℤ) (key : String) (s : Db) :
    (∃ rate, ((rateCheck rule now key).run s).state = { s with rate := rate }) ∧
      ∀ e, ((rateCheck rule now key).run s).res = .error e → e.undoes = false := by
  unfold rateCheck
  split
  · exact ⟨⟨_, rfl⟩, by rintro e ⟨⟩⟩
  · simp only [Span.run_exec_bind, Span.run_read_bind]
    split
    · exact ⟨⟨_, rfl⟩, by rintro e ⟨⟩; rfl⟩
    · exact ⟨⟨_, rfl⟩, by rintro e ⟨⟩⟩

theorem pushScope_error {admin : Bool} {key : String} {row : Option (Level × Option String)}
    (h : pushScope admin key row = .error e) : e.undoes = false := by
  unfold pushScope at h
  repeat' split at h
  all_goals cases h
  all_goals rfl

/-- How the beginning of a push ends, once the counters and the pin are written: refused, with an
open push that is there, or with a new one. -/
def BeginDto.Ends (b : BeginDto) (now : ℤ) (existing : Option PushRow) (t : Db)
    (o : Outcome Db Error Unit) : Prop :=
  (∃ e, o.res = .error e ∧ e.undoes = false ∧ o.state = t) ∨
    (existing.isSome = true ∧ o.res = .ok () ∧ o.state = t) ∨
    (existing = none ∧ ∃ scope, b.scope t now = .ok scope ∧ o.res = .ok () ∧
      o.state = { t with pushes := t.pushes.insertIgnore (b.row t now scope) })

theorem openPush_ends (now : ℤ) (b : BeginDto) (existing : Option PushRow) (s : Db) :
    b.Ends now existing s ((openPush now b existing).run s) := by
  unfold openPush
  simp only [Span.run_read_bind]
  cases existing with
  | some e =>
    dsimp only
    split_ifs
    · exact .inl ⟨_, rfl, rfl, rfl⟩
    · exact .inr (.inl ⟨rfl, rfl, rfl⟩)
    · exact .inl ⟨_, rfl, rfl, rfl⟩
  | none =>
    dsimp only
    by_cases hfull : maxOpenPushes ≤ s.pushes.countWhere fun p => p.state = .open
    · rw [if_pos hfull]
      exact .inl ⟨_, rfl, rfl, rfl⟩
    · rw [if_neg hfull]
      cases hscope : b.scope s now with
      | error e => exact .inl ⟨e, rfl, pushScope_error hscope, rfl⟩
      | ok scope => exact .inr (.inr ⟨rfl, scope, hscope, rfl, rfl⟩)

/-- The beginning of a push counts the attempt and pins the format that it comes to pin; beyond that
it writes at most the row of a new push. -/
theorem pushBegin_ends (env : Env) (now : ℤ) (rule : RateRule) (b : BeginDto) (s : Db) :
    ∃ rate, b.Ends now (s.pushes.find b.push_id)
      { s with rate := rate, obj_format := s.obj_format.or (b.pins env now rule s) }
      ((pushBegin env now rule b).run s) := by
  unfold pushBegin BeginDto.pins
  simp only [Span.run_read_bind]
  by_cases hcap : ((s.pushes.find b.push_id).isNone && s.atPackCap env) = true
  · simp only [if_pos hcap]
    exact ⟨s.rate, .inl ⟨_, rfl, rfl, by simp⟩⟩
  simp only [if_neg hcap]
  obtain ⟨⟨rate, hrate⟩, herr⟩ := rateCheck_run rule now b.key s
  refine ⟨rate, ?_⟩
  cases hres : ((rateCheck rule now b.key).run s).res with
  | error e =>
    rw [Span.run_bind_of_error hres, hrate]
    exact .inl ⟨e, rfl, herr e hres, by simp⟩
  | ok u =>
    rw [Span.run_bind_of_ok hres, hrate]
    cases hkind : parseKind b.object_format with
    | error e => exact .inl ⟨e, rfl, parseKind_error hkind, by simp⟩
    | ok kind =>
      cases kind with
      | none =>
        have hnone : s.obj_format.or none = s.obj_format := by simp
        simp only [hnone]
        exact openPush_ends now b _ { s with rate := rate }
      | some kind =>
        dsimp only
        obtain ⟨hpin, hpinerr⟩ := pinObjFormat_run kind { s with rate := rate }
        cases hpinned : ((pinObjFormat kind).run { s with rate := rate }).res with
        | error e =>
          rw [Span.run_bind_of_error hpinned, hpin]
          exact .inl ⟨e, rfl, hpinerr e hpinned, rfl⟩
        | ok u =>
          rw [Span.run_bind_of_ok hpinned, hpin]
          exact openPush_ends now b _ _

theorem forM_error {α : Type} {f : α → Except Error Unit} {l : List α} (h : l.forM f = .error e) :
    ∃ a ∈ l, f a = .error e := by
  induction l with
  | nil => cases h
  | cons a l ih =>
    change (f a >>= fun _ => l.forM f) = _ at h
    cases ha : f a with
    | error e' =>
      rw [ha] at h
      cases h
      exact ⟨a, List.mem_cons_self, ha⟩
    | ok u =>
      rw [ha] at h
      obtain ⟨a', hmem, ha'⟩ := ih h
      exact ⟨a', List.mem_cons_of_mem _ hmem, ha'⟩

theorem StartBody.check_error {scope : Option String} (h : b.check ns scope = .error e) :
    e.undoes = false := by
  unfold StartBody.check at h
  cases hcmds : b.commands.forM (CmdBody.check scope) with
  | error e' =>
    rw [hcmds] at h
    cases h
    obtain ⟨c, -, hc⟩ := forM_error hcmds
    unfold CmdBody.check at hc
    dsimp only at hc
    split_ifs at hc
    cases hc
    rfl
  | ok u =>
    rw [hcmds] at h
    cases hparts : b.parts.forM (PartBody.check ns) with
    | error e' =>
      rw [hparts] at h
      cases h
      obtain ⟨c, -, hc⟩ := forM_error hparts
      unfold PartBody.check at hc
      split at hc
      · cases hc
        rfl
      · split_ifs at hc
        all_goals cases hc
        all_goals rfl
    | ok u =>
      rw [hparts] at h
      change (b.commands.mapM CmdBody.parsed).mapError _ = _ at h
      cases hdec : b.commands.mapM CmdBody.parsed with
      | error m =>
        rw [hdec] at h
        cases h
        rfl
      | ok cmds =>
        rw [hdec] at h
        cases h

/-- The rest of a staged import, from its pin on. -/
def StartBody.stage (ns : String) (now : ℤ) (b : StartBody) (st : PushRow) (kind : ObjFormat) :
    Span Db Error Unit := do
  pinObjFormat kind
  match b.check ns st.scope with
  | .error e => Span.fail e
  | .ok cmds => plantImport now st.principal cmds b

/-- The commands of a staged import that gets past the pin and the checks. -/
def StartBody.decoded (ns : String) (b : StartBody) (st : PushRow) (kind : ObjFormat) (s : Db) :
    Option (List Cmd) :=
  match ((pinObjFormat kind).run s).res with
  | .error _ => none
  | .ok () => (b.check ns st.scope).toOption

/-- A staged import pins its format; then it is refused, or it writes its pack row and its job. -/
theorem StartBody.stage_ends (ns : String) (now : ℤ) (b : StartBody) (st : PushRow)
    (kind : ObjFormat) (s : Db) :
    let t := { s with obj_format := s.obj_format.or (some kind) }
    (b.decoded ns st kind s = none ∧
      (∃ e, ((b.stage ns now st kind).run s).res = .error e ∧ e.undoes = false) ∧
      ((b.stage ns now st kind).run s).state = t) ∨
    ∃ cmds, b.decoded ns st kind s = some cmds ∧ ((b.stage ns now st kind).run s).res = .ok () ∧
      ((b.stage ns now st kind).run s).state = ((plantImport now st.principal cmds b).run t).state := by
  unfold StartBody.stage StartBody.decoded
  obtain ⟨hpin, hpinerr⟩ := pinObjFormat_run kind s
  cases hpinned : ((pinObjFormat kind).run s).res with
  | error e =>
    rw [Span.run_bind_of_error hpinned, hpin]
    exact .inl ⟨rfl, ⟨e, rfl, hpinerr e hpinned⟩, rfl⟩
  | ok u =>
    rw [Span.run_bind_of_ok hpinned, hpin]
    cases hcheck : b.check ns st.scope with
    | error e => exact .inl ⟨rfl, ⟨e, rfl, StartBody.check_error hcheck⟩, rfl⟩
    | ok cmds => exact .inr ⟨cmds, rfl, rfl, rfl⟩

/-- The push row and the commands, when a request to start an import queues a job. -/
def StartBody.queues (env : Env) (ns : String) (b : StartBody) (s : Db) :
    Option (PushRow × List Cmd) :=
  (b.admitted env s).bind fun st =>
    if b.url.isSome then some (st, [])
    else (b.pins env s).bind fun kind => (b.decoded ns st kind s).map fun cmds => (st, cmds)

/-- The commands of a staged import are those that the decoder makes of the request's. -/
theorem StartBody.queues_commands {q : PushRow × List Cmd} (h : b.queues env ns s = some q)
    (hurl : b.url.isSome = false) : ∀ c ∈ q.2, ∃ cb ∈ b.commands, cb.parsed = .ok c := by
  unfold StartBody.queues at h
  obtain ⟨st, -, h⟩ := Option.bind_eq_some_iff.mp h
  rw [if_neg (by simp [hurl])] at h
  obtain ⟨kind, -, h⟩ := Option.bind_eq_some_iff.mp h
  obtain ⟨cmds, hdec, rfl⟩ := Option.map_eq_some_iff.mp h
  unfold StartBody.decoded at hdec
  split at hdec
  · cases hdec
  cases hcheck : b.check ns st.scope with
  | error e =>
    rw [hcheck] at hdec
    cases hdec
  | ok cs =>
    rw [hcheck] at hdec
    cases hdec
    obtain ⟨⟨⟩, -, hcheck⟩ := FoldM.bind_eq_ok.mp hcheck
    obtain ⟨⟨⟩, -, hcheck⟩ := FoldM.bind_eq_ok.mp hcheck
    cases hparsed : b.commands.mapM CmdBody.parsed with
    | error m =>
      rw [hparsed] at hcheck
      cases hcheck
    | ok cs =>
      rw [hparsed] at hcheck
      cases hcheck
      exact fun c hc => FoldM.mem_mapM hparsed hc

/-- What a start does: it is not admitted and writes nothing, or it is, by url or staged. -/
theorem importStart_cases (env : Env) (ns : String) (now : ℤ) (b : StartBody) (s : Db) :
    (b.admitted env s = none ∧ ∃ res, (importStart env ns now b).run s = ⟨[], s, res⟩ ∧
      ∀ e, res = .error e → e.undoes = false) ∨
    ∃ st, b.admitted env s = some st ∧
      (b.url.isSome = true ∧
          (importStart env ns now b).run s = (plantImport now st.principal [] b).run s ∨
        b.url.isSome = false ∧ (∃ e, parseKind b.format = .error e ∧
          (importStart env ns now b).run s = ⟨[], s, .error e⟩) ∨
        b.url.isSome = false ∧ ∃ kind, parseKind b.format = .ok kind ∧
          (importStart env ns now b).run s = (b.stage ns now st (kind.getD s.objKind)).run s) := by
  unfold importStart StartBody.admitted
  simp only [Span.run_read_bind]
  cases hst : s.pushes.find b.push with
  | none => exact .inl ⟨rfl, _, rfl, by rintro e ⟨⟩; rfl⟩
  | some st =>
    dsimp only [Option.filter]
    by_cases hopen : st.state = .open
    swap
    · rw [if_pos hopen]
      exact .inl ⟨by simp [hopen], _, rfl, by rintro e ⟨⟩; rfl⟩
    rw [if_neg (not_not.mpr hopen)]
    by_cases hstaged : (b.url.isNone && (b.parts.isEmpty || b.commands.isEmpty)) = true
    · rw [if_pos hstaged]
      exact .inl ⟨by rw [hstaged]; simp, _, rfl, by rintro e ⟨⟩; rfl⟩
    rw [if_neg hstaged]
    by_cases hjob : s.jobs.rows.any (Job.importsFor b.push) = true
    · rw [if_pos hjob]
      exact .inl ⟨by rw [hjob]; simp, _, rfl, by rintro e ⟨⟩⟩
    rw [if_neg hjob]
    by_cases hcap : s.atPackCap env = true
    · rw [if_pos hcap]
      exact .inl ⟨by rw [hcap]; simp, _, rfl, by rintro e ⟨⟩; rfl⟩
    rw [if_neg hcap]
    rw [Bool.not_eq_true] at hstaged hjob hcap
    refine .inr ⟨st, by rw [hstaged, hjob, hcap]; simp [hopen], ?_⟩
    by_cases hurl : b.url.isSome = true
    · rw [if_pos hurl]
      exact .inl ⟨hurl, rfl⟩
    rw [if_neg hurl]
    rw [Bool.not_eq_true] at hurl
    cases hkind : parseKind b.format with
    | error e => exact .inr (.inl ⟨hurl, e, rfl, rfl⟩)
    | ok kind => exact .inr (.inr ⟨hurl, kind, rfl, rfl⟩)

/-- `import_start` pins a format, and writes a pack row and a job when it queues one. -/
theorem importStart_state (env : Env) (ns : String) (now : ℤ) (b : StartBody) (s : Db) :
    ((importStart env ns now b).run s).state =
      let t := { s with obj_format := s.obj_format.or (b.pins env s) }
      match b.queues env ns s with
      | none => t
      | some (st, cmds) => ((plantImport now st.principal cmds b).run t).state := by
  unfold StartBody.queues StartBody.pins
  rcases importStart_cases env ns now b s with ⟨hnone, res, hrun, -⟩ | ⟨st, hst, ⟨hurl, hrun⟩ |
    ⟨hurl, e, hkind, hrun⟩ | ⟨hurl, kind, hkind, hrun⟩⟩
  · simp [hnone, hrun]
  · simp [hst, hurl, hrun]
  · simp [hst, hurl, hkind, hrun]
  · rw [hrun]
    rcases b.stage_ends ns now st (kind.getD s.objKind) s with ⟨hdec, -, hstate⟩ |
      ⟨cmds, hdec, -, hstate⟩
    · simp [hst, hurl, hkind, hdec, hstate]
    · simp [hst, hurl, hkind, hdec, hstate]

/-! ## Refusals -/

/-- A request to one of the two routes. -/
inductive IntakeCall where
  | begin (b : BeginDto)
  | start (b : StartBody)

/-- The route that a request calls. -/
def IntakeCall.route (env : Env) (rule : RateRule) (ns : String) (now : ℤ) :
    IntakeCall → Span Db Error Unit
  | .begin b => pushBegin env now rule b
  | .start b => importStart env ns now b

/-- The format that a request comes to pin. -/
def IntakeCall.pins (env : Env) (rule : RateRule) (now : ℤ) : IntakeCall → Db → Option ObjFormat
  | .begin b => b.pins env now rule
  | .start b => b.pins env

/-- Nothing but the counters of the rate limit may differ. -/
structure Traceless (s t : Db) : Prop where
  pushes : t.pushes = s.pushes
  packs : t.packs = s.packs
  jobs : t.jobs = s.jobs
  refs : t.refs = s.refs
  obj_format : t.obj_format = s.obj_format

/-- What a refused request leaves: the counters, and the format that it came to pin. -/
def Db.Pinned (s t : Db) (pins : Option ObjFormat) : Prop :=
  ∃ rate, t = { s with rate := rate, obj_format := s.obj_format.or pins }

/-- A push that is not begun leaves the format that it came to pin. -/
theorem pushBegin_refused {now : ℤ} {rule : RateRule} {b : BeginDto}
    (h : ((pushBegin env now rule b).run s).res = .error e) :
    e.undoes = false ∧ s.Pinned ((pushBegin env now rule b).run s).state (b.pins env now rule s) := by
  obtain ⟨rate, ⟨e', he, hundo, hstate⟩ | ⟨-, hok, -⟩ | ⟨-, scope, -, hok, -⟩⟩ :=
    pushBegin_ends env now rule b s
  · rw [h] at he
    cases he
    exact ⟨hundo, rate, hstate⟩
  · rw [h] at hok
    cases hok
  · rw [h] at hok
    cases hok

/-- An import that is not started leaves the format that it came to pin. -/
theorem importStart_refused {now : ℤ} (h : ((importStart env ns now b).run s).res = .error e) :
    e.undoes = false ∧ s.Pinned ((importStart env ns now b).run s).state (b.pins env s) := by
  unfold StartBody.pins
  rcases importStart_cases env ns now b s with ⟨hnone, res, hrun, hundo⟩ | ⟨st, hst, ⟨hurl, hrun⟩ |
    ⟨hurl, e', hkind, hrun⟩ | ⟨hurl, kind, hkind, hrun⟩⟩
  · rw [hrun] at h ⊢
    exact ⟨hundo e h, s.rate, by simp [hnone]⟩
  · rw [hrun] at h
    cases h
  · rw [hrun] at h ⊢
    cases h
    exact ⟨parseKind_error hkind, s.rate, by simp [hurl, hst, hkind]⟩
  · rw [hrun] at h ⊢
    rcases b.stage_ends ns now st (kind.getD s.objKind) s with ⟨-, ⟨e', hres, hundo⟩, hstate⟩ |
      ⟨cmds, -, hres, -⟩
    · rw [h] at hres
      cases hres
      exact ⟨hundo, s.rate, by simp [hurl, hst, hkind, hstate]⟩
    · rw [h] at hres
      cases hres

/-- A refused call changes no table, and leaves no trace exactly when the format was pinned before
or the call did not come to pin one. -/
theorem refused_traceless_iff (env : Env) (rule : RateRule) (ns : String) (now : ℤ) (c : IntakeCall)
    (s : Db) (h : ((c.route env rule ns now).run s).res = .error e) :
    e.undoes = false ∧
      (Traceless s ((c.route env rule ns now).run s).state ↔
        s.obj_format.isSome = true ∨ c.pins env rule now s = none) := by
  obtain ⟨he, rate, hstate⟩ : e.undoes = false ∧
      s.Pinned ((c.route env rule ns now).run s).state (c.pins env rule now s) := by
    cases c with
    | begin b => exact pushBegin_refused h
    | start b => exact importStart_refused h
  have hkept : s.obj_format.or (c.pins env rule now s) = s.obj_format ↔
      s.obj_format.isSome = true ∨ c.pins env rule now s = none := by
    cases s.obj_format <;> simp
  rw [hstate]
  exact ⟨he, fun ht => hkept.mp ht.obj_format, fun hc => ⟨rfl, rfl, rfl, rfl, hkept.mpr hc⟩⟩

/-- A new repository, whose format is not pinned, with an open push `1` that may write one
branch. -/
def unpinned : Db :=
  { Db.fresh with
    pushes := ⟨[⟨1, .open, none, "alice", 0, none, 0, none, none, some "refs/heads/a", some "t"⟩],
      by decide⟩ }

/-- The beginning of a push in the other format with a token that is not there. -/
def revokedBegin : BeginDto := ⟨2, "bob", "u", false, some "sha256"⟩

/-- The start of an import of a branch that the push may not write. -/
def foreignStart : StartBody :=
  ⟨1, 10, [⟨some "r/0/pending/1.0", some 40⟩],
    [⟨some "refs/heads/b", .ok ⟨0, 5, "refs/heads/b", none⟩⟩], none, none⟩

/-- A begin without a valid token is refused, and so is a start outside the scope, but each pins the
format. -/
theorem refused_pins :
    (((IntakeCall.begin revokedBegin).route (Env.default fun _ => true) .off "r/0/pending/" 0).run
        unpinned).res = .error .auth ∧
    (((IntakeCall.begin revokedBegin).route (Env.default fun _ => true) .off "r/0/pending/" 0).run
        unpinned).state.obj_format = some .sha256 ∧
    (((IntakeCall.start foreignStart).route (Env.default fun _ => true) .off "r/0/pending/" 0).run
        unpinned).res = .error (.protocol "ref refs/heads/b outside token scope") ∧
    (((IntakeCall.start foreignStart).route (Env.default fun _ => true) .off "r/0/pending/" 0).run
        unpinned).state.obj_format = some .sha1 ∧
    unpinned.obj_format = none := by
  decide +kernel

/-- Without a declared format the same begin leaves no trace. -/
theorem refused_undeclared :
    Traceless unpinned (((IntakeCall.begin { revokedBegin with object_format := none }).route
      (Env.default fun _ => true) .off "r/0/pending/" 0).run unpinned).state :=
  (refused_traceless_iff _ _ _ _ (.begin { revokedBegin with object_format := none }) unpinned
    (show _ = Except.error Error.auth by decide +kernel)).2.mpr (.inr (by decide))

end GitEdge
