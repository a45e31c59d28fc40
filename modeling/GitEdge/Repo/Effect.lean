import GitEdge.Jobs.ImportCommit
import GitEdge.Repo.Intake

/-!
# What a commit does to the refs

The view of `commit_push` and `commit_meta` that the properties of the refs share.
`commitPush_effect` says that a commit either leaves the refs, the log and the head alone and
reports no command as done, or writes its commands one after another (`landCommands`). Then
`landCommands_tells` reads the writes as a history of compare-and-set commands,
`landCommands_changed` finds the command behind a changed ref, and `commitPush_kept` lists what no
commit touches. The last section says which columns `push_begin` and `push_index` leave alone.
-/

namespace GitEdge

open Sql

variable {s t : Db}

/-! ## The writes -/

/-- What the rules that do not read the refs ask of a command. -/
structure Passes (env : Env) (db : Db) (head : String) (scopes : List (Option String)) (c : Cmd) :
    Prop where
  valid : env.valid_name c.name = true
  scopes : (scopes.all fun s => scopeAllows s c.name) = true
  notNull : ¬ (c.old = 0 ∧ c.new = 0)
  notPinned : db.pins.has c.name = false
  notHead : c.new = 0 → c.name ≠ head
  «protected» : db.refuseProtected c = none
  found : c.new ≠ 0 → (db.lookup c.new).isSome = true

theorem passes_of_breaksRule {env : Env} {db : Db} {head : String} {scopes : List (Option String)}
    {c : Cmd} (h : db.breaksRule env head scopes c = none) : Passes env db head scopes c := by
  unfold Db.breaksRule at h
  split at h
  · cases h
  rename_i hvalid
  split at h
  · cases h
  rename_i hscopes
  split at h
  · cases h
  rename_i hnull
  split at h
  · cases h
  rename_i hpins
  split at h
  · cases h
  rename_i hhead
  obtain ⟨hprot, hfound⟩ := Option.or_eq_none_iff.mp h
  simp only [Bool.or_eq_true, Bool.not_eq_true', not_or, Bool.not_eq_false] at hvalid
  refine ⟨hvalid.2, by simpa using hscopes, by simpa using hnull, by simpa using hpins, ?_,
    hprot, ?_⟩
  · simpa using hhead
  · intro hn
    rw [Option.isSome_iff_ne_none]
    intro hnone
    simp [hn, hnone] at hfound

/-- A command leaves the rows of the other refs alone. -/
theorem Cmd.find_write_of_ne (c : Cmd) (now : ℤ) (refs : Table RefRow RefRow.name) {name : String}
    (h : name ≠ c.name) : (c.write now refs).find name = refs.find name := by
  have hrow : ∀ r, refs.find name = some r → r.name ≠ c.name := fun r hr => by
    rw [(Table.find_eq_some.mp hr).2]
    exact h
  unfold Cmd.write
  split_ifs
  · rw [Table.find_insertIgnore, if_neg fun hc => h hc.2.symm]
  · rw [Table.find_deleteWhere]
    cases hf : refs.find name with
    | none => rfl
    | some r => simp [hrow r hf]
  · rw [Table.find_updateWhere]
    cases hf : refs.find name with
    | none => rfl
    | some r => simp [hrow r hf]

section

variable (env : Env) (head : String) (push : PushId) (who : String) (now : ℤ) (barrier : Bool)
  (scopes : List (Option String))

/-- The writes judge every command by the same rules. -/
theorem landCommands_sameRules (cs : List Cmd) (s : Db) :
    SameRules s (landCommands env head push who now barrier scopes cs s).2 := by
  induction cs generalizing s with
  | nil => exact .refl s
  | cons c cs ih =>
    simp only [landCommands]
    split_ifs
    · exact landed_sameRules.trans (ih _)
    · exact ih s

/-- A command that passes turns the map of the refs into the one that its compare-and-set makes. -/
theorem target_landed {c : Cmd} (h : s.judge env head scopes c = none) :
    c.swap.Ok s.target ∧ (landed barrier push who now c s).target = c.swap.apply s.target := by
  obtain ⟨hrefuse, hcas⟩ := judge_eq_none.mp h
  have hok := refCasOk_iff.mp hcas
  refine ⟨hok, ?_⟩
  rw [Db.target, landed_refs]
  exact Cmd.target_write now hok (refuse_null hrefuse)

/-- A ref that the writes changed was changed by a command that passes the rules. -/
theorem landCommands_changed (cs : List Cmd) (s : Db) (name : String)
    (h : (landCommands env head push who now barrier scopes cs s).2.refs.find name ≠
      s.refs.find name) :
    ∃ c ∈ cs, c.name = name ∧ s.breaksRule env head scopes c = none := by
  induction cs generalizing s with
  | nil => exact absurd rfl h
  | cons c cs ih =>
    simp only [landCommands] at h
    by_cases hj : s.judge env head scopes c = none
    · rw [if_pos hj] at h
      by_cases hname : c.name = name
      · have hrule := (judge_eq_none.mp hj).1
        rw [Db.refuse, Option.or_eq_none_iff] at hrule
        exact ⟨c, by simp, hname, hrule.1⟩
      · -- The command is on another ref.
        rw [← c.find_write_of_ne now s.refs (Ne.symm hname),
          ← @landed_refs c barrier push who now s] at h
        obtain ⟨d, hd, hdname, hrule⟩ := ih _ h
        rw [landed_sameRules.breaksRule] at hrule
        exact ⟨d, by simp [hd], hdname, hrule⟩
    · rw [if_neg hj] at h
      obtain ⟨d, hd, hdname, hrule⟩ := ih _ h
      exact ⟨d, by simp [hd], hdname, hrule⟩

end

/-! ## Histories of commands -/

/-- A command with what was reported of it, and the push that carried it. -/
structure Report where
  push : PushId
  cmd : Cmd
  verdict : Option String
deriving DecidableEq

/-- A report as an entry of a history of compare-and-set commands. -/
def Report.entry (r : Report) : Cas.Swap String (Option Oid) × Bool :=
  (r.cmd.swap, r.verdict.isNone)

/-- The reports of a commit: none when it ends with an error. -/
def CommitRequest.reports (req : CommitRequest) : Except Error (List RefResult) → List Report
  | .ok rs => (req.commands.zip rs).map fun x => ⟨req.push_id, x.1, x.2.2⟩
  | .error _ => []

/-- A row of the log as a compare-and-set command. -/
def ReflogRow.swap (r : ReflogRow) : Cas.Swap String (Option Oid) :=
  ⟨r.name, refTarget r.old, refTarget r.new⟩

/-- The commands that a list of reports says were done. -/
def doneOf (h : List Report) : List (Cas.Swap String (Option Oid)) :=
  (h.filter fun r => r.verdict.isNone).map fun r => r.cmd.swap

theorem doneOf_append (h h' : List Report) : doneOf (h ++ h') = doneOf h ++ doneOf h' := by
  simp [doneOf]

/-- The done commands on one ref. -/
theorem doneOf_filter (h : List Report) (name : String) :
    ((doneOf h).filter fun c => c.key = name) = Cas.doneAt name (h.map Report.entry) := by
  simp only [doneOf, Cas.doneAt, List.filter_map, List.map_map, List.filter_filter]
  congr 1
  refine List.filter_congr fun r _ => ?_
  simp only [Function.comp, Report.entry, Bool.and_comm]
  rfl

/-- The log of a state is what is left of a history: the janitor drops the oldest rows. -/
def Logs (h : List Report) (db : Db) : Prop := db.reflog.map ReflogRow.swap <:+ doneOf h

/-- The refs and the log after some reports: the map went through them, and the log has a row for
each command that was done. -/
structure Tells (s : Db) (rs : List Report) (t : Db) : Prop where
  run : Cas.Run s.target (rs.map Report.entry) t.target
  log : t.reflog.map ReflogRow.swap = s.reflog.map ReflogRow.swap ++ doneOf rs

/-- No report, and nothing written. -/
theorem Tells.nothing (hrefs : t.refs = s.refs) (hlog : t.reflog = s.reflog) : Tells s [] t := by
  refine ⟨?_, by simp [hlog, doneOf]⟩
  rw [Db.target, Db.target, hrefs]
  exact .nil _

/-- Reports of refusals only, and nothing written. -/
theorem Tells.refused (hrefs : t.refs = s.refs) (hlog : t.reflog = s.reflog) {rs : List Report}
    (h : ∀ r ∈ rs, r.verdict ≠ none) : Tells s rs t := by
  induction rs with
  | nil => exact .nothing hrefs hlog
  | cons r rs ih =>
    obtain ⟨hrun, hdone⟩ := ih fun r' hr' => h r' (by simp [hr'])
    have hr : r.verdict.isNone = false := by
      cases hv : r.verdict with
      | none => exact absurd hv (h r (by simp))
      | some why => rfl
    refine ⟨?_, ?_⟩
    · simp only [List.map_cons, Report.entry, hr]
      exact .refused hrun
    · rw [hdone]
      simp [doneOf, hr]

/-- The writes tell what they did. -/
theorem landCommands_tells (env : Env) (head : String) (push : PushId) (who : String) (now : ℤ)
    (barrier : Bool) (scopes : List (Option String)) (cs : List Cmd) (s : Db) :
    let L := landCommands env head push who now barrier scopes cs s
    Tells s ((cs.zip L.1).map fun x => ⟨push, x.1, x.2.2⟩) L.2 := by
  induction cs generalizing s with
  | nil => exact .nothing rfl rfl
  | cons c cs ih =>
    simp only [landCommands, List.zip_cons_cons, List.map_cons]
    cases hj : s.judge env head scopes c with
    | none =>
      obtain ⟨hok, htarget⟩ := target_landed env head push who now barrier scopes hj
      obtain ⟨hrun, hlog⟩ := ih (landed barrier push who now c s)
      rw [htarget] at hrun
      have hrow : (landed barrier push who now c s).reflog =
          s.reflog ++ [⟨c.name, c.old, c.new, push, who, now⟩] := by
        unfold landed
        cases barrier
        · rfl
        · by_cases hn : c.new = 0 <;> simp [hn, logRef, bumpRefsVersion, barrierFeedLanding]
      refine ⟨.done hok hrun, ?_⟩
      simp only [if_true, hlog, hrow]
      simp [doneOf, ReflogRow.swap, Cmd.swap]
    | some why =>
      obtain ⟨hrun, hlog⟩ := ih s
      refine ⟨.refused hrun, ?_⟩
      simp only [reduceCtorEq, if_false, hlog]
      simp [doneOf]

/-! ## What no commit touches -/

/-- What the commits leave alone: the tokens, the protected refs, the recorded parents, and the
credential that every push row captured. -/
structure Kept (s t : Db) : Prop where
  tokens : t.tokens = s.tokens
  «protected» : t.protected = s.protected
  commit_parents : t.commit_parents = s.commit_parents
  credentials : ∀ r' ∈ t.pushes, ∃ r ∈ s.pushes, r.id = r'.id ∧ r.auth = r'.auth ∧
    r.scope = r'.scope

theorem Kept.of_pushes (htok : t.tokens = s.tokens) (hprot : t.protected = s.protected)
    (hpar : t.commit_parents = s.commit_parents) (hpush : t.pushes = s.pushes) : Kept s t :=
  ⟨htok, hprot, hpar, fun r hr => ⟨r, hpush ▸ hr, rfl, rfl, rfl⟩⟩

theorem Kept.refl (s : Db) : Kept s s := .of_pushes rfl rfl rfl rfl

theorem Kept.trans {a b c : Db} (h : Kept a b) (h' : Kept b c) : Kept a c := by
  refine ⟨h'.tokens.trans h.tokens, h'.protected.trans h.protected,
    h'.commit_parents.trans h.commit_parents, fun r hr => ?_⟩
  obtain ⟨r', hr', hid', hauth', hscope'⟩ := h'.credentials r hr
  obtain ⟨q, hq, hid, hauth, hscope⟩ := h.credentials r' hr'
  exact ⟨q, hq, hid.trans hid', hauth.trans hauth', hscope.trans hscope'⟩

/-- An update of push rows that leaves the captured credentials alone. -/
theorem Kept.update {cond : PushRow → Bool} {f : PushRow → PushRow} (hkey : ∀ r, (f r).id = r.id)
    (hpush : t.pushes = s.pushes.updateWhere cond f hkey)
    (hf : ∀ r, (f r).auth = r.auth ∧ (f r).scope = r.scope) (htok : t.tokens = s.tokens)
    (hprot : t.protected = s.protected) (hpar : t.commit_parents = s.commit_parents) :
    Kept s t := by
  refine ⟨htok, hprot, hpar, fun r hr => ?_⟩
  rw [hpush] at hr
  obtain ⟨q, hq, rfl⟩ := Table.mem_updateWhere.mp hr
  refine ⟨q, hq, ?_⟩
  split_ifs
  · exact ⟨(hkey q).symm, (hf q).1.symm, (hf q).2.symm⟩
  · exact ⟨rfl, rfl, rfl⟩

theorem kept_finishRow (req : CommitRequest) (st : PushState) (now : ℤ) (results : List RefResult)
    (s : Db) : Kept s (finishRow req st now results s) :=
  .update (by exact fun _ => rfl) rfl (fun _ => ⟨rfl, rfl⟩) rfl rfl rfl

theorem kept_withPending (barrier : Bool) (pack : PackId) (s : Db) :
    Kept s (withPending barrier pack s) := by
  obtain ⟨_, _, _, h⟩ := withPending_eq barrier pack s
  rw [h]
  exact .of_pushes rfl rfl rfl rfl

theorem Step3.kept {req : CommitRequest} {P : Db} (h : Step3 req s P) : Kept s P := by
  cases h with
  | noPack h => exact .refl s
  | pack h one jobs seq =>
    exact (kept_withPending _ _ s).trans (.of_pushes rfl rfl rfl rfl)

theorem Step3.reflog {req : CommitRequest} {P : Db} (h : Step3 req s P) : P.reflog = s.reflog := by
  cases h with
  | noPack h => rfl
  | @pack pack h one jobs seq =>
    obtain ⟨_, _, _, he⟩ := withPending_eq s.barrierActive pack s
    rw [he]
    rfl

theorem kept_landCommands (env : Env) (head : String) (push : PushId) (who : String) (now : ℤ)
    (barrier : Bool) (scopes : List (Option String)) (cs : List Cmd) (s : Db) :
    Kept s (landCommands env head push who now barrier scopes cs s).2 := by
  induction cs generalizing s with
  | nil => exact .refl s
  | cons c cs ih =>
    have hland : Kept s (landed barrier push who now c s) := by
      refine .of_pushes ?_ landed_sameRules.protected landed_sameRules.commit_parents
        (landed_pushes _ _ _ _ _ _)
      unfold landed
      cases barrier
      · rfl
      · by_cases hn : c.new = 0 <;> simp [hn, logRef, bumpRefsVersion, barrierFeedLanding]
    simp only [landCommands]
    split_ifs
    · exact hland.trans (ih _)
    · exact ih s

/-! ## `commit_push` -/

/-- How the commands of an admitted push end: refused after the dry run, or written. -/
theorem commitCommands_cases (env : Env) (now : ℤ) (req : CommitRequest) (barrier : Bool)
    (scopes : List (Option String)) (P : Db) :
    let o := (commitCommands env req now barrier scopes).run P
    (∃ results : List RefResult, (∀ r ∈ results, r.2 ≠ none) ∧ o.res = .ok results ∧
        o.state = ((rejectAtomic req now barrier
          (req.commands.map fun c => (c.name, P.judge env P.head scopes c))).run P).state) ∨
      let L := landCommands env P.head req.push_id req.principal now barrier scopes req.commands P
      o.res = .ok L.1 ∧ ∃ jobs seq events dropped, o.state =
        finishRow req .committed now L.1
          { settled (L.1.any fun r => r.2.isNone) req L.2 with
            jobs := jobs, job_seq := seq, push_events := events, push_events_dropped :=
              dropped } := by
  intro o
  have hwrites := commitRefs_eq env req now barrier P.head scopes P
  cases hatomic : req.atomic with
  | false =>
    have ho : o = _ := commitCommands_not_atomic env req now barrier scopes hatomic P
    rw [ho]
    exact .inr hwrites
  | true =>
    have ho : o = _ := commitCommands_atomic env req now barrier scopes hatomic P
    by_cases hall : ∀ c ∈ req.commands, P.judge env P.head scopes c = none
    · rw [if_pos hall] at ho
      rw [ho]
      exact .inr hwrites
    · rw [if_neg hall] at ho
      left
      rw [ho]
      refine ⟨_, ?_, (rejectAtomic_eq req now barrier _ P).1, rfl⟩
      intro r hr
      obtain ⟨x, -, rfl⟩ := List.mem_map.mp hr
      cases x.2 <;> simp

/-- A commit leaves the refs, the log and the head alone and refuses every command that it reports,
or it writes its commands. -/
theorem commitPush_effect (env : Env) (now : ℤ) (req : CommitRequest) (s : Db) :
    let o := (commitPush env now req).run s
    (o.state.refs = s.refs ∧ o.state.reflog = s.reflog ∧ o.state.head = s.head ∧
        ∀ rs, o.res = .ok rs → ∀ r ∈ rs, r.2 ≠ none) ∨
      ∃ scopes P, Admits now req s scopes ∧ Step3 req s P ∧
        let L := landCommands env P.head req.push_id req.principal now s.barrierActive scopes
          req.commands P
        o.res = .ok L.1 ∧ o.state.refs = L.2.refs ∧ o.state.reflog = L.2.reflog ∧
          o.state.head = (settled (L.1.any fun r => r.2.isNone) req L.2).head := by
  intro o
  have hall : ∀ why, ∀ r ∈ req.all why, r.2 ≠ none := by
    intro why r hr
    obtain ⟨c, -, rfl⟩ := List.mem_map.mp hr
    simp
  rcases commitPush_cases env now req s with ⟨m, hr, hs⟩ | ⟨-, -, why, hr, hs⟩ |
    ⟨m, hr, hs⟩ | ⟨pack, m, -, -, hr, hs⟩ | ⟨scopes, P, hadm, h3, hr, hs⟩
  · left
    rw [show o.state = _ from hs, show o.res = _ from hr]
    exact ⟨rfl, rfl, rfl, fun _ h => by cases h⟩
  · left
    rw [show o.state = _ from hs, show o.res = _ from hr]
    refine ⟨rfl, rfl, rfl, fun rs h => ?_⟩
    cases h
    exact hall why
  · left
    rw [show o.state = _ from hs, show o.res = _ from hr]
    exact ⟨rfl, rfl, rfl, fun _ h => by cases h⟩
  · left
    obtain ⟨_, _, _, he⟩ := withPending_eq s.barrierActive pack s
    rw [show o.state = _ from hs, show o.res = _ from hr, he]
    exact ⟨rfl, rfl, rfl, fun _ h => by cases h⟩
  · have hlog := h3.reflog
    rcases commitCommands_cases env now req s.barrierActive scopes
      P with ⟨rs, href, hres, hst⟩ | ⟨hres, hst⟩
    · left
      obtain ⟨hrefs, hhead, -⟩ := rejectAtomic_nothing now h3
        (req.commands.map fun c => (c.name, P.judge env P.head scopes c))
      rw [← hst] at hrefs hhead
      refine ⟨(congrArg Db.refs hs).trans hrefs, ?_, (congrArg Db.head hs).trans hhead,
        fun rs' h => ?_⟩
      · rw [show o.state = _ from hs, hst, (rejectAtomic_eq req now _ _ P).2]
        split
        · exact hlog
        · split_ifs <;> exact hlog
      · rw [show o.res = _ from hr, hres] at h
        cases h
        exact href
    · right
      obtain ⟨jobs, seq, events, dropped, hst⟩ := hst
      refine ⟨scopes, P, hadm, h3, hr.trans hres, ?_⟩
      rw [show o.state = _ from hs, hst]
      generalize landCommands env P.head req.push_id req.principal now s.barrierActive scopes
        req.commands P = L
      obtain ⟨version, head, he⟩ := settled_eq (L.1.any fun r => r.2.isNone) req L.2
      rw [he]
      exact ⟨rfl, rfl, rfl⟩

/-- A commit tells what it did. -/
theorem commitPush_tells (env : Env) (now : ℤ) (req : CommitRequest) (s : Db) :
    Tells s (req.reports ((commitPush env now req).run s).res)
    ((commitPush env now req).run s).state := by
  rcases commitPush_effect env now req s with ⟨hrefs, hlog, -, href⟩ |
    ⟨scopes, P, -, h3, hres, hrefs, hlog, -⟩
  · refine .refused hrefs hlog fun r hr => ?_
    cases h : ((commitPush env now req).run s).res with
    | error e => simp [h, CommitRequest.reports] at hr
    | ok rs =>
      simp only [h, CommitRequest.reports, List.mem_map] at hr
      obtain ⟨⟨c, x⟩, hx, rfl⟩ := hr
      exact href rs h x (List.of_mem_zip hx).2
  · rw [hres]
    obtain ⟨hrun, hlogs⟩ := landCommands_tells env P.head req.push_id req.principal now
      s.barrierActive scopes req.commands P
    have hP : P.target = s.target := by rw [Db.target, Db.target, h3.judged.2.1]
    rw [hP] at hrun
    rw [h3.reflog] at hlogs
    refine ⟨?_, by rw [hlog]; exact hlogs⟩
    have htarget : ((commitPush env now req).run s).state.target = _ := congrArg targets hrefs
    rw [htarget]
    exact hrun

/-- The credential that a push captured, and the token as it is now, let the push write a ref. -/
def Db.Grants (db : Db) (now : ℤ) (push : PushId) (name : String) : Prop :=
  ∃ row current, db.pushes.find push = some row ∧
    commitAuth row.auth (db.tokenRow row.auth now) = .ok current ∧
    scopeAllows row.scope name = true ∧ scopeAllows (current.or row.scope) name = true

/-- A ref that a commit changed is named by one of its commands, and the push may write it. -/
theorem commitPush_changed (env : Env) (now : ℤ) (req : CommitRequest) (s : Db) (name : String)
    (h : ((commitPush env now req).run s).state.refs.find name ≠ s.refs.find name) :
    s.Grants now req.push_id name ∧ ∃ c ∈ req.commands, c.name = name := by
  rcases commitPush_effect env now req s with ⟨hrefs, -⟩ |
    ⟨scopes, P, ⟨row, current, hfind, -, hauth, -, hscopes⟩, h3, -, hrefs, -⟩
  · exact absurd (by rw [hrefs]) h
  · rw [hrefs, ← h3.judged.2.1] at h
    obtain ⟨c, hc, hname, hrule⟩ := landCommands_changed _ _ _ _ _ _ _ _ _ _ h
    have hall := (passes_of_breaksRule hrule).scopes
    rw [hscopes, hname] at hall
    simp only [List.all_cons, List.all_nil, Bool.and_true, Bool.and_eq_true] at hall
    exact ⟨⟨row, current, hfind, hauth, hall.1, hall.2⟩, c, hc, hname⟩

/-- What a commit leaves alone. -/
theorem commitPush_kept (env : Env) (now : ℤ) (req : CommitRequest) (s : Db) :
    Kept s ((commitPush env now req).run s).state := by
  rcases commitPush_cases env now req s with ⟨m, -, hs⟩ | ⟨-, -, why, -, hs⟩ |
    ⟨m, -, hs⟩ | ⟨pack, m, -, -, -, hs⟩ | ⟨scopes, P, -, h3, -, hs⟩
  · rw [hs]
    exact .refl s
  · rw [hs]
    exact kept_finishRow _ _ _ _ s
  · rw [hs]
    exact kept_finishRow _ _ _ _ s
  · rw [hs]
    exact (kept_withPending _ _ s).trans (.of_pushes rfl rfl rfl rfl)
  · rw [hs]
    refine h3.kept.trans ?_
    rcases commitCommands_cases env now req s.barrierActive scopes P with ⟨rs, -, -, hst⟩ |
      ⟨-, jobs, seq, ev, dr, hst⟩
    · rw [hst, (rejectAtomic_eq req now _ _ P).2]
      refine .trans ?_ (kept_finishRow _ _ _ _ _)
      split
      · exact .refl P
      · split_ifs <;> exact .of_pushes rfl rfl rfl rfl
    · rw [hst]
      refine .trans ?_ (kept_finishRow _ _ _ _ _)
      generalize hL : landCommands env P.head req.push_id req.principal now s.barrierActive scopes
        req.commands P = L
      have hkept := kept_landCommands env P.head req.push_id req.principal now
        s.barrierActive scopes
        req.commands P
      rw [hL] at hkept
      obtain ⟨version, head, he⟩ := settled_eq (L.1.any fun r => r.2.isNone) req L.2
      rw [he]
      exact hkept.trans (.of_pushes rfl rfl rfl rfl)

/-- A credential that lets a push write is the same before a step that keeps the credentials. -/
theorem Kept.grants (h : Kept s t) {now : ℤ} {push : PushId} {name : String}
    (hg : t.Grants now push name) : s.Grants now push name := by
  obtain ⟨row, current, hfind, hauth, hscope, hcur⟩ := hg
  obtain ⟨hmem, hid⟩ := Table.find_eq_some.mp hfind
  obtain ⟨r, hr, hid', hauth', hscope'⟩ := h.credentials row hmem
  refine ⟨r, current, Table.find_eq_some.mpr ⟨hr, hid'.trans hid⟩, ?_, by rwa [hscope'],
    by rwa [hscope']⟩
  rw [hauth']
  unfold Db.tokenRow Db.liveToken at hauth ⊢
  rwa [h.tokens] at hauth

/-! ## `commit_meta` -/

/-- The deletes of the staging write the staging tables only. -/
theorem dropStaging_eq (push : PushId) (s : Db) :
    ∃ links toc parts opens tail, ((dropStaging push).run s).state =
      { s with
        push_links := links, import_toc := toc, import_parts := parts, import_open := opens,
        import_tail := tail } := by
  unfold dropStaging
  simp only [Span.run_exec_bind, Span.run_exec]
  exact ⟨_, _, _, _, _, rfl⟩

/-- `commit_meta` that its guards stop writes at most the job's heartbeat; past them it is
`commit_push`, the head and the deletes of the staging. -/
theorem commitMeta_cases (env : Env) (now : ℤ) (id : ℕ) (lease : Lease) (p : ImportPayload)
    (c : ImportCursor) (m : PackMeta) (s : Db) :
    let t := ((commitMeta env now id lease p c m).run s).state
    let o := (commitPush env now p.request).run (prepared now id lease p m s)
    let held := c.check_epoch = some s.gc_epoch ∧ s.leaseHeld id lease = true
    (¬ held ∧ (t = s ∨ t = touchLease id lease now s)) ∨
      (held ∧ ∃ links toc parts opens tail, t =
        { o.state with
          head := o.state.remoteHead p o.res, push_links := links, import_toc := toc,
          import_parts := parts, import_open := opens, import_tail := tail }) := by
  intro t o held
  by_cases h : held
  · right
    have ht : t = _ := commitMeta_state env now id lease p c m s h.1 h.2
    obtain ⟨links, toc, parts, opens, tail, he⟩ :=
      dropStaging_eq p.push { o.state with head := o.state.remoteHead p o.res }
    exact ⟨h, links, toc, parts, opens, tail, ht.trans he⟩
  · left
    refine ⟨h, ?_⟩
    by_cases hepoch : c.check_epoch = some s.gc_epoch
    · right
      show ((commitMeta env now id lease p c m).run s).state = _
      have hlease : s.leaseHeld id lease = false := by simpa [held, hepoch] using h
      unfold commitMeta heartbeat
      simp only [Span.run_read_bind, hepoch, ne_eq, not_true_eq_false, if_false, Span.bind_assoc,
        Span.run_exec_bind, hlease, Bool.false_eq_true, Span.run_fail_bind]
    · left
      show ((commitMeta env now id lease p c m).run s).state = _
      unfold commitMeta
      simp only [Span.run_read_bind, ne_eq, hepoch, not_false_eq_true, if_true, Span.run_pure]

/-- The reports of an import: those of its commit, when it gets there. -/
def importReports (env : Env) (now : ℤ) (id : ℕ) (lease : Lease) (p : ImportPayload)
    (c : ImportCursor) (m : PackMeta) (s : Db) : List Report :=
  if c.check_epoch = some s.gc_epoch ∧ s.leaseHeld id lease = true then
    p.request.reports ((commitPush env now p.request).run (prepared now id lease p m s)).res
  else []

/-- The commit of an import tells what it did. -/
theorem commitMeta_tells (env : Env) (now : ℤ) (id : ℕ) (lease : Lease) (p : ImportPayload)
    (c : ImportCursor) (m : PackMeta) (s : Db) :
    Tells s (importReports env now id lease p c m s)
      ((commitMeta env now id lease p c m).run s).state := by
  unfold importReports
  rcases commitMeta_cases env now id lease p c m s with ⟨hheld, ht⟩ |
    ⟨hheld, links, toc, parts, opens, tail, ht⟩
  · rw [if_neg hheld]
    rcases ht with ht | ht <;> rw [ht] <;> exact .nothing rfl rfl
  · rw [if_pos hheld, ht]
    obtain ⟨hrun, hlog⟩ := commitPush_tells env now p.request (prepared now id lease p m s)
    exact ⟨hrun, hlog⟩

theorem kept_prepared (now : ℤ) (id : ℕ) (lease : Lease) (p : ImportPayload) (m : PackMeta)
    (s : Db) : Kept s (prepared now id lease p m s) :=
  .update (by exact fun _ => rfl) rfl (fun _ => ⟨rfl, rfl⟩) rfl rfl rfl

/-- A ref that the commit of an import changed is named by one of its commands, and the push may
write it. -/
theorem commitMeta_changed (env : Env) (now : ℤ) (id : ℕ) (lease : Lease) (p : ImportPayload)
    (c : ImportCursor) (m : PackMeta) (s : Db) (name : String)
    (h : ((commitMeta env now id lease p c m).run s).state.refs.find name ≠ s.refs.find name) :
    s.Grants now p.push name ∧ ∃ c ∈ p.commands, c.name = name := by
  rcases commitMeta_cases env now id lease p c m s with ⟨-, ht⟩ |
    ⟨-, links, toc, parts, opens, tail, ht⟩
  · rcases ht with ht | ht <;> rw [ht] at h <;> exact absurd rfl h
  · rw [ht] at h
    obtain ⟨hg, hc⟩ := commitPush_changed env now p.request (prepared now id lease p m s) name h
    exact ⟨(kept_prepared now id lease p m s).grants hg, hc⟩

/-- What the commit of an import leaves alone. -/
theorem commitMeta_kept (env : Env) (now : ℤ) (id : ℕ) (lease : Lease) (p : ImportPayload)
    (c : ImportCursor) (m : PackMeta) (s : Db) :
    Kept s ((commitMeta env now id lease p c m).run s).state := by
  rcases commitMeta_cases env now id lease p c m s with ⟨-, ht⟩ |
    ⟨-, links, toc, parts, opens, tail, ht⟩
  · rcases ht with ht | ht <;> rw [ht] <;> exact .of_pushes rfl rfl rfl rfl
  · rw [ht]
    exact ((kept_prepared now id lease p m s).trans
      (commitPush_kept env now p.request _)).trans (.of_pushes rfl rfl rfl rfl)

/-! ## `push_begin` and `push_index` -/

/-- The scope that a request captures, when it opens a new push. -/
def BeginDto.opens (env : Env) (now : ℤ) (rule : RateRule) (b : BeginDto) (db : Db) :
    Option String :=
  match db.pushes.find b.push_id, ((pushBegin env now rule b).run db).res with
  | none, .ok () => (b.scope db now).toOption
  | _, _ => none

/-- `push_begin` writes the counters and the pin, and one row when it opens a push. -/
theorem pushBegin_state (env : Env) (now : ℤ) (rule : RateRule) (b : BeginDto) (s : Db) :
    ∃ rate, ((pushBegin env now rule b).run s).state =
      let t := { s with rate := rate, obj_format := s.obj_format.or (b.pins env now rule s) }
      match b.opens env now rule s with
      | none => t
      | some scope => { t with pushes := s.pushes.insertIgnore (b.row s now scope) } := by
  unfold BeginDto.opens
  obtain ⟨rate, ⟨e, hres, -, hstate⟩ | ⟨hsome, hres, hstate⟩ | ⟨hnone, scope, hscope, hres, hstate⟩⟩ :=
    pushBegin_ends env now rule b s
  · refine ⟨rate, hstate.trans ?_⟩
    rw [hres]
    cases s.pushes.find b.push_id <;> rfl
  · refine ⟨rate, hstate.trans ?_⟩
    obtain ⟨row, hrow⟩ := Option.isSome_iff_exists.mp hsome
    rw [hrow]
  · refine ⟨rate, hstate.trans ?_⟩
    have hscope' : b.scope s now = .ok scope := hscope
    rw [hnone, hres, hscope']
    rfl

/-- What `push_index` leaves alone. -/
theorem pushIndex_frame (now : ℤ) (m : PackDto) (rows : List PostedRow) (s : Db) :
    let t := ((pushIndex now m rows).run s).state
    t.refs = s.refs ∧ t.pushes = s.pushes ∧ t.jobs = s.jobs ∧ t.job_seq = s.job_seq := by
  have hobject : ∀ r : PostedRow, Span.Keeps (fun t : Db => t.refs = s.refs ∧ t.pushes = s.pushes ∧
      t.jobs = s.jobs ∧ t.job_seq = s.job_seq) (insertObject m.id r) := fun r =>
    .bind (.exec fun _ h => h) fun _ => .each fun _ _ => .exec fun _ h => h
  have hkeeps : Span.Keeps (fun t : Db => t.refs = s.refs ∧ t.pushes = s.pushes ∧ t.jobs = s.jobs ∧
      t.job_seq = s.job_seq) (pushIndex now m rows) := by
    refine .bind .read fun db => ?_
    split
    · exact .fail _
    · split
      · exact .fail _
      · refine .bind (.exec fun t ht => ?_) fun _ => ?_
        · unfold PackDto.upsert
          split_ifs <;> exact ht
        · generalize (if db.packs.has m.id then db.packs.countWhere m.owns else 1) = changes
          split
          · exact .fail _
          · unfold insertObjects
            split
            · exact .fail _
            · exact .each fun r _ => hobject r
  exact hkeeps.state ⟨rfl, rfl, rfl, rfl⟩

end GitEdge
