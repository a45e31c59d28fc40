import GitEdge.Repo.History
import GitEdge.Repo.Index

/-!
# Protected refs move forward

A command on a protected ref lands only as a create or as a fast-forward, which `ff_ancestor` must
have shown in the recorded graph of commits. Three things make that a statement about the real
history. The rows of `commit_parents` come from ingest and are links of the commits that they name
(`TrueParents`). The query puts out only commits that it reached (`ffWalk_sound`), so a hit is a
path. And the compare-and-set ties the old id of the command to the ref. The limit of the query can
only turn a verdict into a refusal.
-/

namespace GitEdge

open Sql

variable {objs : Objects} {s t db : Db} {rs : List Report}

/-! ## The recorded graph -/

/-- `y` is a parent of the commit `x`. -/
def Objects.Parent (objs : Objects) (x y : Oid) : Prop :=
  objs.kind x = .commit ∧ ∃ c, objs.commit x = some c ∧ y ∈ c.parents

/-- `x` is `y` or descends from it. -/
def Objects.Descends (objs : Objects) (x y : Oid) : Prop := Relation.ReflTransGen objs.Parent x y

/-- The row as ingest posts it: a commit's links after the first are its parents, and a row that is
posted again has none. -/
def PostedRow.FromIngest (objs : Objects) (r : PostedRow) : Prop :=
  r.row.kind = objs.kind r.row.sha ∧
    (r.parents = none ∨ r.parents = some ((objs.links r.row.sha).drop 1))

/-- The recorded parents are parents. -/
def TrueParents (objs : Objects) (db : Db) : Prop :=
  ∀ r ∈ db.commit_parents, 0 ≤ r.n → ∀ p, r.parent = some p → objs.Parent r.sha p

theorem TrueParents.mono (h : TrueParents objs s)
    (ht : ∀ r ∈ t.commit_parents, r ∈ s.commit_parents) : TrueParents objs t :=
  fun r hr => h r (ht r hr)

/-- The rows that ingest records of a commit name its parents. -/
theorem PostedRow.FromIngest.parent {r : PostedRow} (h : r.FromIngest objs) {q : ParentRow}
    (hq : q ∈ r.parentRows) (hn : 0 ≤ q.n) {p : Oid} (hp : q.parent = some p) :
    objs.Parent q.sha p := by
  obtain ⟨hkind, hparents⟩ := h
  unfold PostedRow.parentRows at hq
  split at hq
  · rename_i ps hcommit hps
    rw [hkind] at hcommit
    rcases List.mem_cons.mp hq with rfl | hq
    · cases hp
    · obtain ⟨⟨y, i⟩, hy, rfl⟩ := List.mem_map.mp hq
      cases hp
      have hmem : y ∈ ps := by
        have := List.mem_map_of_mem (f := Prod.fst) hy
        simpa using this
      -- The first link of a commit is its tree.
      have hlinks : ps = (objs.links r.row.sha).drop 1 := by
        rcases hparents with hnone | hsome
        · rw [hnone] at hps
          cases hps
        · rw [hsome] at hps
          exact (Option.some.inj hps).symm
      rw [hlinks, Objects.links, hcommit] at hmem
      cases hc : objs.commit r.row.sha with
      | none => simp [hc] at hmem
      | some c => exact ⟨hcommit, c, hc, by simpa [hc] using hmem⟩
  · cases hq

/-- Ingest keeps the recorded parents true. -/
theorem keeps_trueParents_insertObjects (objs : Objects) (pack : PackId) (rows : List PostedRow)
    (h : ∀ r ∈ rows, r.FromIngest objs) :
    Span.Keeps (TrueParents objs) (insertObjects pack rows) := by
  unfold insertObjects
  split
  · exact .fail _
  · refine .each fun r hr => .bind (.exec fun s hs => hs) fun _ => .each fun q hq => .exec ?_
    intro s hs q' hq' hn p hp
    rcases Table.mem_insertIgnore.mp hq' with hq' | ⟨rfl, -⟩
    · exact hs q' hq' hn p hp
    · exact (h r hr).parent hq hn hp

theorem keeps_trueParents_pushIndex (objs : Objects) (now : ℤ) (m : PackDto) (rows : List PostedRow)
    (h : ∀ r ∈ rows, r.FromIngest objs) :
    Span.Keeps (TrueParents objs) (pushIndex now m rows) := by
  refine .bind .read fun db => ?_
  split
  · exact .fail _
  · split
    · exact .fail _
    · refine .bind (.exec fun t ht => ?_) fun _ => ?_
      · unfold PackDto.upsert
        split_ifs <;> exact ht
      · generalize (if db.packs.has m.id then db.packs.countWhere m.owns else 1) = changes
        split
        · exact .fail _
        · exact keeps_trueParents_insertObjects objs m.id rows h

theorem insertObjects_refs (pack : PackId) (rows : List PostedRow) (s : Db) :
    ((insertObjects pack rows).run s).state.refs = s.refs := by
  have hkeeps : Span.Keeps (fun t : Db => t.refs = s.refs) (insertObjects pack rows) := by
    unfold insertObjects
    split
    · exact .fail _
    · exact .each fun r _ => .bind (.exec fun t ht => ht) fun _ => .each fun q _ =>
        .exec fun t ht => ht
  exact hkeeps.state rfl

/-! ## The fast-forward walk -/

theorem mem_parentsOf {x y : Oid} (h : y ∈ db.parentsOf x) :
    ∃ r ∈ db.commit_parents, r.sha = x ∧ 0 ≤ r.n ∧ r.parent = some y := by
  obtain ⟨r, hr, hp⟩ := List.mem_filterMap.mp h
  obtain ⟨hmem, hcond⟩ := List.mem_filter.mp hr
  simp only [Bool.and_eq_true, decide_eq_true_eq] at hcond
  exact ⟨r, hmem, hcond.1, hcond.2, hp⟩

/-- The query puts out what it had, and what its queue reaches. -/
theorem ffWalk_sound (h : TrueParents objs db) (limit : ℕ) :
    ∀ queue anc, ∀ x ∈ ffWalk db limit queue anc, x ∈ anc ∨ ∃ q ∈ queue, objs.Descends q x := by
  induction limit with
  | zero => exact fun queue anc x hx => .inl (by simpa [ffWalk] using hx)
  | succ limit ih =>
    intro queue anc x hx
    cases queue with
    | nil => exact .inl (by simpa [ffWalk] using hx)
    | cons y queue =>
      rcases ih _ _ x hx with hx | ⟨q, hq, hdesc⟩
      · rcases List.mem_append.mp hx with hx | hx
        · exact .inl hx
        · rw [List.mem_singleton.mp hx]
          exact .inr ⟨y, by simp, .refl⟩
      · rcases List.mem_append.mp hq with hq | hq
        · exact .inr ⟨q, by simp [hq], hdesc⟩
        · -- A new row is a parent of the one that was taken from the queue.
          have hparent := List.mem_dedup.mp (List.mem_filter.mp hq).1
          obtain ⟨r, hr, rfl, hn, hp⟩ := mem_parentsOf hparent
          exact .inr ⟨r.sha, by simp, .head (h r hr hn q hp) hdesc⟩

/-- A proven fast-forward is one. -/
theorem ffAncestor_sound (h : TrueParents objs db) {old new : Oid}
    (hff : db.ffAncestor old new = some true) : objs.Descends new old := by
  unfold Db.ffAncestor ffVerdict at hff
  by_cases hmem : (ffWalk db ffWalkMax [new] []).contains old = true
  · rcases ffWalk_sound h _ _ _ old (List.contains_iff_mem.mp hmem) with h | ⟨q, hq, hdesc⟩
    · cases h
    · rw [List.mem_singleton.mp hq] at hdesc
      exact hdesc
  · rw [if_neg hmem] at hff
    split_ifs at hff
    simp at hff

/-! ## Commands on a protected ref -/

/-- What a command on a protected ref must be: no delete, and a fast-forward that was proven if the
ref exists. -/
def Db.Forward (db : Db) (c : Cmd) : Prop :=
  c.new ≠ 0 ∧ (c.old ≠ 0 → db.ffAncestor c.old c.new = some true)

theorem forward_of_passes {c : Cmd} (hprot : db.isProtected c.name = true)
    (h : db.refuseProtected c = none) : db.Forward c := by
  unfold Db.refuseProtected protectedVerdict at h
  rw [if_pos hprot] at h
  by_cases hn : c.new = 0
  · simp [hn] at h
  · refine ⟨hn, fun ho => ?_⟩
    simp only [hn, ho, decide_false, Bool.false_eq_true, if_false, Bool.or_self] at h
    split at h
    · assumption
    · cases h
    · cases h

/-- A command that lands passes the rules of the state before the writes. -/
theorem landCommands_done (env : Env) (head : String) (push : PushId) (who : String) (now : ℤ)
    (barrier : Bool) (scopes : List (Option String)) (cs : List Cmd) (s : Db) :
    ∀ x ∈ cs.zip (landCommands env head push who now barrier scopes cs s).1, x.2.2 = none →
      Passes env s head scopes x.1 := by
  induction cs generalizing s with
  | nil => exact fun x hx => by cases hx
  | cons c cs ih =>
    intro x hx hnone
    simp only [landCommands, List.zip_cons_cons] at hx
    rcases List.mem_cons.mp hx with rfl | hx
    · have hrefuse := (judge_eq_none.mp hnone).1
      rw [Db.refuse, Option.or_eq_none_iff] at hrefuse
      exact passes_of_breaksRule hrefuse.1
    · have hpass := ih _ x hx hnone
      split_ifs at hpass
      · have hrules := @landed_sameRules c barrier push who now s
        refine ⟨hpass.valid, hpass.scopes, hpass.notNull, ?_, hpass.notHead, ?_, ?_⟩
        · rw [← hrules.pins]
          exact hpass.notPinned
        · have := hpass.protected
          unfold Db.refuseProtected at this ⊢
          rwa [hrules.isProtected, hrules.ffAncestor] at this
        · rw [← hrules.lookup]
          exact hpass.found
      · exact hpass

/-- The rules of a protected ref read the patterns and the recorded parents only. -/
theorem Kept.isProtected (h : Kept s t) (name : String) :
    t.isProtected name = s.isProtected name := by
  simp only [Db.isProtected, h.protected]

theorem Kept.forward (h : Kept s t) {c : Cmd} (hf : t.Forward c) : s.Forward c := by
  refine ⟨hf.1, fun ho => ?_⟩
  have hrec : t.recorded = s.recorded := by
    funext x
    simp only [Db.recorded, h.commit_parents]
  have hff := hf.2 ho
  rwa [Db.ffAncestor, ffWalk_congr h.commit_parents, hrec] at hff

/-- A commit reports no command on a protected ref as done that is not forward. -/
theorem commitPush_forward (env : Env) (now : ℤ) (req : CommitRequest) (s : Db) :
    ∀ r ∈ req.reports ((commitPush env now req).run s).res, r.verdict = none →
      s.isProtected r.cmd.name = true → s.Forward r.cmd := by
  intro r hr hnone hprot
  rcases commitPush_effect env now req s with ⟨-, -, -, href⟩ | ⟨scopes, P, -, h3, hres, -⟩
  · cases hres : ((commitPush env now req).run s).res with
    | error e => simp [hres, CommitRequest.reports] at hr
    | ok rs =>
      simp only [hres, CommitRequest.reports, List.mem_map] at hr
      obtain ⟨⟨c, x⟩, hx, rfl⟩ := hr
      exact absurd hnone (href rs hres x (List.of_mem_zip hx).2)
  · rw [hres] at hr
    obtain ⟨x, hx, rfl⟩ := List.mem_map.mp hr
    have hpass := landCommands_done env P.head req.push_id req.principal now s.barrierActive scopes
      req.commands P x hx hnone
    have hP : P.isProtected x.1.name = true := (h3.kept.isProtected _).trans hprot
    exact h3.kept.forward (forward_of_passes hP hpass.protected)

theorem commitMeta_forward (env : Env) (now : ℤ) (id : ℕ) (lease : Lease) (p : ImportPayload)
    (c : ImportCursor) (m : PackMeta) (s : Db) :
    ∀ r ∈ importReports env now id lease p c m s, r.verdict = none →
      s.isProtected r.cmd.name = true → s.Forward r.cmd := by
  intro r hr hnone hprot
  unfold importReports at hr
  have hkept := kept_prepared now id lease p m s
  split_ifs at hr
  · exact hkept.forward (commitPush_forward env now p.request _ r hr hnone
      ((hkept.isProtected _).trans hprot))
  · cases hr

/-! ## Runs -/

/-- The statement of `protect`. -/
def protectRef (pattern : String) (db : Db) : Db :=
  if pattern ∈ db.protected then db else { db with «protected» := db.protected ++ [pattern] }

/-- The statement of `unprotect`. -/
def unprotectRef (pattern : String) (db : Db) : Db :=
  { db with «protected» := db.protected.filter fun p => p ≠ pattern }

/-- A step of the repository, as far as protected refs are concerned, with the reports that it
makes. All other code, the garbage collection with it, writes no ref and records no parent. -/
inductive ProtectStep (env : Env) (objs : Objects) : Db → List Report → Db → Prop
  | push (now : ℤ) (req : CommitRequest) (s : Db) :
      ProtectStep env objs s (req.reports ((commitPush env now req).run s).res)
        ((commitPush env now req).run s).state
  | importPack (now : ℤ) (id : ℕ) (lease : Lease) (p : ImportPayload) (c : ImportCursor)
      (m : PackMeta) (s : Db) :
      ProtectStep env objs s (importReports env now id lease p c m s)
        ((commitMeta env now id lease p c m).run s).state
  | index (now : ℤ) (m : PackDto) (rows : List PostedRow) (s : Db)
      (ingest : ∀ r ∈ rows, r.FromIngest objs) :
      ProtectStep env objs s [] ((pushIndex now m rows).run s).state
  | importRows (pack : PackId) (rows : List PostedRow) (s : Db)
      (ingest : ∀ r ∈ rows, r.FromIngest objs) :
      ProtectStep env objs s [] ((insertObjects pack rows).run s).state
  | protect (pattern : String) (s : Db) : ProtectStep env objs s [] (protectRef pattern s)
  | unprotect (pattern : String) (s : Db) : ProtectStep env objs s [] (unprotectRef pattern s)
  | rest {s t : Db} (refs : t.refs = s.refs)
      (parents : ∀ r ∈ t.commit_parents, r ∈ s.commit_parents) : ProtectStep env objs s [] t

/-- The states of a repository. -/
inductive ProtectReach (env : Env) (objs : Objects) : Db → Prop
  | boot (now : ℤ) : ProtectReach env objs (boot now)
  | step {s t : Db} {rs : List Report} (hs : ProtectReach env objs s)
      (ht : ProtectStep env objs s rs t) : ProtectReach env objs t

/-- A period in which a ref is protected: from the first state to the last, every step is taken
while it is. -/
inductive Period (env : Env) (objs : Objects) (name : String) : Db → Db → Prop
  | refl (s : Db) : Period env objs name s s
  | step {s t u : Db} {rs : List Report} (hp : Period env objs name s t)
      (hprot : t.isProtected name = true) (ht : ProtectStep env objs t rs u) :
      Period env objs name s u

section

variable {env : Env}

theorem ProtectStep.trueParents (ht : ProtectStep env objs s rs t) (hs : TrueParents objs s) :
    TrueParents objs t := by
  have hsame : ∀ {t : Db}, t.commit_parents = s.commit_parents → TrueParents objs t :=
    fun h => hs.mono fun r hr => h ▸ hr
  cases ht with
  | push now req => exact hsame (commitPush_kept env now req s).commit_parents
  | importPack now id lease p c m =>
    exact hsame (commitMeta_kept env now id lease p c m s).commit_parents
  | index now m rows _ ingest => exact (keeps_trueParents_pushIndex objs now m rows ingest).state hs
  | importRows pack rows _ ingest =>
    exact (keeps_trueParents_insertObjects objs pack rows ingest).state hs
  | protect pattern =>
    unfold protectRef
    split_ifs <;> exact hs
  | unprotect pattern => exact hs
  | rest refs parents => exact hs.mono parents

theorem ProtectReach.trueParents (hs : ProtectReach env objs s) : TrueParents objs s := by
  induction hs with
  | boot now =>
    obtain ⟨jobs, seq, he⟩ := boot_eq now
    rw [he]
    exact fun r hr => absurd hr (Table.not_mem_empty r)
  | step _ ht ih => exact ht.trueParents ih

/-- The refs of a step go through its reports, and what it reports as done on a protected ref is
forward. -/
theorem ProtectStep.effect (ht : ProtectStep env objs s rs t) :
    Cas.Run s.target (rs.map Report.entry) t.target ∧
      ∀ r ∈ rs, r.verdict = none → s.isProtected r.cmd.name = true → s.Forward r.cmd := by
  have hnone : t.refs = s.refs → Cas.Run s.target (([] : List Report).map Report.entry) t.target ∧
      ∀ r ∈ ([] : List Report), r.verdict = none → s.isProtected r.cmd.name = true →
        s.Forward r.cmd := by
    intro h
    rw [Db.target, Db.target, h]
    exact ⟨.nil _, fun r hr => by cases hr⟩
  cases ht with
  | push now req =>
    exact ⟨(commitPush_tells env now req s).run, commitPush_forward env now req s⟩
  | importPack now id lease p c m =>
    exact ⟨(commitMeta_tells env now id lease p c m s).run,
      commitMeta_forward env now id lease p c m s⟩
  | index now m rows => exact hnone (pushIndex_frame now m rows s).1
  | importRows pack rows => exact hnone (insertObjects_refs pack rows s)
  | protect pattern =>
    refine hnone ?_
    unfold protectRef
    split_ifs <;> rfl
  | unprotect pattern => exact hnone rfl
  | rest refs parents => exact hnone refs

/-- A history whose commands on a ref are forward takes the ref forward. -/
theorem run_forward {T U : String → Option Oid} {name : String}
    (hr : Cas.Run T (rs.map Report.entry) U) (hf : ∀ r ∈ rs, r.verdict = none → r.cmd.name = name →
      r.cmd.new ≠ 0 ∧ (r.cmd.old ≠ 0 → objs.Descends r.cmd.new r.cmd.old)) {x : Oid}
    (hx : T name = some x) : ∃ y, U name = some y ∧ objs.Descends y x := by
  induction rs generalizing T x with
  | nil =>
    cases hr
    exact ⟨x, hx, .refl⟩
  | cons r rs ih =>
    have hrest : ∀ r' ∈ rs, r'.verdict = none → r'.cmd.name = name → r'.cmd.new ≠ 0 ∧
        (r'.cmd.old ≠ 0 → objs.Descends r'.cmd.new r'.cmd.old) :=
      fun r' hr' => hf r' (by simp [hr'])
    rw [List.map_cons] at hr
    generalize hentry : r.entry = e at hr
    cases hr with
    | refused hr => exact ih hr hrest hx
    | @done _ _ c _ hc hr =>
      have hswap : c = r.cmd.swap := (congrArg Prod.fst hentry).symm
      have hdone : r.verdict = none := Option.isNone_iff_eq_none.mp (congrArg Prod.snd hentry)
      subst hswap
      by_cases hname : r.cmd.name = name
      · obtain ⟨hn, hdesc⟩ := hf r (by simp) hdone hname
        -- The ref had the old id, which is not null.
        have hold : refTarget r.cmd.old = some x := by
          rw [← hx, ← hname]
          exact hc.symm
        have hold' : r.cmd.old ≠ 0 ∧ r.cmd.old = x := by
          unfold refTarget at hold
          split_ifs at hold with h0
          exact ⟨h0, Option.some.inj hold⟩
        have hnew : r.cmd.swap.apply T name = some r.cmd.new := by
          rw [Cas.Swap.apply, ← hname]
          show Function.update T r.cmd.name (refTarget r.cmd.new) r.cmd.name = _
          rw [Function.update_self, refTarget, if_neg hn]
        obtain ⟨y, hy, hyd⟩ := ih hr hrest hnew
        exact ⟨y, hy, hyd.trans (hold'.2 ▸ hdesc hold'.1)⟩
      · exact ih hr hrest ((Function.update_of_ne (Ne.symm hname) _ _).trans hx)

/-- In every run, through any period in which a ref is protected, the ref is not deleted, and its
target is the first one of the period or descends from it; and a command on a protected ref is
reported as done only if it is no delete and, on a ref that exists, the walk has proven that its new
id is the old one or descends from it. -/
theorem protected_moves_forward (hs : ProtectReach env objs s) (name : String) :
    (∀ t, Period env objs name s t → ∀ x, s.target name = some x →
      ∃ y, t.target name = some y ∧ objs.Descends y x) ∧
      ∀ rs t, ProtectStep env objs s rs t → s.isProtected name = true → ∀ r ∈ rs,
        r.cmd.name = name → r.verdict = none → r.cmd.new ≠ 0 ∧ (r.cmd.old ≠ 0 →
          s.ffAncestor r.cmd.old r.cmd.new = some true ∧ objs.Descends r.cmd.new r.cmd.old) := by
  have hstep : ∀ {s rs t}, ProtectReach env objs s → ProtectStep env objs s rs t →
      s.isProtected name = true → ∀ r ∈ rs, r.cmd.name = name → r.verdict = none →
        r.cmd.new ≠ 0 ∧ (r.cmd.old ≠ 0 → s.ffAncestor r.cmd.old r.cmd.new = some true ∧
          objs.Descends r.cmd.new r.cmd.old) := by
    intro s rs t hs ht hprot r hr hname hdone
    obtain ⟨hn, hff⟩ := ht.effect.2 r hr hdone (hname ▸ hprot)
    exact ⟨hn, fun ho => ⟨hff ho, ffAncestor_sound hs.trueParents (hff ho)⟩⟩
  refine ⟨fun t ht x hx => ?_, fun rs t ht hprot => hstep hs ht hprot⟩
  -- Along the period, with the states reached.
  have hrun : ProtectReach env objs t ∧ ∃ y, t.target name = some y ∧ objs.Descends y x := by
    induction ht with
    | refl => exact ⟨hs, x, hx, .refl⟩
    | @step t u rs _ hprot hu ih =>
      obtain ⟨ht, y, hy, hyd⟩ := ih
      refine ⟨ht.step hu, ?_⟩
      obtain ⟨z, hz, hzd⟩ := run_forward hu.effect.1 (fun r hr hdone hname =>
        ⟨(hstep ht hu hprot r hr hname hdone).1, fun ho =>
          ((hstep ht hu hprot r hr hname hdone).2 ho).2⟩) hy
      exact ⟨z, hz, hzd.trans hyd⟩
  exact hrun.2

end

/-- Two commits, of which the second is a child of the first. -/
def twoCommits : Objects where
  kind _ := .commit
  size _ := 40
  commit x := some ⟨5, if x = 8 then [7] else [], none⟩
  tree _ := none
  tag _ := none

/-- A protected branch at the first commit, and a push that is open. -/
def forwardReady : Db :=
  let env := Env.default fun _ => true
  let db := ((pushBegin env 1 .off ⟨1, "admin", "", true, none⟩).run (boot 0)).state
  let db := ((pushIndex 2 ⟨10, 1, 2, 100⟩
    [⟨⟨7, 10, 0, 12, 30, .commit, 40⟩, some []⟩, ⟨⟨8, 10, 1, 42, 30, .commit, 40⟩, some [7]⟩]).run
    db).state
  let db := ((commitPush env 3 ⟨1, some 10, "admin", [⟨0, 7, "refs/heads/a", none⟩], true⟩).run
    db).state
  let db := ((pushBegin env 4 .off ⟨2, "admin", "", true, none⟩).run db).state
  protectRef "refs/heads/*" db

/-- The push moves the branch to the second commit. -/
def forwardDone : Db :=
  ((commitPush (Env.default fun _ => true) 5 ⟨2, none, "admin", [⟨7, 8, "refs/heads/a", none⟩],
    false⟩).run forwardReady).state

/-- A protected branch that moves from a commit to its child. -/
theorem protected_moves_forward_child :
    ProtectReach (Env.default fun _ => true) twoCommits forwardReady ∧
      forwardReady.isProtected "refs/heads/a" = true ∧
      forwardReady.target "refs/heads/a" = some 7 ∧ forwardDone.target "refs/heads/a" = some 8 ∧
      ∃ y, forwardDone.target "refs/heads/a" = some y ∧ twoCommits.Descends y 7 := by
  have hreach : ProtectReach (Env.default fun _ => true) twoCommits forwardReady := by
    have hbegin : ∀ {s : Db} (now : ℤ) (b : BeginDto),
        ProtectReach (Env.default fun _ => true) twoCommits s →
        ProtectReach (Env.default fun _ => true)
          twoCommits ((pushBegin (Env.default fun _ => true) now .off b).run s).state := by
      intro s now b hs
      obtain ⟨rate, hstate⟩ := pushBegin_state (Env.default fun _ => true) now .off b s
      rw [hstate]
      dsimp only
      split <;> exact hs.step (.rest rfl fun r hr => hr)
    have hindex := (hbegin 1 ⟨1, "admin", "", true, none⟩ (.boot 0)).step (.index 2 ⟨10, 1, 2, 100⟩
      [⟨⟨7, 10, 0, 12, 30, .commit, 40⟩, some []⟩, ⟨⟨8, 10, 1, 42, 30, .commit, 40⟩, some [7]⟩]
      _ ?_)
    · exact (hbegin 4 ⟨2, "admin", "", true, none⟩ (hindex.step (.push 3
        ⟨1, some 10, "admin", [⟨0, 7, "refs/heads/a", none⟩], true⟩ _))).step
        (.protect "refs/heads/*" _)
    · intro r hr
      simp only [List.mem_cons, List.not_mem_nil, or_false] at hr
      rcases hr with rfl | rfl <;> exact ⟨rfl, .inr rfl⟩
  have hprot : forwardReady.isProtected "refs/heads/a" = true := by decide
  have htarget : forwardReady.target "refs/heads/a" = some 7 := by decide
  refine ⟨hreach, hprot, htarget, by decide, ?_⟩
  exact (protected_moves_forward hreach "refs/heads/a").1 _ (.step (.refl _) hprot
    (.push 5 ⟨2, none, "admin", [⟨7, 8, "refs/heads/a", none⟩], false⟩ forwardReady)) 7 htarget

end GitEdge
