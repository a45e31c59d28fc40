import GitEdge.Repo.CommitSpec
import GitEdge.Repo.Push

/-!
# Atomic pushes

An atomic push judges every command in a dry run against the state before its writes, and writes
them one after another when all pass. The two agree except in two cases: a command that names a ref
which an earlier command of the push has changed, and a create that finds the table of refs full
because of the earlier creates. `commitPush_atomic_iff` says that these are the only ways in which
an atomic push lands in part.
-/

namespace GitEdge

open Sql

/-- Each create of the list finds room for its ref, from `n` refs before the first command. -/
def Room : ℕ → List Cmd → Prop
  | _, [] => True
  | n, c :: cs => (c.old = 0 → n < maxRefs) ∧ Room (c.sizeAfter n) cs

instance decidableRoom : ∀ (n : ℕ) (cs : List Cmd), Decidable (Room n cs)
  | _, [] => isTrue trivial
  | n, c :: cs =>
    have := decidableRoom (c.sizeAfter n) cs
    inferInstanceAs (Decidable ((c.old = 0 → n < maxRefs) ∧ Room (c.sizeAfter n) cs))

/-- No command changes a ref that a later one names. -/
def Unrepeated (cs : List Cmd) : Prop := cs.Pairwise fun c d => c.name = d.name → c.old = c.new

instance (cs : List Cmd) : Decidable (Unrepeated cs) :=
  inferInstanceAs (Decidable (cs.Pairwise _))

section

variable (env : Env) (head : String) (push : PushId) (who : String) (now : ℤ) (barrier : Bool)
  (scopes : List (Option String))

/-- The write pass, from a state whose rules are those of `s₀`, over commands that `s₀` does not
refuse: every command lands exactly when the compare-and-sets land in turn and each create finds
room. -/
theorem landCommands_all_iff {s₀ : Db} (cs : List Cmd) :
    ∀ s, SameRules s₀ s → (∀ c ∈ cs, s₀.refuse env head scopes c = none) →
      ((∀ r ∈ (landCommands env head push who now barrier scopes cs s).1, r.2 = none) ↔
        Cas.Lands s.target (cs.map Cmd.swap) ∧ Room s.refs.size cs) := by
  induction cs with
  | nil => intro s _ _; simp [landCommands, Cas.Lands, Room]
  | cons c cs ih =>
    intro s hs hcs
    have hc := hcs c (by simp)
    have hjudge : s.judge env head scopes c = none ↔
        (c.old = 0 → s.refs.size < maxRefs) ∧ c.swap.Ok s.target := by
      rw [judge_eq_none, refuse_frame hs hc, refCasOk_iff]
    simp only [landCommands, List.forall_mem_cons, hjudge, List.map_cons, Cas.Lands, Room]
    by_cases hok : (c.old = 0 → s.refs.size < maxRefs) ∧ c.swap.Ok s.target
    · have hcas := refCasOk_iff.mpr hok.2
      have htarget : (landed barrier push who now c s).target = c.swap.apply s.target := by
        rw [Db.target, landed_refs]
        exact Cmd.target_write now hok.2 (refuse_null hc)
      rw [if_pos (hjudge.mpr hok), ih _ (hs.trans landed_sameRules)
        (fun d hd => hcs d (by simp [hd])), htarget, landed_refs, Cmd.size_write now hcas]
      tauto
    · tauto

/-- Each command is reported, under the name of its ref. -/
theorem landCommands_names (cs : List Cmd) :
    ∀ s, (landCommands env head push who now barrier scopes cs s).1.map Prod.fst =
      cs.map Cmd.name := by
  induction cs with
  | nil => intro s; rfl
  | cons c cs ih => intro s; simp [landCommands, ih]

/-- The refs after a list of commands that all land. -/
def landRefs (cs : List Cmd) (refs : Table RefRow RefRow.name) : Table RefRow RefRow.name :=
  cs.foldl (fun t c => c.write now t) refs

/-- The refs, when every command lands, are those of the commands written one after another. -/
theorem landCommands_refs (cs : List Cmd) :
    ∀ s, (∀ r ∈ (landCommands env head push who now barrier scopes cs s).1, r.2 = none) →
      (landCommands env head push who now barrier scopes cs s).2.refs = landRefs now cs s.refs := by
  induction cs with
  | nil => intro s _; rfl
  | cons c cs ih =>
    intro s h
    simp only [landCommands, List.forall_mem_cons] at h ⊢
    rw [ih _ h.2, if_pos h.1, landed_refs]
    rfl

/-- The first command of a list that passes the dry run lands. -/
theorem landCommands_first {c : Cmd} {cs : List Cmd} {s : Db}
    (h : s.judge env head scopes c = none) :
    ∃ r ∈ (landCommands env head push who now barrier scopes (c :: cs) s).1, r.2 = none :=
  ⟨(c.name, s.judge env head scopes c), by simp [landCommands], h⟩

/-- The commands of a push that passes the dry run land together exactly when none changes a ref
that a later one names and each create finds room. -/
theorem landCommands_dry_iff {cs : List Cmd} {s : Db}
    (h : ∀ c ∈ cs, s.judge env head scopes c = none) :
    (∀ r ∈ (landCommands env head push who now barrier scopes cs s).1, r.2 = none) ↔
      Unrepeated cs ∧ Room s.refs.size cs := by
  have hrefuse : ∀ c ∈ cs, s.refuse env head scopes c = none := fun c hc =>
    (judge_eq_none.mp (h c hc)).1
  have hok : ∀ c ∈ cs.map Cmd.swap, c.Ok s.target := by
    intro d hd
    obtain ⟨c, hc, rfl⟩ := List.mem_map.mp hd
    exact refCasOk_iff.mp (judge_eq_none.mp (h c hc)).2
  rw [landCommands_all_iff env head push who now barrier scopes cs s (SameRules.refl s) hrefuse,
    Cas.lands_iff hok, List.pairwise_map]
  simp only [Cmd.swap, refTarget_inj, Unrepeated]

end

/-! ## The push as a whole -/

/-- What an atomic push owes its client: every command is reported landed, and the refs are those of
the commands written in order; or every command is reported failed, and the refs, the head and the
live packs are as before. -/
def AllOrNothing (now : ℤ) (cs : List Cmd) (s s' : Db) (results : List RefResult) : Prop :=
  results.map Prod.fst = cs.map Cmd.name ∧
    (((∀ r ∈ results, r.2 = none) ∧ s'.refs = landRefs now cs s.refs) ∨
      ((∀ r ∈ results, r.2 ≠ none) ∧ s'.refs = s.refs ∧ s'.head = s.head ∧
        ∀ p, s'.packLive p = s.packLive p))

/-- An atomic push that reaches its writes lands whole exactly when no command changes a ref that a
later one names and each create finds room; and it is never reported failed as a whole. -/
theorem commitRefs_allOrNothing {env : Env} {req : CommitRequest} {s P : Db} {now : ℤ}
    {scopes : List (Option String)} {results : List RefResult}
    (hrefs : P.refs = s.refs) (hdry : ∀ c ∈ req.commands, P.judge env P.head scopes c = none)
    (hres : ((commitRefs env req now s.barrierActive P.head scopes).run P).res = .ok results) :
    AllOrNothing now req.commands s
        ((commitRefs env req now s.barrierActive P.head scopes).run P).state results ↔
      Unrepeated req.commands ∧ Room s.refs.size req.commands := by
  obtain ⟨hok, jobs, seq, events, dropped, hstate⟩ :=
    commitRefs_eq env req now s.barrierActive P.head scopes P
  rw [hok] at hres
  cases hres
  have hiff := landCommands_dry_iff env P.head req.push_id req.principal now s.barrierActive scopes
    hdry
  rw [hrefs] at hiff
  have hfin : ((commitRefs env req now s.barrierActive P.head scopes).run P).state.refs =
      (landCommands env P.head req.push_id req.principal now s.barrierActive scopes req.commands
        P).2.refs := by
    rw [hstate]
    exact settled_refs _ _ _
  rw [← hiff]
  constructor
  · rintro ⟨-, ⟨hall, -⟩ | ⟨hnone, -⟩⟩
    · exact hall
    · -- The first command has landed.
      cases hc : req.commands with
      | nil => simp [landCommands]
      | cons c cs =>
        rw [hc] at hnone hdry
        obtain ⟨r, hr, hr'⟩ := landCommands_first env P.head req.push_id req.principal now
          s.barrierActive scopes (hdry c (by simp))
        exact absurd hr' (hnone r hr)
  · intro hall
    refine ⟨landCommands_names _ _ _ _ _ _ _ _ _, .inl ⟨hall, ?_⟩⟩
    rw [hfin, landCommands_refs _ _ _ _ _ _ _ _ _ hall, hrefs]

/-- A push that is rejected before its commands are judged changes nothing that a client sees. -/
theorem finishRow_nothing (now : ℤ) (req : CommitRequest) (s : Db) (why : String) :
    AllOrNothing now req.commands s (finishRow req .rejected now (req.all why) s)
    (req.all why) := by
  refine ⟨?_, .inr ⟨?_, rfl, rfl, fun _ => rfl⟩⟩
  · simp [CommitRequest.all]
  · simp [CommitRequest.all]

/-- An atomic push that returns results is all or nothing exactly when, if it reaches its writes, no
command changes a ref that a later one names and each create finds room for its ref. -/
theorem commitPush_atomic_iff (env : Env) (now : ℤ) (req : CommitRequest) (s : Db)
    (results : List RefResult) (hatomic : req.atomic = true)
    (hres : ((commitPush env now req).run s).res = .ok results) :
    AllOrNothing now req.commands s ((commitPush env now req).run s).state results ↔
      (ReachesWrites env now req s → Unrepeated req.commands ∧ Room s.refs.size req.commands) := by
  rcases commitPush_cases env now req s with ⟨m, hr, -⟩ | ⟨hadm, -, why, hr, hs⟩ | ⟨m, hr, -⟩ |
    ⟨_, m, -, -, hr, -⟩ | ⟨scopes, P, hadm, h3, hr, hs⟩
  · rw [hr] at hres; cases hres
  · -- The credential or the epoch.
    rw [hr] at hres
    cases hres
    rw [hs]
    exact iff_of_true (finishRow_nothing now req s why) fun ⟨scopes, h, _⟩ => absurd h (hadm scopes)
  · rw [hr] at hres; cases hres
  · rw [hr] at hres; cases hres
  · rw [hr] at hres
    rw [hs]
    have hrefs : P.refs = s.refs := h3.judged.2.1
    rw [commitCommands_atomic env req now _ scopes hatomic P] at hres ⊢
    rw [h3.reachesWrites_iff hadm]
    by_cases hdry : ∀ c ∈ req.commands, P.judge env P.head scopes c = none
    · rw [if_pos hdry] at hres ⊢
      rw [commitRefs_allOrNothing hrefs hdry hres]
      exact ⟨fun h _ => h, fun h => h hdry⟩
    · -- The dry run has failed.
      rw [if_neg hdry] at hres ⊢
      rw [(rejectAtomic_eq _ _ _ _ P).1] at hres
      cases hres
      obtain ⟨hrefs', hhead', hpacks'⟩ := rejectAtomic_nothing now h3
        (req.commands.map fun c => (c.name, P.judge env P.head scopes c))
      refine iff_of_true ⟨by simp, .inr ⟨by simp, hrefs', hhead', fun p => ?_⟩⟩ fun h =>
        absurd h hdry
      rw [Db.packLive, hpacks', Db.packLive]

/-! ## An atomic push that lands in part -/

/-- A repository with one open push, whose pack holds the commit `7`. -/
def onePush : Db :=
  let env := Env.default fun _ => true
  let db := ((pushBegin env 1 .off ⟨1, "admin", "", true, none⟩).run (boot 0)).state
  ((pushIndex 2 ⟨10, 1, 1, 100⟩ [⟨⟨7, 10, 0, 12, 50, .commit, 40⟩, some []⟩]).run db).state

/-- An atomic push that creates refs at the commit `7`. -/
def createRefs (names : List String) : CommitRequest :=
  ⟨1, some 10, "admin", names.map fun n => ⟨0, 7, n, none⟩, true⟩

/-- Two creates of one ref in an atomic push: the first lands and the second fails. -/
theorem commitPush_atomic_partial :
    ((commitPush (Env.default fun _ => true) 3
        (createRefs ["refs/heads/a", "refs/heads/a"])).run onePush).res =
      .ok [("refs/heads/a", none), ("refs/heads/a", some "failed to update ref")] ∧
    ¬ AllOrNothing 3 (createRefs ["refs/heads/a", "refs/heads/a"]).commands onePush
      ((commitPush (Env.default fun _ => true) 3
        (createRefs ["refs/heads/a", "refs/heads/a"])).run onePush).state
      [("refs/heads/a", none), ("refs/heads/a", some "failed to update ref")] := by
  refine ⟨rfl, ?_⟩
  rintro ⟨-, ⟨h, -⟩ | ⟨h, -⟩⟩
  · exact absurd (h ("refs/heads/a", some "failed to update ref") (by simp)) (by simp)
  · exact h ("refs/heads/a", none) (by simp) rfl

/-- Two creates of different refs land together. -/
theorem commitPush_atomic_two :
    AllOrNothing 3 (createRefs ["refs/heads/a", "refs/heads/b"]).commands onePush
      ((commitPush (Env.default fun _ => true) 3
        (createRefs ["refs/heads/a", "refs/heads/b"])).run onePush).state
      [("refs/heads/a", none), ("refs/heads/b", none)] :=
  (commitPush_atomic_iff (Env.default fun _ => true) 3 (createRefs ["refs/heads/a", "refs/heads/b"])
    onePush [("refs/heads/a", none), ("refs/heads/b", none)] rfl rfl).mpr fun _ =>
      ⟨by decide, by decide⟩

end GitEdge
