import GitEdge.Jobs.Janitor
import GitEdge.Repo.Effect

/-!
# The history of the refs

Pushes and imports race for the refs, and what they report must make sense as one sequence of
compare-and-set commands. A run of the repository is read together with its history, the reports of
all commits in the order of their spans. `Hist.tells` carries two facts through every step: the refs
are what the history makes of an empty repository, and the log holds the youngest of the commands
that were done. The linear order that `refs_linearizable` speaks of is the history itself.
-/

namespace GitEdge

open Sql

variable {db : Db} {h : List Report}

/-- The rows of the log that are past their time come before the others: the clock has not stepped
back across them. -/
def Db.ExpiresOldest (db : Db) (now : ℤ) : Prop :=
  db.reflog.Pairwise fun a b => b.at_ < now - reflogKeepMs → a.at_ < now - reflogKeepMs

/-- A step of the repository, as far as the refs are concerned, with the reports that it makes. The
janitor expires rows of the log; all other code writes neither the refs nor the log. -/
inductive RefStep (env : Env) : Db → List Report → Db → Prop
  | push (now : ℤ) (req : CommitRequest) (s : Db) :
      RefStep env s (req.reports ((commitPush env now req).run s).res)
        ((commitPush env now req).run s).state
  | importPack (now : ℤ) (id : ℕ) (lease : Lease) (p : ImportPayload) (c : ImportCursor)
      (m : PackMeta) (s : Db) :
      RefStep env s (importReports env now id lease p c m s)
        ((commitMeta env now id lease p c m).run s).state
  | expire (now : ℤ) {s : Db} (old : s.ExpiresOldest now) :
      RefStep env s [] ((expireReflog now).run s).state
  | rest {s t : Db} (refs : t.refs = s.refs) (reflog : t.reflog = s.reflog) : RefStep env s [] t

/-- A state that a repository can be in, with the history of its reports. -/
inductive Hist (env : Env) : Db → List Report → Prop
  | boot (now : ℤ) : Hist env (boot now) []
  | step {s t : Db} {h rs : List Report} (hs : Hist env s h) (ht : RefStep env s rs t) :
      Hist env t (h ++ rs)

/-- A new repository has no refs and no log. -/
theorem boot_eq (now : ℤ) : ∃ jobs seq, boot now = { Db.fresh with jobs := jobs, job_seq := seq } :=
  enqueue_eq .janitor now .none .fresh

/-- Where the elements to erase come first, erasing one leaves a suffix. -/
theorem eraseP_suffix {α : Type} {p : α → Bool} {l : List α}
    (h : l.Pairwise fun a b => p b = true → p a = true) : l.eraseP p <:+ l := by
  cases l with
  | nil => exact List.suffix_refl _
  | cons a l =>
    by_cases ha : p a = true
    · rw [List.eraseP_cons_of_pos ha]
      exact List.suffix_cons a l
    · have hnone : ∀ b ∈ a :: l, ¬ p b = true := by
        rintro b (_ | ⟨_, hb⟩)
        · exact ha
        · exact fun hpb => ha ((List.pairwise_cons.mp h).1 b hb hpb)
      exact (List.eraseP_of_forall_not hnone).symm ▸ List.suffix_refl _

/-- The janitor leaves the refs, and the youngest rows of the log. -/
theorem expireReflog_suffix {now : ℤ} {s : Db} (h : s.ExpiresOldest now) :
    ((expireReflog now).run s).state.refs = s.refs ∧
      ((expireReflog now).run s).state.reflog <:+ s.reflog := by
  have hkeeps : Span.Keeps (fun u : Db => u.refs = s.refs ∧ u.reflog <:+ s.reflog)
      (expireReflog now) := by
    refine .bind .read fun _ => .each fun _ _ => .exec fun u hu => ⟨hu.1, ?_⟩
    refine (eraseP_suffix ?_).trans hu.2
    simpa using List.Pairwise.sublist hu.2.sublist h
  exact hkeeps.state ⟨rfl, List.suffix_refl _⟩

/-- The refs go through the history, and the log is what is left of it. -/
theorem Hist.tells {env : Env} (hh : Hist env db h) :
    Cas.Run (fun _ => none) (h.map Report.entry) db.target ∧ Logs h db := by
  induction hh with
  | boot now =>
    obtain ⟨jobs, seq, he⟩ := boot_eq now
    rw [he]
    exact ⟨.nil _, List.nil_suffix⟩
  | @step s t h rs _ ht ih =>
    obtain ⟨hrun, hlog⟩ := ih
    have happend : Tells s rs t → Cas.Run (fun _ => none) ((h ++ rs).map Report.entry) t.target ∧
        Logs (h ++ rs) t := by
      rintro ⟨hrun', hlog'⟩
      rw [List.map_append]
      refine ⟨hrun.append hrun', ?_⟩
      rw [Logs, hlog', doneOf_append]
      exact (List.suffix_append_self_iff).mpr hlog
    cases ht with
    | push now req s => exact happend (commitPush_tells env now req s)
    | importPack now id lease p c m s => exact happend (commitMeta_tells env now id lease p c m s)
    | expire now hold =>
      obtain ⟨hrefs, hsuffix⟩ := expireReflog_suffix hold
      rw [List.append_nil, Db.target, hrefs]
      exact ⟨hrun, (hsuffix.map ReflogRow.swap).trans hlog⟩
    | rest refs reflog => exact happend (.nothing refs reflog)

/-- The rows of the log on one ref, in order. -/
def Db.logOf (db : Db) (name : String) : List ReflogRow := db.reflog.filter fun r => r.name = name

/-- The rows of a ref are the youngest of the commands that were done on it. -/
theorem Logs.logOf (hl : Logs h db) (name : String) :
    (db.logOf name).map ReflogRow.swap <:+ Cas.doneAt name (h.map Report.entry) := by
  have hfilter : (db.logOf name).map ReflogRow.swap =
      (db.reflog.map ReflogRow.swap).filter fun c => c.key = name := by
    rw [List.filter_map]
    rfl
  rw [hfilter, ← doneOf_filter]
  exact hl.filter _

/-- The compare-and-set on refs is linearizable, and the log and the reports follow the same order.
A command that is reported as done found its old id at its place in the history, and put its new id
there; the rows of a ref form a chain that ends in its target; and after a command is done, another
one with the same old id is done only once some command has put that id back. -/
theorem refs_linearizable (env : Env) (hh : Hist env db h) :
    (∀ h₁ r h₂, h = h₁ ++ r :: h₂ → r.verdict = none →
      ∃ T, Cas.Run (fun _ => none) (h₁.map Report.entry) T ∧ T r.cmd.name = refTarget r.cmd.old ∧
        Cas.Run (Function.update T r.cmd.name (refTarget r.cmd.new)) (h₂.map Report.entry)
        db.target) ∧
      (∀ name, (db.logOf name).IsChain (fun a b => b.old = a.new) ∧
        ∀ r ∈ (db.logOf name).getLast?, refTarget r.new = db.target name) ∧
      ∀ h₁ a h₂ b h₃, h = h₁ ++ a :: (h₂ ++ b :: h₃) → a.verdict = none → b.verdict = none →
        b.cmd.name = a.cmd.name → b.cmd.old = a.cmd.old →
        ∃ r ∈ a :: h₂, r.verdict = none ∧ r.cmd.name = a.cmd.name ∧ r.cmd.new = a.cmd.old := by
  obtain ⟨hrun, hlog⟩ := hh.tells
  -- The place of a command in the history.
  have hplace : ∀ {T V : String → Option Oid} {h₁ h₂ : List Report} {r : Report},
      Cas.Run T ((h₁ ++ r :: h₂).map Report.entry) V → r.verdict = none →
      ∃ U, Cas.Run T (h₁.map Report.entry) U ∧ U r.cmd.name = refTarget r.cmd.old ∧
        Cas.Run (Function.update U r.cmd.name (refTarget r.cmd.new)) (h₂.map Report.entry) V := by
    intro T V h₁ h₂ r hr hv
    rw [List.map_append, List.map_cons, Report.entry, hv] at hr
    obtain ⟨U, hU, hV⟩ := hr.split
    cases hV with
    | done hc hV => exact ⟨U, hU, hc, hV⟩
  refine ⟨fun h₁ r h₂ he hv => hplace (he ▸ hrun) hv, fun name => ?_, ?_⟩
  · obtain ⟨hchain, -, hlast⟩ := hrun.chain name
    have hsuffix := hlog.logOf name
    constructor
    · have := (List.isChain_map _).mp (hchain.suffix hsuffix)
      exact this.imp fun a b hab => refTarget_inj.mp hab
    · intro r hr
      have hmem : r.swap ∈ (Cas.doneAt name (h.map Report.entry)).getLast? := by
        obtain ⟨l, hl⟩ := hsuffix
        rw [← hl, List.getLast?_append, List.getLast?_map, Option.mem_def.mp hr]
        rfl
      rw [Option.mem_def.mp hmem] at hlast
      exact hlast.symm
  · intro h₁ a h₂ b h₃ he ha hb hname hold
    obtain ⟨U, -, -, hU⟩ := hplace (he ▸ hrun) ha
    obtain ⟨V, hV, hVb, -⟩ := hplace hU hb
    by_cases hback : a.cmd.new = a.cmd.old
    · exact ⟨a, by simp, ha, rfl, hback⟩
    · -- The ref had the new id after `a`, and has the old one when `b` is done.
      have hne : Function.update U a.cmd.name (refTarget a.cmd.new) a.cmd.name ≠ V a.cmd.name := by
        rw [Function.update_self, ← hname, hVb, hold]
        exact fun h => hback (refTarget_inj.mp h)
      obtain ⟨c, hc, hkey, hnew⟩ := hV.returns hne
      obtain ⟨r, hr, hentry⟩ := List.mem_map.mp hc
      have hswap : r.cmd.swap = c := congrArg Prod.fst hentry
      have hdone : r.verdict.isNone = true := congrArg Prod.snd hentry
      refine ⟨r, by simp [hr], Option.isNone_iff_eq_none.mp hdone, ?_, ?_⟩
      · rw [← hkey, ← hswap]
        rfl
      · rw [← hname, hVb, ← hswap] at hnew
        rw [← hold]
        exact refTarget_inj.mp hnew

/-- Two pushes are open, and the pack of the first holds the two commits that they push. -/
def raceReady : Db :=
  let env := Env.default fun _ => true
  let db := ((pushBegin env 1 .off ⟨1, "admin", "", true, none⟩).run (boot 0)).state
  let db := ((pushIndex 2 ⟨10, 1, 2, 100⟩
    [⟨⟨7, 10, 0, 12, 30, .commit, 40⟩, some []⟩, ⟨⟨8, 10, 1, 42, 30, .commit, 40⟩, some []⟩]).run
    db).state
  ((pushBegin env 3 .off ⟨2, "admin", "", true, none⟩).run db).state

/-- The first push creates the branch. -/
def raceWon : Db :=
  ((commitPush (Env.default fun _ => true) 4 ⟨1, some 10, "admin", [⟨0, 7, "refs/heads/a", none⟩],
    true⟩).run raceReady).state

/-- The second push would create it too. -/
def raceLost : Db :=
  ((commitPush (Env.default fun _ => true) 5 ⟨2, none, "admin", [⟨0, 8, "refs/heads/a", none⟩],
    false⟩).run raceWon).state

/-- Of two pushes that create one branch, the second is refused. -/
theorem refs_linearizable_race :
    Hist (Env.default fun _ => true) raceLost
        [⟨1, ⟨0, 7, "refs/heads/a", none⟩, none⟩,
          ⟨2, ⟨0, 8, "refs/heads/a", none⟩, some "failed to update ref"⟩] ∧
      (raceLost.logOf "refs/heads/a").IsChain (fun a b => b.old = a.new) ∧
      ∀ r ∈ (raceLost.logOf "refs/heads/a").getLast?,
        refTarget r.new = raceLost.target "refs/heads/a" := by
  have hready : Hist (Env.default fun _ => true) raceReady [] :=
    .step (.boot 0) (.rest rfl rfl)
  have hwon := Hist.step hready (.push 4 ⟨1, some 10, "admin", [⟨0, 7, "refs/heads/a", none⟩], true⟩
    raceReady)
  have hlost := Hist.step hwon (.push 5 ⟨2, none, "admin", [⟨0, 8, "refs/heads/a", none⟩], false⟩
    raceWon)
  exact ⟨hlost, (refs_linearizable _ hlost).2.1 "refs/heads/a"⟩

end GitEdge
