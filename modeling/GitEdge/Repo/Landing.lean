import GitEdge.Lib.Cas
import GitEdge.Repo.Commit

/-!
# What the commands of a push do

`apply_one` judges a command by the state that it finds: the checks of `refuse`, and then the
compare-and-set on the ref. `applyOne_dry` and `applyOne_write` say that the dry run returns that
verdict and changes nothing, and that the write returns the same verdict and changes the state
exactly when the command lands; in particular its internal error is unreachable. The refs are
then a map from names to targets on which a command is a compare-and-set (`Cmd.swap`), and
`refuse_frame` says what earlier commands of the same push can change of a later verdict: only the
number of refs.
-/

namespace GitEdge

open Sql

variable {env : Env} {db db' : Db} {head : String} {scopes : List (Option String)} {c : Cmd}

/-! ## The verdict on a command -/

/-- The verdict of `apply_one` in a state: `none` when the command passes. -/
def Db.judge (env : Env) (db : Db) (head : String) (scopes : List (Option String)) (c : Cmd) :
    Option String :=
  (db.refuse env head scopes c).or
    (if db.refCasOk c.name c.old then none else some "failed to update ref")

theorem judge_eq_none : db.judge env head scopes c = none ↔
      db.refuse env head scopes c = none ∧ db.refCasOk c.name c.old = true := by
  simp [Db.judge, Option.or_eq_none_iff]

/-- A command with two null ids is refused. -/
theorem refuse_null (h : db.refuse env head scopes c = none) : ¬ (c.old = 0 ∧ c.new = 0) := by
  rintro ⟨ho, hn⟩
  rw [Db.refuse, Option.or_eq_none_iff] at h
  have := h.1
  simp only [Db.breaksRule, ho, hn, decide_true, Bool.and_self, if_true] at this
  split_ifs at this

/-- The state after a landing: under the barrier the frontier and the version first, then the ref
and the log. -/
def landed (barrier : Bool) (push : PushId) (who : String) (now : ℤ) (c : Cmd) (db : Db) : Db :=
  let db :=
    if barrier then bumpRefsVersion (if c.new ≠ 0 then barrierFeedLanding c.feeds db else db)
    else db
  logRef push who now c { db with refs := c.write now db.refs }

/-! ## The refs as a map -/

/-- The map from the names of the refs to their targets. -/
def targets (refs : Table RefRow RefRow.name) (name : String) : Option Oid :=
  (refs.find name).map (·.target)

/-- The target of a ref. -/
def Db.target (db : Db) : String → Option Oid := targets db.refs

/-- An id as the target of a ref: the null id stands for no ref. -/
def refTarget (id : Oid) : Option Oid := if id = 0 then none else some id

/-- A command as a compare-and-set on the map of the refs. -/
def Cmd.swap (c : Cmd) : Cas.Swap String (Option Oid) := ⟨c.name, refTarget c.old, refTarget c.new⟩

theorem refTarget_inj {a b : Oid} : refTarget a = refTarget b ↔ a = b := by
  unfold refTarget
  split_ifs <;> simp_all [eq_comm]

/-- `ref_cas_ok` is the test of the compare-and-set. -/
theorem refCasOk_iff : db.refCasOk c.name c.old = true ↔
    c.swap.Ok db.target := by
  unfold Db.refCasOk Cas.Swap.Ok Cmd.swap Db.target targets refTarget
  cases db.refs.find c.name with
  | none => by_cases h : c.old = 0 <;> simp [h]
  | some r => by_cases h : c.old = 0 <;> simp [h]

/-- A command whose compare-and-set fails writes nothing. -/
theorem Cmd.write_of_not_cas (now : ℤ) (h : db.refCasOk c.name c.old = false) :
    c.write now db.refs = db.refs ∧ c.changes db.refs = 0 := by
  unfold Db.refCasOk at h
  unfold Cmd.write Cmd.changes
  by_cases ho : c.old = 0
  · -- A create of a ref that is there.
    have hhas : db.refs.has c.name = true := by
      rw [Table.has_eq_isSome]
      cases hf : db.refs.find c.name with
      | none => simp [hf, ho] at h
      | some r => rfl
    simp only [ho, if_true]
    exact ⟨Table.insertIgnore_of_has hhas, by simp [hhas]⟩
  · have hnone :
        ∀ r ∈ db.refs, (decide (r.name = c.name) && decide (r.target = c.old)) = false := by
      intro r hr
      by_contra hc
      simp only [Bool.not_eq_false, Bool.and_eq_true, decide_eq_true_eq] at hc
      have : db.refs.find c.name = some r := Table.find_eq_some.mpr ⟨hr, hc.1⟩
      simp [this, hc.2, ho] at h
    simp only [ho, if_false]
    refine ⟨?_, ?_⟩
    · split_ifs
      · exact Table.deleteWhere_eq_self hnone
      · exact Table.updateWhere_eq_self _ fun r hr hp => by simp [hnone r hr] at hp
    · simp only [Table.countWhere, List.length_eq_zero_iff, List.filter_eq_nil_iff]
      exact fun r hr => by simp [hnone r hr]

/-- A command whose compare-and-set passes writes one row. -/
theorem Cmd.changes_of_cas (h : db.refCasOk c.name c.old = true) : c.changes db.refs = 1 := by
  unfold Db.refCasOk at h
  unfold Cmd.changes
  by_cases ho : c.old = 0
  · cases hf : db.refs.find c.name with
    | none => simp [ho, Table.has_eq_isSome, hf]
    | some r => simp [hf, ho] at h
  · cases hf : db.refs.find c.name with
    | none => simp [hf, ho] at h
    | some r =>
      rw [hf] at h
      simp only [ne_eq, ho, not_false_eq_true, decide_true, Bool.true_and,
        decide_eq_true_eq] at h
      rw [if_neg ho, Table.countWhere_key, hf]
      simp [h]

/-- A landing puts the new target and leaves the other refs alone. -/
theorem Cmd.target_write {refs : Table RefRow RefRow.name} (now : ℤ) (h : c.swap.Ok (targets refs))
    (hnull : ¬ (c.old = 0 ∧ c.new = 0)) :
    targets (c.write now refs) = c.swap.apply (targets refs) := by
  funext n
  unfold Cas.Swap.Ok Cmd.swap targets at h
  unfold Cas.Swap.apply Cmd.swap Cmd.write targets
  simp only [Function.update_apply]
  by_cases ho : c.old = 0
  · have hn : c.new ≠ 0 := fun hn => hnull ⟨ho, hn⟩
    have hnone : refs.find c.name = none := by simpa [refTarget, ho] using h
    have hhas : refs.has c.name = false := by rw [Table.has_eq_isSome, hnone]; rfl
    simp only [ho, if_true, Table.find_insertIgnore, hhas, true_and, refTarget, hn, if_false]
    by_cases he : n = c.name
    · simp [he]
    · simp [he, Ne.symm he]
  · obtain ⟨r, hr, ht⟩ : ∃ r, refs.find c.name = some r ∧ r.target = c.old := by
      simpa [refTarget, ho] using h
    have hname : r.name = c.name := (Table.find_eq_some.mp hr).2
    simp only [ho, if_false]
    split_ifs with hn he he
    · -- A delete of the ref.
      subst he
      simp [Table.find_deleteWhere, hr, hname, ht, refTarget, hn]
    · rw [Table.find_deleteWhere]
      cases hf : refs.find n with
      | none => rfl
      | some q =>
        have hq : q.name ≠ c.name := by rw [(Table.find_eq_some.mp hf).2]; exact he
        simp [hq]
    · subst he
      simp [Table.find_updateWhere, hr, hname, ht, refTarget, hn]
    · rw [Table.find_updateWhere]
      cases hf : refs.find n with
      | none => rfl
      | some q =>
        have hq : q.name ≠ c.name := by rw [(Table.find_eq_some.mp hf).2]; exact he
        simp [hq]

/-- The number of refs after a command lands. -/
def Cmd.sizeAfter (c : Cmd) (n : ℕ) : ℕ :=
  if c.old = 0 then n + 1 else if c.new = 0 then n - 1 else n

theorem Cmd.size_write (now : ℤ) (h : db.refCasOk c.name c.old = true) :
    (c.write now db.refs).size = c.sizeAfter db.refs.size := by
  have hch := Cmd.changes_of_cas h
  unfold Cmd.changes at hch
  unfold Cmd.write Cmd.sizeAfter
  by_cases ho : c.old = 0
  · have hhas : db.refs.has c.name = false := by
      rw [if_pos ho] at hch
      by_contra hc
      simp [hc] at hch
    rw [if_pos ho, if_pos ho, Table.size_insertIgnore_of_not_has hhas]
  · rw [if_neg ho] at hch
    rw [if_neg ho, if_neg ho]
    split_ifs
    · have := db.refs.size_deleteWhere fun r => r.name = c.name && r.target = c.old
      omega
    · exact Table.size_updateWhere _ _ _ _

/-! ## `apply_one` -/

section

variable (env : Env) (head : String) (push : PushId) (who : String) (now : ℤ) (barrier : Bool)
  (scopes : List (Option String))

/-- The dry run returns the verdict and changes nothing. -/
theorem applyOne_dry (c : Cmd) (s : Db) :
    (applyOne env head c push who now false barrier scopes).run s =
      ⟨[], s, .ok (s.judge env head scopes c)⟩ := by
  unfold applyOne
  rw [Span.run_read_bind]
  cases h : s.refuse env head scopes c with
  | some why => simp [Db.judge, h]
  | none => simp [Db.judge, h]

/-- The write returns the verdict, and changes the state when the command lands. -/
theorem applyOne_write (c : Cmd) (s : Db) :
    ((applyOne env head c push who now true barrier scopes).run s).res =
        .ok (s.judge env head scopes c) ∧
      ((applyOne env head c push who now true barrier scopes).run s).state =
        if s.judge env head scopes c = none then landed barrier push who now c s else s := by
  unfold applyOne
  rw [Span.run_read_bind]
  cases h : s.refuse env head scopes c with
  | some why => simp [Db.judge, h]
  | none =>
    cases hcas : s.refCasOk c.name c.old with
    | true =>
      have hch := Cmd.changes_of_cas hcas
      cases barrier
      · simp [Db.judge, h, hcas, hch, landed]
      · by_cases hn : c.new = 0
        · simp [Db.judge, h, hcas, hch, landed, hn, bumpRefsVersion]
        · simp [Db.judge, h, hcas, hch, landed, hn, bumpRefsVersion,
            barrierFeedLanding]
    | false =>
      obtain ⟨hw, hch⟩ := Cmd.write_of_not_cas now hcas
      cases barrier
      · simp [Db.judge, h, hcas, hch, hw]
      · simp [Db.judge, h, hcas]

/-- The dry run of a list of commands. -/
theorem applyAll_dry (cs : List Cmd) (s : Db) :
    (applyAll env head push who now false barrier scopes cs).run s =
      ⟨[], s, .ok (cs.map fun c => (c.name, s.judge env head scopes c))⟩ := by
  induction cs with
  | nil => rfl
  | cons c cs ih =>
    rw [applyAll, Span.run_bind_of_ok (by rw [applyOne_dry]), applyOne_dry,
      Span.run_bind_of_ok (by rw [ih]), ih]
    rfl

/-- The write pass over a list of commands, as a function of the state: the verdicts, and the state
after it. -/
def landCommands : List Cmd → Db → List RefResult × Db
  | [], s => ([], s)
  | c :: cs, s =>
    let rest := landCommands cs
      (if s.judge env head scopes c = none then landed barrier push who now c s else s)
    ((c.name, s.judge env head scopes c) :: rest.1, rest.2)

/-- The write pass never ends with an error. -/
theorem applyAll_write (cs : List Cmd) (s : Db) :
    ((applyAll env head push who now true barrier scopes cs).run s).res =
        .ok (landCommands env head push who now barrier scopes cs s).1 ∧
      ((applyAll env head push who now true barrier scopes cs).run s).state =
        (landCommands env head push who now barrier scopes cs s).2 := by
  induction cs generalizing s with
  | nil => exact ⟨rfl, rfl⟩
  | cons c cs ih =>
    obtain ⟨hres, hstate⟩ := applyOne_write env head push who now barrier scopes c s
    obtain ⟨ihres, ihstate⟩ :=
      ih (if s.judge env head scopes c = none then landed barrier push who now c s else s)
    rw [applyAll, Span.run_bind_of_ok hres, hstate, Span.run_bind_of_ok ihres]
    exact ⟨rfl, ihstate⟩

end

/-! ## What a landing leaves alone -/

/-- The tables by which `refuse` judges, besides the refs, are the same. -/
structure SameRules (db db' : Db) : Prop where
  pins : db'.pins = db.pins
  «protected» : db'.protected = db.protected
  commit_parents : db'.commit_parents = db.commit_parents
  objects : db'.objects = db.objects
  packs : db'.packs = db.packs

theorem SameRules.refl (db : Db) : SameRules db db := ⟨rfl, rfl, rfl, rfl, rfl⟩

theorem SameRules.trans {a b c : Db} (h : SameRules a b) (h' : SameRules b c) : SameRules a c :=
  ⟨h'.pins.trans h.pins, h'.protected.trans h.protected,
    h'.commit_parents.trans h.commit_parents, h'.objects.trans h.objects, h'.packs.trans h.packs⟩

section

variable {barrier : Bool} {push : PushId} {who : String} {now : ℤ} {s : Db}

@[simp] theorem landed_refs : (landed barrier push who now c s).refs = c.write now s.refs := by
  unfold landed
  cases barrier
  · rfl
  · by_cases hn : c.new = 0 <;> simp [hn, logRef, bumpRefsVersion, barrierFeedLanding]

@[simp] theorem landed_head : (landed barrier push who now c s).head = s.head := by
  unfold landed
  cases barrier
  · rfl
  · by_cases hn : c.new = 0 <;> simp [hn, logRef, bumpRefsVersion, barrierFeedLanding]

theorem landed_sameRules : SameRules s (landed barrier push who now c s) := by
  unfold landed
  cases barrier
  · exact ⟨rfl, rfl, rfl, rfl, rfl⟩
  · by_cases hn : c.new = 0 <;>
      constructor <;> simp [hn, logRef, bumpRefsVersion, barrierFeedLanding]

end

theorem ffWalk_congr (h : db'.commit_parents = db.commit_parents) :
    ∀ limit queue anc, ffWalk db' limit queue anc = ffWalk db limit queue anc
  | 0, _, _ => by simp [ffWalk]
  | _ + 1, [], _ => by simp [ffWalk]
  | limit + 1, x :: queue, anc => by
    simp only [ffWalk, Db.parentsOf, h]
    exact ffWalk_congr h limit _ _

theorem SameRules.isProtected (h : SameRules db db') (name : String) :
    db'.isProtected name = db.isProtected name := by
  simp only [Db.isProtected, h.protected]

theorem SameRules.ffAncestor (h : SameRules db db') (old new : Oid) :
    db'.ffAncestor old new = db.ffAncestor old new := by
  have hrec : db'.recorded = db.recorded := by
    funext a
    simp only [Db.recorded, h.commit_parents]
  rw [Db.ffAncestor, Db.ffAncestor, ffWalk_congr h.commit_parents, hrec]

theorem SameRules.lookup (h : SameRules db db') (id : Oid) : db'.lookup id = db.lookup id := by
  simp only [Db.lookup, Db.packLive, h.objects, h.packs]

theorem SameRules.breaksRule (h : SameRules db db') (env : Env) (head : String)
    (scopes : List (Option String)) (c : Cmd) :
    db'.breaksRule env head scopes c = db.breaksRule env head scopes c := by
  simp only [Db.breaksRule, Db.refuseProtected, h.pins, h.isProtected, h.ffAncestor, h.lookup]

/-- The verdict depends on the rules and the refs only. -/
theorem SameRules.judge (h : SameRules db db') (hrefs : db'.refs = db.refs) (env : Env)
    (head : String) (scopes : List (Option String)) (c : Cmd) :
    db'.judge env head scopes c = db.judge env head scopes c := by
  have hcas : db'.refCasOk c.name c.old = db.refCasOk c.name c.old := by
    unfold Db.refCasOk
    rw [hrefs]
  unfold Db.judge Db.refuse
  rw [h.breaksRule, hcas, hrefs]

/-- Of the verdict on a command that passed, earlier commands can change only the room for a new
ref. -/
theorem refuse_frame (h : SameRules db db') (hc : db.refuse env head scopes c = none) :
    db'.refuse env head scopes c = none ↔ (c.old = 0 → db'.refs.size < maxRefs) := by
  have hnull := refuse_null hc
  rw [Db.refuse, Option.or_eq_none_iff] at hc
  simp only [Db.refuse, Option.or_eq_none_iff, h.breaksRule, hc.1, true_and]
  by_cases ho : c.old = 0
  · have hn : c.new ≠ 0 := fun hn => hnull ⟨ho, hn⟩
    simp [ho, hn]
  · simp [ho]

end GitEdge
