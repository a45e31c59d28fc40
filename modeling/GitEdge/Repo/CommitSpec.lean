import GitEdge.Repo.Landing

/-!
# How a commit can end

`commit_push` by its ends. A part of it is described by the columns that it writes: the state after
it is the state before with those replaced, so everything else is seen to be unchanged. At the end
`commitPush_cases` lists the six ways in which a commit can end, with the state that each leaves.
-/

namespace GitEdge

open Sql

variable {now : ℤ} {req : CommitRequest} {s P : Db}

/-! ## The parts of a commit -/

/-- `enqueue` writes the jobs only. -/
theorem enqueue_eq (kind : JobKind) (run_at : ℤ) (payload : Payload) (s : Db) :
    ∃ jobs seq, enqueue kind run_at payload s = { s with jobs := jobs, job_seq := seq } := by
  unfold enqueue
  split_ifs
  · exact ⟨s.jobs, s.job_seq, rfl⟩
  · exact ⟨_, _, rfl⟩

/-- `trigger` writes the jobs only. -/
theorem trigger_eq (env : Env) (now : ℤ) (s : Db) :
    ∃ jobs seq, ((trigger env now).run s).state = { s with jobs := jobs, job_seq := seq } := by
  unfold trigger
  rw [Span.run_read_bind]
  dsimp only
  split
  · exact ⟨s.jobs, s.job_seq, rfl⟩
  · rename_i t _
    obtain ⟨jobs, seq, h⟩ := enqueue_eq .gcCompact t .none s
    refine ⟨(pullForward t (enqueue .gcCompact t .none s)).jobs, seq, ?_⟩
    rw [Span.run_exec_bind, Span.run_exec, pullForward, h]

/-- `record_push_event` writes the outbox and the jobs only. -/
theorem recordPushEvent_eq (env : Env) (req : CommitRequest) (results : List RefResult) (now : ℤ)
    (s : Db) :
    ((recordPushEvent env req results now).run s).res = .ok () ∧
      ∃ jobs seq events dropped, ((recordPushEvent env req results now).run s).state =
        { s with
          jobs := jobs, job_seq := seq, push_events := events, push_events_dropped :=
            dropped } := by
  unfold recordPushEvent
  rw [Span.run_read_bind]
  split_ifs
  · exact ⟨rfl, s.jobs, s.job_seq, s.push_events, s.push_events_dropped, rfl⟩
  · exact ⟨rfl, s.jobs, s.job_seq, s.push_events, _, rfl⟩
  · obtain ⟨jobs, seq, h⟩ := enqueue_eq .pushEvent now .none
      { s with push_events := s.push_events.insert (req.event results now) }
    refine ⟨rfl, jobs, seq, s.push_events.insert (req.event results now), s.push_events_dropped, ?_⟩
    rw [Span.run_exec_bind, Span.run_exec, h]

/-- The state with the push's pack pending, as the barrier writes it before the promotion. -/
def withPending (barrier : Bool) (pack : PackId) (db : Db) : Db :=
  if barrier then bumpRefsVersion (addPending pack db) else db

/-- The barrier writes the pending packs and the version only. -/
theorem withPending_eq (barrier : Bool) (pack : PackId) (s : Db) :
    ∃ pending seq version, withPending barrier pack s =
      { s with gc_pending := pending, pending_seq := seq, refs_version := version } := by
  unfold withPending addPending bumpRefsVersion
  split_ifs
  · exact ⟨s.gc_pending, s.pending_seq, s.refs_version + 1, rfl⟩
  · exact ⟨_, _, s.refs_version + 1, rfl⟩
  · exact ⟨s.gc_pending, s.pending_seq, s.refs_version, rfl⟩

/-- Step 3 of a commit: over quota the push is rejected, without a pack to promote nothing else
happens, and otherwise the pack is live. -/
theorem promotePack_cases (env : Env) (req : CommitRequest) (now : ℤ) (barrier : Bool)
    (pack : PackId) (s : Db) :
    let o := (promotePack env req now barrier pack).run s
    let quota := overQuota env (s.storageTotals req.push_id).1 (s.storageTotals req.push_id).2
    (quota ≠ none ∧ ∃ m, o.res = .error (.limit m) ∧
        o.state = finishRow req .rejected now (req.all "over repo quota") s) ∨
      (s.packs.countWhere (promotable req.push_id pack) ≠ 1 ∧
        o.res = .error (.conflict "pack not in state ingesting") ∧
        o.state = promote req.push_id pack (withPending barrier pack s)) ∨
      (quota = none ∧ s.packs.countWhere (promotable req.push_id pack) = 1 ∧ o.res = .ok () ∧
        ∃ jobs seq, o.state =
          { promote req.push_id pack (withPending barrier pack s) with
            jobs := jobs, job_seq := seq }) := by
  intro o quota
  have hpacks : (withPending barrier pack s).packs = s.packs := by
    obtain ⟨_, _, _, h⟩ := withPending_eq barrier pack s
    rw [h]
  -- After the quota: the pending row, the promotion and the trigger.
  have hrest : quota = none → o.state = (if s.packs.countWhere (promotable req.push_id pack) ≠ 1 then
          promote req.push_id pack (withPending barrier pack s)
        else ((trigger env now).run
          (promote req.push_id pack (withPending barrier pack s))).state) ∧
      o.res = (if s.packs.countWhere (promotable req.push_id pack) ≠ 1 then
          .error (.conflict "pack not in state ingesting") else .ok ()) := by
    intro hq
    show ((promotePack env req now barrier pack).run s).state = _ ∧
      ((promotePack env req now barrier pack).run s).res = _
    unfold promotePack
    rw [Span.run_read_bind]
    simp only [show overQuota env _ _ = _ from hq]
    cases barrier
    · simp only [Bool.false_eq_true, if_false, Span.run_read_bind, Span.run_exec_bind,
        withPending]
      split_ifs <;> exact ⟨rfl, rfl⟩
    · simp only [withPending, if_true] at hpacks
      simp only [if_true, barrierWritePendingBeforePromote, Span.bind_assoc, Span.run_exec_bind,
        Span.run_read_bind, withPending, hpacks]
      split_ifs <;> exact ⟨rfl, rfl⟩
  cases hq : quota with
  | some m =>
    left
    refine ⟨by simp, s!"repo quota exceeded: {m}", ?_⟩
    show ((promotePack env req now barrier pack).run s).res = _ ∧
      ((promotePack env req now barrier pack).run s).state = _
    unfold promotePack
    rw [Span.run_read_bind]
    simp only [show overQuota env _ _ = _ from hq]
    exact ⟨rfl, rfl⟩
  | none =>
    right
    obtain ⟨hstate, hres⟩ := hrest hq
    by_cases hc : s.packs.countWhere (promotable req.push_id pack) = 1
    · right
      rw [if_neg (by simpa using hc)] at hstate hres
      obtain ⟨jobs, seq, ht⟩ :=
        trigger_eq env now (promote req.push_id pack (withPending barrier pack s))
      exact ⟨rfl, hc, hres, jobs, seq, hstate.trans ht⟩
    · left
      rw [if_pos hc] at hstate hres
      exact ⟨hc, hres, hstate⟩

/-- The state after the writes of a push, up to the jobs and the outbox: the version moves when a
ref landed or a pack went live, and a landing may adopt a branch as `HEAD`. -/
def settled (any_ok : Bool) (req : CommitRequest) (db : Db) : Db :=
  let db := if any_ok || req.pack_id.isSome then bumpRefsVersion db else db
  if any_ok then adoptHead db else db

/-- Steps 4 to 7 of a commit. -/
theorem commitRefs_eq (env : Env) (req : CommitRequest) (now : ℤ) (barrier : Bool) (head : String)
    (scopes : List (Option String)) (s : Db) :
    let L := landCommands env head req.push_id req.principal now barrier scopes req.commands s
    let o := (commitRefs env req now barrier head scopes).run s
    o.res = .ok L.1 ∧ ∃ jobs seq events dropped, o.state =
      finishRow req .committed now L.1
        { settled (L.1.any fun r => r.2.isNone) req L.2 with
          jobs := jobs, job_seq := seq, push_events := events, push_events_dropped :=
            dropped } := by
  intro L o
  obtain ⟨hres, hstate⟩ :=
    applyAll_write env head req.push_id req.principal now barrier scopes req.commands s
  show ((commitRefs env req now barrier head scopes).run s).res = _ ∧ ∃ jobs seq events dropped,
    ((commitRefs env req now barrier head scopes).run s).state = _
  unfold commitRefs
  rw [Span.run_bind_of_ok hres, hstate]
  cases L.1.any fun r => r.2.isNone with
  | false =>
    cases hp : req.pack_id.isSome with
    | false =>
      simp only [hp, Bool.or_self, Bool.false_eq_true, if_false, finishPush, Span.run_exec_bind,
        Span.run_pure, settled]
      exact ⟨rfl, _, _, _, _, rfl⟩
    | true =>
      simp only [hp, Bool.or_true, Bool.false_eq_true, if_false, if_true, finishPush,
        Span.run_exec_bind, Span.run_pure, settled]
      exact ⟨rfl, _, _, _, _, rfl⟩
  | true =>
    obtain ⟨jobs, seq, henq⟩ :=
      enqueue_eq .gcMark (now + env.gc_quiet_ms) .none (adoptHead (bumpRefsVersion L.2))
    obtain ⟨hok, jobs', seq', events, dropped, hev⟩ := recordPushEvent_eq env req L.1 now
      (enqueue .gcMark (now + env.gc_quiet_ms) .none (adoptHead (bumpRefsVersion L.2)))
    simp only [Bool.true_or, if_true, Span.run_exec_bind]
    rw [Span.run_bind_of_ok hok, hev, henq]
    refine ⟨rfl, jobs', seq', events, dropped, ?_⟩
    simp only [finishPush, Span.run_exec_bind, Span.run_pure, settled, Bool.true_or, if_true]
    rfl

/-- The end of an atomic push whose dry run failed. -/
theorem rejectAtomic_eq (req : CommitRequest) (now : ℤ) (barrier : Bool) (results : List RefResult)
    (s : Db) :
    let rejected := results.map fun r => (r.1, r.2.or (some "atomic push failed"))
    let o := (rejectAtomic req now barrier results).run s
    o.res = .ok rejected ∧ o.state = finishRow req .rejected now rejected
      (match req.pack_id with
      | none => s
      | some pack =>
        if barrier then dropPending pack (demote req.push_id pack s)
        else demote req.push_id pack s) := by
  intro rejected o
  show ((rejectAtomic req now barrier results).run s).res = _ ∧
    ((rejectAtomic req now barrier results).run s).state = _
  unfold rejectAtomic
  cases req.pack_id with
  | none => exact ⟨rfl, rfl⟩
  | some pack => cases barrier <;> exact ⟨rfl, rfl⟩

/-- The commands of a push that is not atomic are written at once. -/
theorem commitCommands_not_atomic (env : Env) (req : CommitRequest) (now : ℤ) (barrier : Bool)
    (scopes : List (Option String)) (h : req.atomic = false) (s : Db) :
    (commitCommands env req now barrier scopes).run s =
      (commitRefs env req now barrier s.head scopes).run s := by
  unfold commitCommands
  rw [Span.run_read_bind]
  simp only [h, Bool.false_eq_true, if_false]

/-- The commands of an atomic push: the dry run decides between rejection and the writes. -/
theorem commitCommands_atomic (env : Env) (req : CommitRequest) (now : ℤ) (barrier : Bool)
    (scopes : List (Option String)) (hatomic : req.atomic = true) (s : Db) :
    (commitCommands env req now barrier scopes).run s =
      if ∀ c ∈ req.commands, s.judge env s.head scopes c = none then
        (commitRefs env req now barrier s.head scopes).run s
      else
        (rejectAtomic req now barrier
          (req.commands.map fun c => (c.name, s.judge env s.head scopes c))).run s := by
  have hdry := applyAll_dry env s.head req.push_id req.principal now barrier scopes req.commands s
  unfold commitCommands
  rw [Span.run_read_bind]
  simp only [hatomic, if_true]
  rw [Span.run_bind_of_ok (by rw [hdry]), hdry]
  have hany : ((req.commands.map fun c => (c.name, s.judge env s.head scopes c)).any
      fun r => r.2.isSome) = true ↔ ¬ ∀ c ∈ req.commands, s.judge env s.head scopes c = none := by
    simp only [List.any_map, List.any_eq_true, Function.comp, Option.isSome_iff_ne_none, ne_eq,
      not_forall, exists_prop]
  by_cases h : ∀ c ∈ req.commands, s.judge env s.head scopes c = none
  · rw [if_pos h, if_neg (fun hc => hany.mp hc h)]
    rfl
  · rw [if_neg h, if_pos (hany.mpr h)]
    rfl

/-! ## The whole commit -/

/-- The push is open, its credential stands and no sweep ran since it began; the scopes are the one
captured at the start and the token's current one. -/
def Admits (now : ℤ) (req : CommitRequest) (s : Db) (scopes : List (Option String)) : Prop :=
  ∃ push current, s.pushes.find req.push_id = some push ∧ push.state = .open ∧
    commitAuth push.auth (s.tokenRow push.auth now) = .ok current ∧ s.gc_epoch = push.gc_epoch ∧
    scopes = [push.scope, current.or push.scope]

/-- The scopes are determined by the push and the token. -/
theorem Admits.unique {scopes scopes' : List (Option String)} (h : Admits now req s scopes)
    (h' : Admits now req s scopes') : scopes = scopes' := by
  obtain ⟨push, current, hf, -, ha, -, rfl⟩ := h
  obtain ⟨push', current', hf', -, ha', -, rfl⟩ := h'
  rw [hf] at hf'
  cases hf'
  rw [ha] at ha'
  cases ha'
  rfl

/-- The targets after a write: those before it, and the command's. -/
theorem row_of_write {c : Cmd} {refs : Table RefRow RefRow.name} {r : RefRow}
    (h : r ∈ c.write now refs) :
    r ∈ refs ∨ (c.new ≠ 0 ∧ r.target = c.new ∧ r.peeled = c.peeled) ∨
      (c.old = 0 ∧ c.new = 0 ∧ r.target = 0 ∧ r.peeled = c.peeled) := by
  unfold Cmd.write at h
  split_ifs at h with ho hn
  · rcases Table.mem_insertIgnore.mp h with h | ⟨rfl, -⟩
    · exact .inl h
    · by_cases hn : c.new = 0
      · exact .inr (.inr ⟨ho, hn, hn, rfl⟩)
      · exact .inr (.inl ⟨hn, rfl, rfl⟩)
  · exact .inl (Table.mem_deleteWhere.mp h).1
  · obtain ⟨q, hq, rfl⟩ := Table.mem_updateWhere.mp h
    split_ifs
    · exact .inr (.inl ⟨hn, rfl, rfl⟩)
    · exact .inl hq

theorem packLive_iff {p : PackId} :
    s.packLive p = true ↔ ∃ row, s.packs.find p = some row ∧ row.state = .live := by
  simp [Db.packLive, Option.any_eq_true]

theorem packLive_promote {push : PushId} {pack : PackId} {p : PackId} :
    (promote push pack s).packLive p = true ↔
      s.packLive p = true ∨ ∃ row, s.packs.find p = some row ∧ promotable push pack row = true := by
  simp only [packLive_iff, promote, Table.find_updateWhere, Option.map_eq_some_iff]
  constructor
  · rintro ⟨_, ⟨row, hrow, rfl⟩, hlive⟩
    by_cases hp : promotable push pack row = true
    · exact .inr ⟨row, hrow, hp⟩
    · simp only [hp] at hlive
      exact .inl ⟨row, hrow, hlive⟩
  · rintro (⟨row, hrow, hlive⟩ | ⟨row, hrow, hp⟩)
    · refine ⟨_, ⟨row, hrow, rfl⟩, ?_⟩
      split_ifs <;> first | rfl | exact hlive
    · exact ⟨_, ⟨row, hrow, rfl⟩, by rw [if_pos hp]⟩

/-- The state after step 3 of a commit that passes it: the push's pack, if it has one, is live. -/
inductive Step3 (req : CommitRequest) (s : Db) : Db → Prop
  | noPack (h : req.pack_id = none) : Step3 req s s
  | pack {pack : PackId} (h : req.pack_id = some pack)
      (one : s.packs.countWhere (promotable req.push_id pack) = 1)
      (jobs : Table Job Job.id) (seq : ℕ) :
      Step3 req s { promote req.push_id pack (withPending s.barrierActive pack s) with
        jobs := jobs, job_seq := seq }

/-- Undoing a promotion gives the packs before it. -/
theorem demote_promote {push : PushId} {pack : PackId}
    (h : s.packs.countWhere (promotable push pack) = 1) :
    (demote push pack (promote push pack s)).packs = s.packs := by
  obtain ⟨p, hp, hpp⟩ : ∃ p ∈ s.packs, promotable push pack p = true := by
    have : 0 < (s.packs.rows.filter (promotable push pack)).length := by
      simp only [Table.countWhere] at h
      omega
    obtain ⟨p, hp⟩ := List.exists_mem_of_length_pos this
    exact ⟨p, List.mem_filter.mp hp⟩
  ext1
  simp only [demote, promote, Table.updateWhere, List.map_map]
  refine (List.map_congr_left fun r hr => ?_).trans (List.map_id _)
  by_cases hid : r.id = pack
  · -- The row of the pack is the one that was promoted.
    simp only [promotable, Bool.and_eq_true, decide_eq_true_eq] at hpp
    obtain rfl : r = p := Table.eq_of_key_eq hr hp (hid.trans hpp.1.symm)
    obtain ⟨hi, hst, hpush⟩ := hpp
    cases r
    simp_all [promotable]
  · simp [promotable, hid]

/-- The state that the dry run of a push judges by: the push's pack, if it has one, is live. -/
def CommitRequest.judged (req : CommitRequest) (s : Db) : Db :=
  match req.pack_id with
  | none => s
  | some pack => promote req.push_id pack s

/-- The state after step 3 has the rules, the refs and the head that the dry run judges by. -/
theorem Step3.judged (h : Step3 req s P) :
    SameRules (req.judged s) P ∧ P.refs = s.refs ∧ P.head = s.head := by
  cases h with
  | noPack h =>
    refine ⟨?_, rfl, rfl⟩
    simp only [CommitRequest.judged, h]
    exact SameRules.refl s
  | @pack pack h one jobs seq =>
    obtain ⟨pending, pseq, version, he⟩ := withPending_eq s.barrierActive pack s
    simp only [CommitRequest.judged, h, he]
    exact ⟨⟨rfl, rfl, rfl, rfl, rfl⟩, rfl, rfl⟩

@[simp] theorem judged_refs (req : CommitRequest) (s : Db) : (req.judged s).refs = s.refs := by
  unfold CommitRequest.judged
  split <;> rfl

/-- The push reaches its writes: it is admitted, and its commands all pass the dry run. -/
def ReachesWrites (env : Env) (now : ℤ) (req : CommitRequest) (s : Db) : Prop :=
  ∃ scopes, Admits now req s scopes ∧
    ∀ c ∈ req.commands, (req.judged s).judge env s.head scopes c = none

/-- The dry run judges by the state before the push, with its pack live. -/
theorem Step3.judge (h : Step3 req s P) (env : Env) (scopes : List (Option String)) (c : Cmd) :
    P.judge env P.head scopes c = (req.judged s).judge env s.head scopes c := by
  obtain ⟨hrules, hrefs, hhead⟩ := h.judged
  rw [hhead, hrules.judge (by rw [hrefs, judged_refs])]

/-- A push reaches its writes exactly when the dry run after step 3 passes. -/
theorem Step3.reachesWrites_iff {env : Env} {scopes : List (Option String)} (h : Step3 req s P)
    (hadm : Admits now req s scopes) :
    ReachesWrites env now req s ↔ ∀ c ∈ req.commands, P.judge env P.head scopes c = none := by
  constructor
  · rintro ⟨scopes', hadm', hall⟩ c hc
    rw [h.judge, hadm.unique hadm']
    exact hall c hc
  · exact fun hall => ⟨scopes, hadm, fun c hc => by rw [← h.judge]; exact hall c hc⟩

/-- A push that fails its dry run changes no ref, no head and no live pack. -/
theorem rejectAtomic_nothing (now : ℤ) (h : Step3 req s P) (results : List RefResult) :
    let s' := ((rejectAtomic req now s.barrierActive results).run P).state
    s'.refs = s.refs ∧ s'.head = s.head ∧ s'.packs = s.packs := by
  intro s'
  have hs' : s' = _ := (rejectAtomic_eq req now s.barrierActive results P).2
  obtain ⟨-, hrefs, hhead⟩ := h.judged
  cases h with
  | noPack h =>
    rw [hs', h]
    exact ⟨rfl, rfl, rfl⟩
  | @pack pack h one jobs seq =>
    obtain ⟨pending, pseq, version, he⟩ := withPending_eq s.barrierActive pack s
    have hpacks : (demote req.push_id pack (promote req.push_id pack s)).packs = s.packs :=
      demote_promote one
    rw [hs', h, he]
    dsimp only
    split_ifs
    · exact ⟨rfl, rfl, hpacks⟩
    · exact ⟨rfl, rfl, hpacks⟩

/-- The refs after the writes are those that the commands leave. -/
theorem settled_refs (any_ok : Bool) (req : CommitRequest) (s : Db) :
    (settled any_ok req s).refs = s.refs := by
  unfold settled adoptHead bumpRefsVersion
  dsimp only
  split_ifs <;> try rfl
  all_goals split <;> rfl

/-- The ways in which a commit can end. -/
theorem commitPush_cases (env : Env) (now : ℤ) (req : CommitRequest) (s : Db) :
    let o := (commitPush env now req).run s
    (∃ m, o.res = .error (.conflict m) ∧ o.state = s) ∨
      ((∀ scopes, ¬ Admits now req s scopes) ∧ (s.pushes.find req.push_id).isSome ∧
        ∃ why, o.res = .ok (req.all why) ∧
          o.state = finishRow req .rejected now (req.all why) s) ∨
      (∃ m, o.res = .error (.limit m) ∧
        o.state = finishRow req .rejected now (req.all "over repo quota") s) ∨
      (∃ pack m, req.pack_id = some pack ∧
        s.packs.countWhere (promotable req.push_id pack) ≠ 1 ∧ o.res = .error (.conflict m) ∧
        o.state = promote req.push_id pack (withPending s.barrierActive pack s)) ∨
      (∃ scopes P, Admits now req s scopes ∧ Step3 req s P ∧
        o.res = ((commitCommands env req now s.barrierActive scopes).run P).res ∧
        o.state = ((commitCommands env req now s.barrierActive scopes).run P).state) := by
  intro o
  have ho : o = (commitPush env now req).run s := rfl
  clear_value o
  unfold commitPush at ho
  rw [Span.run_read_bind] at ho
  cases hfind : s.pushes.find req.push_id with
  | none =>
    simp only [hfind, Span.run_fail] at ho
    exact .inl ⟨_, by rw [ho], by rw [ho]⟩
  | some push =>
    simp only [hfind] at ho
    by_cases hopen : push.state = .open
    · simp only [hopen, ne_eq, not_true_eq_false, if_false] at ho
      cases hauth : commitAuth push.auth (s.tokenRow push.auth now) with
      | error why =>
        simp only [hauth] at ho
        refine .inr (.inl ⟨?_, rfl, why, by rw [ho]; rfl, by rw [ho]; rfl⟩)
        rintro scopes ⟨push', current, hf, -, ha, -⟩
        rw [hfind] at hf
        cases hf
        rw [hauth] at ha
        cases ha
      | ok current =>
        simp only [hauth] at ho
        by_cases hepoch : s.gc_epoch = push.gc_epoch
        · have hadm : Admits now req s [push.scope, current.or push.scope] :=
            ⟨push, current, hfind, hopen, hauth, hepoch, rfl⟩
          simp only [hepoch, not_true_eq_false, if_false] at ho
          cases hpack : req.pack_id with
          | none =>
            simp only [hpack] at ho
            exact .inr (.inr (.inr (.inr ⟨_, s, hadm, .noPack hpack, by rw [ho], by rw [ho]⟩)))
          | some pack =>
            simp only [hpack] at ho
            rcases promotePack_cases env req now s.barrierActive pack s with
              ⟨-, m, hres, hstate⟩ | ⟨hne, hres, hstate⟩ | ⟨-, hone, hres, jobs, seq, hstate⟩
            · rw [Span.run_bind_of_error hres] at ho
              exact .inr (.inr (.inl ⟨m, by rw [ho], by rw [ho, hstate]⟩))
            · rw [Span.run_bind_of_error hres] at ho
              exact .inr (.inr (.inr (.inl ⟨pack, _, rfl, hne, by rw [ho], by rw [ho, hstate]⟩)))
            · rw [Span.run_bind_of_ok hres, hstate] at ho
              exact .inr (.inr (.inr (.inr ⟨_, _, hadm, .pack hpack hone jobs seq, by rw [ho],
                by rw [ho]⟩)))
        · simp only [hepoch, not_false_eq_true, if_true] at ho
          refine .inr (.inl
            ⟨?_, rfl, "gc ran during push, retry", by rw [ho]; rfl, by rw [ho]; rfl⟩)
          rintro scopes ⟨push', current', hf, -, -, he, -⟩
          rw [hfind] at hf
          cases hf
          exact hepoch he
    · simp only [ne_eq, hopen, not_false_eq_true, if_true, Span.run_fail] at ho
      exact .inl ⟨_, by rw [ho], by rw [ho]⟩

end GitEdge
