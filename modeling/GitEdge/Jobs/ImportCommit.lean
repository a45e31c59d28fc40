import GitEdge.Repo.CommitSpec
import GitEdge.Repo.Push

/-!
# The commit of an import

The last span of an import job, `commit_meta` of `jobs/import.rs`, and `reject_push`, with which
the job gives up before it. The span posts the counts of the finished pack, runs `commit_push` as
an atomic push, adopts the remote's `HEAD` and drops what was staged.

A commit is honest when a rejected push changes nothing that a client sees, and when a change of
a ref or of `HEAD` moves `refs_version`. `commit_push` is; `commit_meta` is not, because it adopts
the remote's `HEAD` after a rejection too (`commit_honest_iff`).
-/

namespace GitEdge

open Sql

variable {s : Db} {req : CommitRequest}

/-- The counts of a finished pack, as the pack writer returns them. -/
structure PackMeta where
  count : ℕ
  bytes : ℕ

/-- `reset_to_check`. -/
def resetToCheck (c : ImportCursor) : ImportCursor :=
  { c with phase := .check, check_after := none, check_epoch := none, recheck := true }

/-- `reject_push`: the push ends rejected, and the job is done. -/
def rejectPush (id : ℕ) (lease : Lease) (now : ℤ) (push : PushId) (why : String) :
    Span Db Error SliceOutcome := do
  heartbeat id lease now
  Span.exec fun db =>
    { db with
      pushes := db.pushes.updateWhere (fun p => p.id = push && p.state = .open)
        (fun p => { p with
          state := .rejected, result := some [("remote", some why)], ended_at := some now })
        fun _ => rfl }
  pure .done

/-- The request with which an import commits. -/
def ImportPayload.request (p : ImportPayload) : CommitRequest :=
  ⟨p.push, some p.pack, p.principal, p.commands, true⟩

/-- The pack row with the counts of the finished pack. -/
def postPackMeta (p : ImportPayload) (m : PackMeta) (db : Db) : Db :=
  { db with
    packs := db.packs.updateWhere (fun r => r.id = p.pack && r.state = .ingesting)
      (fun r => { r with count := m.count, bytes := m.bytes }) fun _ => rfl }

/-- The push row with the epoch under which the links were checked. -/
def advanceEpoch (p : ImportPayload) (epoch : ℤ) (db : Db) : Db :=
  { db with
    pushes := db.pushes.updateWhere (fun r => r.id = p.push)
      (fun r => { r with gc_epoch := epoch }) fun _ => rfl }

/-- The deletes of what was staged for a push. -/
def dropStaging (push : PushId) : Span Db Error Unit := do
  Span.exec fun db => { db with push_links := db.push_links.deleteWhere fun l => l.1 = push }
  Span.exec fun db => { db with import_toc := db.import_toc.deleteWhere fun r => r.push_id = push }
  Span.exec fun db =>
    { db with import_parts := db.import_parts.deleteWhere fun r => r.push_id = push }
  Span.exec fun db =>
    { db with import_open := db.import_open.deleteWhere fun r => r.push_id = push }
  Span.exec fun db =>
    { db with import_tail := db.import_tail.deleteWhere fun r => r.push_id = push }

/-- The remote's `HEAD` is adopted when `commit_push` returned results and the ref exists. -/
def adoptRemoteHead (p : ImportPayload) (r : Except Error (List RefResult)) :
    Span Db Error Unit := do
  let db ← Span.read
  match r, p.head with
  | .ok _, some head =>
    if db.refs.has head then Span.exec fun db => { db with head := head } else pure ()
  | _, _ => pure ()

/-- The end of `commit_meta`: the error of `commit_push` is its own. -/
def endCommit (r : Except Error (List RefResult)) : Span Db Error SliceOutcome :=
  match r with
  | .ok _ => pure .done
  | .error e => Span.fail e

/-- `commit_meta`, up to the deletion of the staged parts. -/
def commitMeta (env : Env) (now : ℤ) (id : ℕ) (lease : Lease) (p : ImportPayload)
    (c : ImportCursor) (m : PackMeta) : Span Db Error SliceOutcome := do
  let db ← Span.read
  if c.check_epoch ≠ some db.gc_epoch then pure (.continue (some (resetToCheck c)))
  else do
    heartbeat id lease now
    Span.exec (postPackMeta p m)
    Span.exec (advanceEpoch p db.gc_epoch)
    let r ← Span.result (commitPush env now p.request)
    adoptRemoteHead p r
    dropStaging p.push
    endCommit r

/-! ## Honest commits -/

/-- What a client sees of the repository, the refs, the head and the live packs, is the same. -/
structure SameView (s s' : Db) : Prop where
  refs : s'.refs = s.refs
  head : s'.head = s.head
  live : ∀ p, s'.packLive p = s.packLive p

theorem SameView.trans {a b c : Db} (h : SameView a b) (h' : SameView b c) : SameView a c :=
  ⟨h'.refs.trans h.refs, h'.head.trans h.head, fun p => (h'.live p).trans (h.live p)⟩

/-- The push row is in a state. -/
def Db.pushIs (db : Db) (push : PushId) (st : PushState) : Prop :=
  ∃ r, db.pushes.find push = some r ∧ r.state = st

/-- A push that ends rejected leaves the view as it was, and a change of a ref or of the head moves
`refs_version`. -/
def Honest (push : PushId) (s s' : Db) : Prop :=
  (s'.pushIs push .rejected → SameView s s') ∧
    (s'.refs ≠ s.refs ∨ s'.head ≠ s.head → s.refs_version < s'.refs_version)

theorem Honest.of_sameView {push : PushId} {s' : Db} (h : SameView s s') : Honest push s s' := by
  refine ⟨fun _ => h, ?_⟩
  rintro (hc | hc)
  · exact absurd h.refs hc
  · exact absurd h.head hc

/-- The push row after `finish_push`. -/
theorem finishRow_pushIs {st : PushState} {now : ℤ} {results : List RefResult}
    (h : (s.pushes.find req.push_id).isSome) :
    (finishRow req st now results s).pushIs req.push_id st := by
  obtain ⟨r, hr⟩ := Option.isSome_iff_exists.mp h
  have hid : r.id = req.push_id := (Table.find_eq_some.mp hr).2
  refine ⟨{ r with
    state := st, ended_at := some now, pack_id := req.pack_id, result := some results }, ?_, rfl⟩
  simp only [finishRow, Table.find_updateWhere, hr, Option.map_some, hid, decide_true, if_true]

section

variable (env : Env) (head : String) (push : PushId) (who : String) (now : ℤ) (barrier : Bool)
  (scopes : List (Option String))

theorem landed_version (c : Cmd) (s : Db) :
    s.refs_version ≤ (landed barrier push who now c s).refs_version := by
  cases barrier with
  | false => exact le_refl _
  | true =>
    calc s.refs_version ≤ s.refs_version + 1 := by omega
      _ = (landed true push who now c s).refs_version := by
        by_cases hn : c.new = 0 <;> simp [landed, hn, logRef, bumpRefsVersion, barrierFeedLanding]

theorem landed_pushes (c : Cmd) (s : Db) : (landed barrier push who now c s).pushes = s.pushes := by
  unfold landed
  cases barrier
  · rfl
  · by_cases hn : c.new = 0 <;> simp [hn, logRef, bumpRefsVersion, barrierFeedLanding]

/-- The write pass moves the version up only, and leaves the pushes and the head alone. -/
theorem landCommands_frame (cs : List Cmd) :
    ∀ s, let s' := (landCommands env head push who now barrier scopes cs s).2
      s.refs_version ≤ s'.refs_version ∧ s'.pushes = s.pushes ∧ s'.head = s.head := by
  induction cs with
  | nil => intro s; exact ⟨le_refl _, rfl, rfl⟩
  | cons c cs ih =>
    intro s s'
    obtain ⟨hv, hp, hh⟩ :=
      ih (if s.judge env head scopes c = none then landed barrier push who now c s else s)
    simp only [s', landCommands]
    split_ifs at hv hp hh ⊢
    · exact ⟨(landed_version push who now barrier c s).trans hv,
        hp.trans (landed_pushes push who now barrier c s), hh.trans landed_head⟩
    · exact ⟨hv, hp, hh⟩

/-- A write pass in which no command lands changes nothing. -/
theorem landCommands_none (cs : List Cmd) :
    ∀ s, (landCommands env head push who now barrier scopes cs s).1.any
    (fun r => r.2.isNone) = false →
      (landCommands env head push who now barrier scopes cs s).2 = s := by
  induction cs with
  | nil => intro s _; rfl
  | cons c cs ih =>
    intro s h
    simp only [landCommands, List.any_cons, Bool.or_eq_false_iff, Option.isNone_eq_false_iff] at h ⊢
    have hj : s.judge env head scopes c ≠ none := Option.isSome_iff_ne_none.mp h.1
    rw [if_neg hj] at h ⊢
    exact ih s h.2

end

/-- Step 3 moves the version up only, and leaves the pushes alone. -/
theorem Step3.frame {P : Db} (h : Step3 req s P) :
    s.refs_version ≤ P.refs_version ∧ P.pushes = s.pushes := by
  cases h with
  | noPack h => exact ⟨le_refl _, rfl⟩
  | @pack pack h one jobs seq =>
    show s.refs_version ≤ (withPending s.barrierActive pack s).refs_version ∧
      (withPending s.barrierActive pack s).pushes = s.pushes
    unfold withPending addPending bumpRefsVersion
    split_ifs
    · exact ⟨Int.le_add_one (le_refl _), rfl⟩
    · exact ⟨Int.le_add_one (le_refl _), rfl⟩
    · exact ⟨le_refl _, rfl⟩

/-- A pack that cannot be promoted is left as it is. -/
theorem promote_packs_of_ne {push : PushId} {pack : PackId}
    (h : s.packs.countWhere (promotable push pack) ≠ 1) :
    (promote push pack s).packs = s.packs := by
  refine Table.updateWhere_eq_self (fun _ => by rfl) fun r hr hp => ?_
  unfold promotable at h
  rw [Table.countWhere_key] at h
  simp only [promotable, Bool.and_eq_true, decide_eq_true_eq] at hp
  have hf : s.packs.find pack = some r := Table.find_eq_some.mpr ⟨hr, hp.1⟩
  rw [hf] at h
  simp [hp.2.1, hp.2.2] at h

/-- Adopting a branch writes the head only. -/
theorem adoptHead_eq (s : Db) : ∃ head, adoptHead s = { s with head := head } := by
  unfold adoptHead
  split_ifs
  · exact ⟨s.head, rfl⟩
  · split
    · exact ⟨s.head, rfl⟩
    · exact ⟨_, rfl⟩

/-- The columns that the end of the writes changes. -/
theorem settled_eq (any_ok : Bool) (req : CommitRequest) (s : Db) :
    ∃ version head, settled any_ok req s = { s with refs_version := version, head := head } := by
  unfold settled
  obtain ⟨head, h⟩ := adoptHead_eq (bumpRefsVersion s)
  cases any_ok
  · cases req.pack_id.isSome
    · exact ⟨s.refs_version, s.head, rfl⟩
    · exact ⟨s.refs_version + 1, s.head, rfl⟩
  · exact ⟨s.refs_version + 1, head, h⟩

/-- The head changes only in a commit in which a command landed. -/
theorem settled_frame (any_ok : Bool) (req : CommitRequest) (s : Db) :
    (settled any_ok req s).pushes = s.pushes ∧
      (settled any_ok req s).refs_version =
        (if any_ok || req.pack_id.isSome then s.refs_version + 1 else s.refs_version) ∧
      (any_ok = false → (settled any_ok req s).head = s.head) := by
  unfold settled
  cases any_ok
  · cases req.pack_id.isSome <;> simp [bumpRefsVersion]
  · obtain ⟨head, h⟩ := adoptHead_eq (bumpRefsVersion s)
    simp only [Bool.true_or, if_true, h]
    exact ⟨rfl, rfl, fun h => by cases h⟩

/-- The writes of a commit: the row is committed, and the version moves when a command landed or the
push has a pack. -/
theorem commitRefs_view (env : Env) {P : Db} (now : ℤ) (scopes : List (Option String))
    (h3 : Step3 req s P) (hpush : (s.pushes.find req.push_id).isSome) :
    let s' := ((commitRefs env req now s.barrierActive P.head scopes).run P).state
    s'.pushIs req.push_id .committed ∧
      (s'.refs ≠ s.refs ∨ s'.head ≠ s.head ∨ req.pack_id.isSome = true →
        s.refs_version < s'.refs_version) := by
  intro s'
  obtain ⟨-, jobs, seq, events, dropped, hstate⟩ :=
    commitRefs_eq env req now s.barrierActive P.head scopes P
  have hs' : s' = _ := hstate
  clear_value s'
  subst hs'
  generalize hL : landCommands env P.head req.push_id req.principal now s.barrierActive scopes
    req.commands P = L
  obtain ⟨hv, hp, hh⟩ := landCommands_frame env P.head req.push_id req.principal now
    s.barrierActive scopes req.commands P
  rw [hL] at hv hp hh
  obtain ⟨hrefs3, hhead3⟩ := h3.judged.2
  obtain ⟨hv3, hp3⟩ := h3.frame
  generalize hany : (L.1.any fun r => r.2.isNone) = any
  obtain ⟨hsp, hsv, hsh⟩ := settled_frame any req L.2
  constructor
  · refine finishRow_pushIs ?_
    show ((settled any req L.2).pushes.find req.push_id).isSome
    rw [hsp, hp, hp3]
    exact hpush
  · show (settled any req L.2).refs ≠ s.refs ∨ (settled any req L.2).head ≠ s.head ∨ _ →
      s.refs_version < (settled any req L.2).refs_version
    intro hc
    rw [hsv]
    cases any with
    | true => simp; omega
    | false =>
      -- No command landed: only the pack can have moved the version.
      have hL2 : L.2 = P := by
        rw [← hL]
        exact landCommands_none _ _ _ _ _ _ _ req.commands P (by rw [hL]; exact hany)
      rw [settled_refs, hsh rfl, hL2, hrefs3, hhead3] at hc
      simp only [ne_eq, not_true_eq_false, false_or] at hc
      simp [hc]
      omega

/-- How a commit can end, as a client sees it: with the view as it was, and rejected if it returns
results; or committed, with the version moved when a ref or the head changed or a pack went live.
An atomic push is committed exactly when it reaches its writes. -/
theorem commitPush_view (env : Env) (now : ℤ) (req : CommitRequest) (s : Db) :
    let o := (commitPush env now req).run s
    (SameView s o.state ∧
        ((∃ results, o.res = .ok results) → o.state.pushIs req.push_id .rejected ∧
          (req.atomic = true → ¬ ReachesWrites env now req s))) ∨
      (o.state.pushIs req.push_id .committed ∧ (req.atomic = true → ReachesWrites env now req s) ∧
        (o.state.refs ≠ s.refs ∨ o.state.head ≠ s.head ∨ req.pack_id.isSome = true →
          s.refs_version < o.state.refs_version)) := by
  intro o
  rcases commitPush_cases env now req s with ⟨m, hr, hs⟩ | ⟨hadm, hpush, why, hr, hs⟩ |
    ⟨m, hr, hs⟩ | ⟨pack, m, hpack, hne, hr, hs⟩ | ⟨scopes, P, hadm, h3, hr, hs⟩
  · refine .inl ⟨?_, fun ⟨_, h⟩ => ?_⟩
    · show SameView s ((commitPush env now req).run s).state
      rw [hs]
      exact ⟨rfl, rfl, fun _ => rfl⟩
    · rw [show o.res = _ from hr] at h
      cases h
  · refine .inl ⟨?_, fun _ => ⟨?_, ?_⟩⟩
    · show SameView s ((commitPush env now req).run s).state
      rw [hs]
      exact ⟨rfl, rfl, fun _ => rfl⟩
    · show ((commitPush env now req).run s).state.pushIs _ _
      rw [hs]
      exact finishRow_pushIs hpush
    · rintro - ⟨scopes, h, -⟩
      exact hadm scopes h
  · refine .inl ⟨?_, fun ⟨_, h⟩ => ?_⟩
    · show SameView s ((commitPush env now req).run s).state
      rw [hs]
      exact ⟨rfl, rfl, fun _ => rfl⟩
    · rw [show o.res = _ from hr] at h
      cases h
  · refine .inl ⟨?_, fun ⟨_, h⟩ => ?_⟩
    · show SameView s ((commitPush env now req).run s).state
      rw [hs]
      obtain ⟨pending, seq, version, he⟩ := withPending_eq s.barrierActive pack s
      rw [he]
      refine ⟨rfl, rfl, fun p => ?_⟩
      have := promote_packs_of_ne hne
      simp only [Db.packLive, promote] at this ⊢
      rw [this]
    · rw [show o.res = _ from hr] at h
      cases h
  · have hpush : (s.pushes.find req.push_id).isSome := by
      obtain ⟨push, _, hf, -⟩ := hadm
      rw [hf]
      rfl
    have hs' : o.state = _ := hs
    by_cases hwrite : req.atomic = false ∨ ∀ c ∈ req.commands, P.judge env P.head scopes c = none
    · -- The writes.
      have hrun : (commitCommands env req now s.barrierActive scopes).run P =
          (commitRefs env req now s.barrierActive P.head scopes).run P := by
        cases hatomic : req.atomic with
        | false => exact commitCommands_not_atomic env req now _ scopes hatomic P
        | true =>
          rw [commitCommands_atomic env req now _ scopes hatomic P,
            if_pos (hwrite.resolve_left (by simp [hatomic]))]
      obtain ⟨hrow, hver⟩ := commitRefs_view env now scopes h3 hpush
      rw [hs', hrun]
      refine .inr ⟨hrow, fun hatomic => ?_, hver⟩
      exact (h3.reachesWrites_iff hadm).mpr (hwrite.resolve_left (by simp [hatomic]))
    · -- The dry run of an atomic push has failed.
      simp only [not_or, Bool.not_eq_false] at hwrite
      obtain ⟨hatomic, hdry⟩ := hwrite
      rw [commitCommands_atomic env req now _ scopes hatomic P, if_neg hdry] at hs'
      obtain ⟨hrefs, hhead, hpacks⟩ := rejectAtomic_nothing now h3
        (req.commands.map fun c => (c.name, P.judge env P.head scopes c))
      rw [← hs'] at hrefs hhead hpacks
      refine .inl ⟨⟨hrefs, hhead, fun p => ?_⟩, fun _ => ⟨?_, fun _ => ?_⟩⟩
      · rw [Db.packLive, hpacks, Db.packLive]
      · rw [hs', (rejectAtomic_eq req now _ _ P).2]
        refine finishRow_pushIs ?_
        have hp3 := h3.frame.2
        split
        · rw [hp3]; exact hpush
        · split_ifs
          · show (P.pushes.find req.push_id).isSome
            rw [hp3]; exact hpush
          · show (P.pushes.find req.push_id).isSome
            rw [hp3]; exact hpush
      · rw [h3.reachesWrites_iff hadm]
        exact hdry

/-! ## The commit of an import -/

/-- The state in which `commit_meta` runs `commit_push`. -/
def prepared (now : ℤ) (id : ℕ) (lease : Lease) (p : ImportPayload) (m : PackMeta) (s : Db) : Db :=
  advanceEpoch p s.gc_epoch (postPackMeta p m (touchLease id lease now s))

/-- The preparation changes nothing that a client sees. -/
theorem prepared_sameView (now : ℤ) (id : ℕ) (lease : Lease) (p : ImportPayload) (m : PackMeta)
    (s : Db) : SameView s (prepared now id lease p m s) := by
  refine ⟨rfl, rfl, fun q => ?_⟩
  simp only [Db.packLive, prepared, advanceEpoch, postPackMeta, touchLease, Table.find_updateWhere]
  cases s.packs.find q with
  | none => rfl
  | some r =>
    simp only [Option.map_some, Option.any_some]
    split_ifs <;> rfl

/-- The deletes of the staging touch only the staging tables. -/
theorem dropStaging_sameView (push : PushId) (s : Db) :
    SameView s ((dropStaging push).run s).state ∧
      ((dropStaging push).run s).state.pushes = s.pushes ∧
      ((dropStaging push).run s).state.refs_version = s.refs_version := by
  unfold dropStaging
  simp only [Span.run_exec_bind, Span.run_exec, and_self, and_true]
  exact ⟨rfl, rfl, fun _ => rfl⟩

/-- The head after the adoption. -/
def Db.remoteHead (db : Db) (p : ImportPayload) (r : Except Error (List RefResult)) : String :=
  match r, p.head with
  | .ok _, some head => if db.refs.has head then head else db.head
  | _, _ => db.head

theorem adoptRemoteHead_eq (p : ImportPayload) (r : Except Error (List RefResult)) (s : Db) :
    ((adoptRemoteHead p r).run s).res = .ok () ∧
      ((adoptRemoteHead p r).run s).state = { s with head := s.remoteHead p r } := by
  unfold adoptRemoteHead Db.remoteHead
  rw [Span.run_read_bind]
  cases r with
  | error e => exact ⟨rfl, rfl⟩
  | ok results =>
    cases p.head with
    | none => exact ⟨rfl, rfl⟩
    | some head => cases h : s.refs.has head <;> simp [h]

/-- `commit_meta` past its guards: `commit_push`, the head, and the deletes of the staging. -/
theorem commitMeta_state (env : Env) (now : ℤ) (id : ℕ) (lease : Lease) (p : ImportPayload)
    (c : ImportCursor) (m : PackMeta) (s : Db) (hepoch : c.check_epoch = some s.gc_epoch)
    (hlease : s.leaseHeld id lease = true) :
    let o := (commitPush env now p.request).run (prepared now id lease p m s)
    ((commitMeta env now id lease p c m).run s).state =
      ((dropStaging p.push).run { o.state with head := o.state.remoteHead p o.res }).state := by
  intro o
  obtain ⟨hres, hstate⟩ := adoptRemoteHead_eq p o.res o.state
  unfold commitMeta heartbeat
  simp only [Span.run_read_bind, hepoch, ne_eq, not_true_eq_false, if_false, Span.bind_assoc,
    Span.run_exec_bind, hlease, if_true, Span.run_pure_bind, Span.run_result_bind]
  show ((adoptRemoteHead p o.res >>= fun _ => dropStaging p.push >>= fun _ =>
    endCommit o.res).run o.state).state = _
  rw [Span.run_bind_of_ok hres, hstate, Span.run_bind_of_ok (by rfl)]
  unfold endCommit
  split <;> rfl

/-- `commit_meta` whose guards stop it changes at most the job row. -/
theorem commitMeta_stopped (env : Env) (now : ℤ) (id : ℕ) (lease : Lease) (p : ImportPayload)
    (c : ImportCursor) (m : PackMeta) (s : Db)
    (h : ¬ (c.check_epoch = some s.gc_epoch ∧ s.leaseHeld id lease = true)) :
    SameView s ((commitMeta env now id lease p c m).run s).state := by
  unfold commitMeta heartbeat
  by_cases hepoch : c.check_epoch = some s.gc_epoch
  · have hlease : s.leaseHeld id lease = false := by
      simpa [hepoch] using h
    simp only [Span.run_read_bind, hepoch, ne_eq, not_true_eq_false, if_false, Span.bind_assoc,
      Span.run_exec_bind, hlease, Bool.false_eq_true, Span.run_fail_bind]
    exact ⟨rfl, rfl, fun _ => rfl⟩
  · simp only [Span.run_read_bind, ne_eq, hepoch, not_false_eq_true, if_true, Span.run_pure]
    exact ⟨rfl, rfl, fun _ => rfl⟩

/-- `commit_push` answers an import and writes nothing for it. The push is open, and its credential no
longer stands; or it does, the pack is the push's and within the quota, and with the pack live some
command is refused. (The epoch of the push is the current one by then.) The other refusals, of a push
that is not open, of a pack that is another's and of one over quota, are errors. -/
def ImportPayload.Declined (env : Env) (now : ℤ) (p : ImportPayload) (s : Db) : Prop :=
  ∃ push, s.pushes.find p.push = some push ∧ push.state = .open ∧
    ((∃ why, commitAuth push.auth (s.tokenRow push.auth now) = .error why) ∨
      ∃ current, commitAuth push.auth (s.tokenRow push.auth now) = .ok current ∧
        overQuota env (s.storageTotals p.push).1 (s.storageTotals p.push).2 = none ∧
        s.packs.countWhere (promotable p.push p.pack) = 1 ∧
        ∃ c ∈ p.commands, (promote p.push p.pack s).judge env s.head
          [push.scope, current.or push.scope] c ≠ none)

/-- The import of a remote whose head is a ref here, and not the head, is declined in its last span,
once the counts of its pack are posted. -/
def HeadLeaks (env : Env) (now : ℤ) (id : ℕ) (lease : Lease) (p : ImportPayload)
    (c : ImportCursor) (m : PackMeta) (s : Db) : Prop :=
  c.check_epoch = some s.gc_epoch ∧ s.leaseHeld id lease = true ∧
    p.Declined env now (postPackMeta p m s) ∧
    ∃ head, p.head = some head ∧ s.refs.has head = true ∧ head ≠ s.head

/-- A push in the current epoch is answered without writes exactly if it is declined. -/
theorem commitPush_declined {env : Env} {now : ℤ} {p : ImportPayload}
    (hepoch : ∀ push, s.pushes.find p.push = some push → s.gc_epoch = push.gc_epoch) :
    (∃ results, ((commitPush env now p.request).run s).res = .ok results) ∧
        ¬ ReachesWrites env now p.request s ↔ p.Declined env now s := by
  have hpush : p.request.push_id = p.push := rfl
  have hpack : p.request.pack_id = some p.pack := rfl
  unfold commitPush
  rw [Span.run_read_bind, hpush, hpack]
  cases hfind : s.pushes.find p.push with
  | none => simp [hfind, ImportPayload.Declined]
  | some push =>
    by_cases hopen : push.state = .open
    · cases hauth : commitAuth push.auth (s.tokenRow push.auth now) with
      | error why =>
        simp [hfind, hopen, hauth, finishPush, ImportPayload.Declined, ReachesWrites, Admits, hpush]
      | ok current =>
        have hepoch := hepoch push hfind
        have hreach : ReachesWrites env now p.request s ↔ ∀ c ∈ p.commands,
            (promote p.push p.pack s).judge env s.head [push.scope, current.or push.scope] c =
              none := by
          simp [ReachesWrites, Admits, hpush, hfind, hopen, hauth, hepoch]
          rfl
        have hdeclined : p.Declined env now s ↔
            overQuota env (s.storageTotals p.push).1 (s.storageTotals p.push).2 = none ∧
              s.packs.countWhere (promotable p.push p.pack) = 1 ∧
              ¬ ReachesWrites env now p.request s := by
          rw [hreach]
          simp [ImportPayload.Declined, hfind, hopen, hauth]
        simp only [hopen, hauth, hepoch, ne_eq, not_true_eq_false, if_false]
        rw [hdeclined]
        rcases promotePack_cases env p.request now s.barrierActive p.pack s with
          ⟨hquota, m, hres, -⟩ | ⟨hne, hres, -⟩ | ⟨hquota, hone, hres, jobs, seq, hstate⟩
        · rw [Span.run_bind_of_error hres]
          refine iff_of_false (fun h => ?_) fun h => hquota h.1
          obtain ⟨⟨_, h⟩, -⟩ := h
          cases h
        · rw [Span.run_bind_of_error hres]
          refine iff_of_false (fun h => ?_) fun h => hne h.2.1
          obtain ⟨⟨_, h⟩, -⟩ := h
          cases h
        · -- The dry run decides, and both of its ends are answers.
          rw [Span.run_bind_of_ok hres, hstate, commitCommands_atomic _ _ _ _ _ rfl]
          refine ⟨fun h => ⟨hquota, hone, h.2⟩, fun h => ⟨?_, h.2.2⟩⟩
          split_ifs
          · exact ⟨_, (commitRefs_eq env p.request now _ _ _ _).1⟩
          · exact ⟨_, (rejectAtomic_eq p.request now _ _ _).1⟩
    · simp [hfind, hopen, ImportPayload.Declined]

/-- `commit_meta` sets the epoch of its push first, so only the posted counts matter. -/
theorem declined_iff (env : Env) (now : ℤ) (id : ℕ) (lease : Lease) (p : ImportPayload) (m : PackMeta)
    (s : Db) :
    (∃ results, ((commitPush env now p.request).run (prepared now id lease p m s)).res =
        .ok results) ∧ ¬ ReachesWrites env now p.request (prepared now id lease p m s) ↔
      p.Declined env now (postPackMeta p m s) := by
  have hfind : (prepared now id lease p m s).pushes.find p.push =
      (s.pushes.find p.push).map fun r => { r with gc_epoch := s.gc_epoch } := by
    simp only [prepared, advanceEpoch, postPackMeta, touchLease, Table.find_updateWhere]
    cases h : s.pushes.find p.push with
    | none => rfl
    | some r => simp [(Table.find_eq_some.mp h).2]
  rw [commitPush_declined]
  · unfold ImportPayload.Declined
    rw [hfind]
    have hpushes : (postPackMeta p m s).pushes.find p.push = s.pushes.find p.push := rfl
    rw [hpushes]
    cases s.pushes.find p.push with
    | none => simp
    | some r =>
      have hrules : SameRules (promote p.push p.pack (postPackMeta p m s))
          (promote p.push p.pack (prepared now id lease p m s)) := ⟨rfl, rfl, rfl, rfl, rfl⟩
      simp only [Option.map_some, Option.some.injEq, exists_eq_left', hrules.judge rfl]
      exact Iff.rfl
  · intro push hpush
    rw [hfind] at hpush
    obtain ⟨r, -, rfl⟩ := Option.map_eq_some_iff.mp hpush
    rfl

/-- The head after `commit_push` and the adoption, when the refs and the head are as before. -/
theorem remoteHead_ne_iff {p : ImportPayload} {r : Except Error (List RefResult)} {s' : Db}
    (h : SameView s s') : s'.remoteHead p r ≠ s.head ↔
      (∃ results, r = .ok results) ∧
        ∃ head, p.head = some head ∧ s.refs.has head = true ∧ head ≠ s.head := by
  unfold Db.remoteHead
  cases r with
  | error e => simp [h.head]
  | ok results =>
    cases p.head with
    | none => simp [h.head]
    | some head =>
      cases hh : s.refs.has head <;> simp [h.refs, h.head, hh]

/-- `commit_meta` past its guards is honest exactly when it does not adopt a head after a
rejection. -/
theorem commitMeta_honest_iff (env : Env) (now : ℤ) (id : ℕ) (lease : Lease) (p : ImportPayload)
    (c : ImportCursor) (m : PackMeta) (s : Db) (hepoch : c.check_epoch = some s.gc_epoch)
    (hlease : s.leaseHeld id lease = true) :
    Honest p.push s ((commitMeta env now id lease p c m).run s).state ↔
      ¬ HeadLeaks env now id lease p c m s := by
  rw [commitMeta_state env now id lease p c m s hepoch hlease]
  generalize ho : (commitPush env now p.request).run (prepared now id lease p m s) = o
  obtain ⟨hdrop, hdropPushes, hdropVersion⟩ :=
    dropStaging_sameView p.push { o.state with head := o.state.remoteHead p o.res }
  generalize ((dropStaging p.push).run
    { o.state with head := o.state.remoteHead p o.res }).state = s' at hdrop hdropPushes hdropVersion
  have hprep := prepared_sameView now id lease p m s
  have hview := commitPush_view env now p.request (prepared now id lease p m s)
  simp only [ho] at hview
  have hrefs' : s'.refs = o.state.refs := hdrop.refs
  have hhead' : s'.head = o.state.remoteHead p o.res := hdrop.head
  have hpush' : s'.pushes = o.state.pushes := hdropPushes
  have hversion' : s'.refs_version = o.state.refs_version := hdropVersion
  rcases hview with ⟨hsame, hrej⟩ | ⟨hcom, hreach, hver⟩
  · -- Rejected: the view is as before up to the head.
    have hsame' := hprep.trans hsame
    have hlive : ∀ q, s'.packLive q = s.packLive q := fun q => (hdrop.live q).trans (hsame'.live q)
    by_cases hne : s'.head = s.head
    · have hleak : ¬ HeadLeaks env now id lease p c m s := by
        rintro ⟨-, -, hdeclined, hhead⟩
        have hok := ((declined_iff env now id lease p m s).mpr hdeclined).1
        rw [ho] at hok
        exact (remoteHead_ne_iff hsame').mpr ⟨hok, hhead⟩ (hhead'.symm.trans hne)
      exact iff_of_true (.of_sameView ⟨hrefs'.trans hsame'.refs, hne, hlive⟩) hleak
    · obtain ⟨hok, hhead⟩ := (remoteHead_ne_iff hsame').mp (hhead' ▸ hne)
      have hrow : s'.pushIs p.push .rejected := by
        obtain ⟨r, hr, hst⟩ := (hrej hok).1
        exact ⟨r, by rw [hpush']; exact hr, hst⟩
      refine iff_of_false (fun h => hne (h.1 hrow).head) (not_not.mpr ?_)
      refine ⟨hepoch, hlease, (declined_iff env now id lease p m s).mp ⟨?_, (hrej hok).2 rfl⟩, hhead⟩
      rw [ho]
      exact hok
  · -- Committed: the pack moved the version.
    have hleak : ¬ HeadLeaks env now id lease p c m s := fun h => ((declined_iff env now id lease p m s).mpr h.2.2.1).2 (hreach rfl)
    refine iff_of_true ⟨?_, fun _ => ?_⟩ hleak
    · rintro ⟨r, hr, hst⟩
      obtain ⟨r', hr', hst'⟩ := hcom
      rw [hpush', show p.push = p.request.push_id from rfl, hr'] at hr
      cases hr
      rw [hst'] at hst
      cases hst
    · rw [hversion']
      exact hver (.inr (.inr rfl))

/-- Every commit of a push is honest. -/
theorem commitPush_honest (env : Env) (now : ℤ) (req : CommitRequest) (s : Db) :
    Honest req.push_id s ((commitPush env now req).run s).state := by
  rcases commitPush_view env now req s with ⟨hsame, -⟩ | ⟨hcom, -, hver⟩
  · exact .of_sameView hsame
  · refine ⟨?_, fun h => hver (h.elim .inl fun h => .inr (.inl h))⟩
    rintro ⟨r, hr, hst⟩
    obtain ⟨r', hr', hst'⟩ := hcom
    rw [hr'] at hr
    cases hr
    rw [hst'] at hst
    cases hst

/-- The commit of an import is honest exactly when it does not adopt a head after a rejection. -/
theorem importCommit_honest_iff (env : Env) (now : ℤ) (id : ℕ) (lease : Lease) (p : ImportPayload)
    (c : ImportCursor) (m : PackMeta) (s : Db) :
    Honest p.push s ((commitMeta env now id lease p c m).run s).state ↔
      ¬ HeadLeaks env now id lease p c m s := by
  by_cases h : c.check_epoch = some s.gc_epoch ∧ s.leaseHeld id lease = true
  · exact commitMeta_honest_iff env now id lease p c m s h.1 h.2
  · exact iff_of_true (.of_sameView (commitMeta_stopped env now id lease p c m s h))
      fun hl => h ⟨hl.1, hl.2.1⟩

/-- Every commit of a push, and every rejection of an import before its commit, is honest; the
commit of an import is honest exactly when it does not adopt the remote's head after a rejection. -/
theorem commit_honest_iff (env : Env) (now : ℤ) (s : Db) :
    (∀ req, Honest req.push_id s ((commitPush env now req).run s).state) ∧
      (∀ id lease push why, Honest push s ((rejectPush id lease now push why).run s).state) ∧
      ∀ id lease p c m,
        Honest p.push s ((commitMeta env now id lease p c m).run s).state ↔
          ¬ HeadLeaks env now id lease p c m s := by
  refine ⟨fun req => commitPush_honest env now req s, fun id lease push why => ?_,
    fun id lease p c m => importCommit_honest_iff env now id lease p c m s⟩
  refine .of_sameView ?_
  unfold rejectPush heartbeat
  simp only [Span.bind_assoc, Span.run_read_bind, Span.run_exec_bind]
  split_ifs
  · exact ⟨rfl, rfl, fun _ => rfl⟩
  · exact ⟨rfl, rfl, fun _ => rfl⟩

/-! ## A rejected import that changes the head -/

/-- A push of the branches `a` and `b`, and then an import in its last slice, whose command creates
`a` again. -/
def lateImport : Db :=
  let env := Env.default fun _ => true
  let db := ((pushBegin env 1 .off ⟨1, "admin", "", true, none⟩).run (boot 0)).state
  let db := ((pushIndex 2 ⟨10, 1, 1, 100⟩
    [⟨⟨7, 10, 0, 12, 50, .commit, 40⟩, some []⟩]).run db).state
  let db := ((commitPush env 3 ⟨1, some 10, "admin",
    [⟨0, 7, "refs/heads/a", none⟩, ⟨0, 7, "refs/heads/b", none⟩], true⟩).run db).state
  let db := ((pushBegin env 4 .off ⟨2, "admin", "", true, none⟩).run db).state
  let db := ((pushIndex 5 ⟨20, 2, 1, 100⟩
    [⟨⟨7, 20, 0, 12, 50, .commit, 40⟩, some []⟩]).run db).state
  { db with
    jobs := db.jobs.insertIgnore
      { Job.fresh 9 .importPack 6 .none with state := .running, lease := some 77 } }

/-- The payload of that import: the remote's head is `b`. -/
def lateImportPayload : ImportPayload :=
  ⟨2, 20, "admin", [⟨0, 7, "refs/heads/a", none⟩], some "https://remote", some "refs/heads/b"⟩

/-- The cursor of that import, checked in the current epoch. -/
def lateImportCursor : ImportCursor :=
  ⟨.commit, 0, 1, 1, [], none, none, none, some 0, false, 0, 0⟩

/-- The import is rejected, and yet the head moves from `a` to `b`, under the same version. -/
theorem commitMeta_moves_head :
    let s' := ((commitMeta (Env.default fun _ => true) 8 9 77 lateImportPayload lateImportCursor
      ⟨1, 100⟩).run lateImport).state
    (s'.pushes.find 2).map (·.state) = some .rejected ∧ lateImport.head = "refs/heads/a" ∧
      s'.head = "refs/heads/b" ∧ s'.refs_version = lateImport.refs_version ∧
      ¬ Honest 2 lateImport s' := by
  intro s'
  have hrow : (s'.pushes.find 2).map (·.state) = some .rejected := by decide
  have hhead : s'.head = "refs/heads/b" := by decide
  refine ⟨hrow, by decide, hhead, by decide, fun h => ?_⟩
  obtain ⟨r, hr, hst⟩ := Option.map_eq_some_iff.mp hrow
  have := (h.1 ⟨r, hr, hst⟩).head
  rw [hhead] at this
  exact absurd this (by decide)

end GitEdge
