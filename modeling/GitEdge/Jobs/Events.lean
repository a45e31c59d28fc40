import GitEdge.Repo.Effect
import GitEdge.Repo.Atomic
import GitEdge.Lib.InTurn
import GitEdge.Lib.Decimal
import Mathlib.Logic.Relation

/-!
# The outbox of push events

A commit that moves a ref writes a row to `push_events`. A slice of the `push_event` job reads the
first rows, posts them one after another, and deletes a row when the receiver answered its post with
a 2xx; at the first failure it ends. A slice works from a list that it read before its first
request, and no lease holds it back, so any number of slices may be waiting for an answer, a request
may be accepted after its slice was killed, and a slice may end between an answer and the delete.
The outbox is still a queue: no row goes before it was accepted, and the rows are accepted in the
order of their numbers.
-/

namespace GitEdge

open Sql

/-! ## The outbox after a commit -/

/-- The outbox after `record_push_event`. -/
def recorded (env : Env) (req : CommitRequest) (results : List RefResult) (now : ℤ)
    (t : Numbered EventRow) : Numbered EventRow :=
  if !env.webhook || maxPendingEvents ≤ t.size then t else t.insert (req.event results now)

theorem recordPushEvent_outbox (env : Env) (req : CommitRequest)
    (results : List RefResult) (now : ℤ) (s : Db) :
    ((recordPushEvent env req results now).run s).state.push_events =
      recorded env req results now s.push_events := by
  unfold recordPushEvent recorded
  rw [Span.run_read_bind]
  cases env.webhook with
  | false => rfl
  | true =>
    by_cases hcap : maxPendingEvents ≤ s.push_events.size
    · simp only [hcap, decide_true, Bool.or_true, if_true]
      rfl
    · obtain ⟨jobs, seq, h⟩ := enqueue_eq .pushEvent now .none
        { s with push_events := s.push_events.insert (req.event results now) }
      simp only [hcap, decide_false, Bool.not_true, Bool.or_false, Bool.false_eq_true, if_false,
        Span.run_exec_bind, Span.run_exec]
      rw [h]

section Commands

variable (env : Env) (head : String) (push : PushId) (who : String) (now : ℤ) (barrier : Bool)
  (scopes : List (Option String))

theorem landCommands_outbox (cs : List Cmd) (s : Db) :
    (landCommands env head push who now barrier scopes cs s).2.push_events = s.push_events := by
  induction cs generalizing s with
  | nil => rfl
  | cons c cs ih =>
    simp only [landCommands, ih]
    split_ifs
    · unfold landed
      cases barrier
      · rfl
      · by_cases h0 : c.new = 0 <;> simp [h0, logRef, bumpRefsVersion, barrierFeedLanding]
    · rfl

end Commands

theorem commitRefs_outbox (env : Env) (req : CommitRequest) (now : ℤ) (barrier : Bool)
    (head : String) (scopes : List (Option String)) (s : Db) :
    let L := landCommands env head req.push_id req.principal now barrier scopes req.commands s
    ((commitRefs env req now barrier head scopes).run s).state.push_events =
      if L.1.any (fun r => r.2.isNone) then recorded env req L.1 now s.push_events
      else s.push_events := by
  intro L
  have hkept : L.2.push_events = s.push_events := landCommands_outbox ..
  obtain ⟨hres, hstate⟩ :=
    applyAll_write env head req.push_id req.principal now barrier scopes req.commands s
  unfold commitRefs
  rw [Span.run_bind_of_ok hres, hstate]
  cases L.1.any fun r => r.2.isNone with
  | false =>
    cases req.pack_id.isSome <;> exact hkept
  | true =>
    have hhead : ∀ t : Db, (adoptHead t).push_events = t.push_events := by
      intro t
      unfold adoptHead
      split_ifs
      · rfl
      · split <;> rfl
    obtain ⟨jobs, seq, henq⟩ :=
      enqueue_eq .gcMark (now + env.gc_quiet_ms) .none (adoptHead (bumpRefsVersion L.2))
    obtain ⟨hok, -⟩ := recordPushEvent_eq env req L.1 now
      (enqueue .gcMark (now + env.gc_quiet_ms) .none (adoptHead (bumpRefsVersion L.2)))
    simp only [Bool.true_or, if_true, Span.run_exec_bind]
    rw [Span.run_bind_of_ok hok]
    calc _ = ((recordPushEvent env req L.1 now).run (enqueue .gcMark (now + env.gc_quiet_ms) .none
          (adoptHead (bumpRefsVersion L.2)))).state.push_events := rfl
      _ = recorded env req L.1 now (adoptHead (bumpRefsVersion L.2)).push_events := by
          rw [recordPushEvent_outbox, henq]
      _ = recorded env req L.1 now s.push_events := by rw [hhead]; exact congrArg _ hkept

theorem Step3.outbox {req : CommitRequest} {s P : Db} (h : Step3 req s P) :
    P.refs = s.refs ∧ P.push_events = s.push_events := by
  cases h with
  | noPack h => exact ⟨rfl, rfl⟩
  | @pack pack h one jobs seq =>
    obtain ⟨pending, pseq, version, he⟩ := withPending_eq s.barrierActive pack s
    rw [he]
    exact ⟨rfl, rfl⟩

/-- Steps 4 to 7 leave the refs and the outbox alone, or record one event. -/
theorem commitRefs_records (env : Env) (req : CommitRequest) (now : ℤ) (barrier : Bool)
    (head : String) (scopes : List (Option String)) (s : Db) :
    let o := (commitRefs env req now barrier head scopes).run s
    (o.state.refs = s.refs ∧ o.state.push_events = s.push_events) ∨
      ∃ results, o.res = .ok results ∧ results.map Prod.fst = req.commands.map Cmd.name ∧
        o.state.push_events = recorded env req results now s.push_events := by
  intro o
  obtain ⟨hres, jobs, seq, events, dropped, hstate⟩ :=
    commitRefs_eq env req now barrier head scopes s
  have hevents := commitRefs_outbox env req now barrier head scopes s
  cases hok :
    (landCommands env head req.push_id req.principal now barrier scopes req.commands s).1.any
      fun r => r.2.isNone with
  | false =>
    left
    simp only [hok, Bool.false_eq_true, if_false] at hevents
    refine ⟨?_, hevents⟩
    obtain ⟨version, head', he⟩ := settled_eq false req s
    rw [show o.state = _ from hstate, hok, landCommands_none _ _ _ _ _ _ _ _ _ hok, he]
    rfl
  | true =>
    right
    simp only [hok, if_true] at hevents
    exact ⟨_, hres, landCommands_names .., hevents⟩

/-- A commit leaves the refs and the outbox alone, or it records one event with the commands that it
reports to have succeeded. -/
theorem commitPush_outbox (env : Env) (now : ℤ) (req : CommitRequest) (s : Db) :
    let o := (commitPush env now req).run s
    (o.state.refs = s.refs ∧ o.state.push_events = s.push_events) ∨
      ∃ results, o.res = .ok results ∧ results.map Prod.fst = req.commands.map Cmd.name ∧
        o.state.push_events = recorded env req results now s.push_events := by
  intro o
  rcases commitPush_cases env now req s with ⟨m, -, hs⟩ | ⟨-, -, why, -, hs⟩ |
    ⟨m, -, hs⟩ | ⟨pack, m, -, -, -, hs⟩ | ⟨scopes, P, -, h3, hr, hs⟩
  · left
    rw [show o.state = _ from hs]
    exact ⟨rfl, rfl⟩
  · left
    rw [show o.state = _ from hs]
    exact ⟨rfl, rfl⟩
  · left
    rw [show o.state = _ from hs]
    exact ⟨rfl, rfl⟩
  · left
    obtain ⟨_, _, _, he⟩ := withPending_eq s.barrierActive pack s
    rw [show o.state = _ from hs, he]
    exact ⟨rfl, rfl⟩
  · obtain ⟨hrefs, hevents⟩ := h3.outbox
    have hwrites := commitRefs_records env req now s.barrierActive P.head scopes P
    rw [hrefs, hevents] at hwrites
    rw [show o.state = _ from hs, show o.res = _ from hr]
    cases hatomic : req.atomic with
    | false =>
      rw [commitCommands_not_atomic env req now _ scopes hatomic P]
      exact hwrites
    | true =>
      rw [commitCommands_atomic env req now _ scopes hatomic P]
      split_ifs with hall
      · exact hwrites
      · -- The dry run failed: the push is rejected.
        left
        rw [(rejectAtomic_eq req now _ _ P).2, ← hrefs, ← hevents]
        cases req.pack_id with
        | none => exact ⟨rfl, rfl⟩
        | some pack => cases s.barrierActive <;> exact ⟨rfl, rfl⟩

/-! ## The slices -/

/-- `events::BATCH`. -/
def eventBatch : ℕ := 25

/-- The columns of `push_events` that a slice reads. -/
structure EventPost where
  seq : ℕ
  body : EventBody
deriving DecidableEq, Repr

/-- The header `x-ge-delivery` of a post. -/
def deliveryId (repo_id : String) (seq : ℕ) : String := repo_id ++ ":" ++ toString seq

/-- The digits of a number determine it. -/
theorem deliveryId_inj {repo_id : String} {m n : ℕ}
    (h : deliveryId repo_id m = deliveryId repo_id n) :
    m = n := by
  exact Decimal.natRepr_inj ((String.append_right_inj _).mp h)

/-- The rows of the outbox, as a slice reads them. -/
def Db.events (db : Db) : List EventPost := db.push_events.rows.map fun x => ⟨x.1, x.2.body⟩

/-- What a slice does next: it posts a row, with the rows that are left, or it ends. -/
inductive Drain where
  | post (row : EventPost) (rest : List EventPost)
  | ends (outcome : Except Error SliceOutcome)

/-- The loop of `run_slice` up to its next request, over the rows that are left of `batch`. The
budget says whether it is spent and whether the request can be charged. -/
def drain (batch : ℕ) (spent : Bool) (charge : Except Error Unit) : List EventPost → Drain
  | [] => .ends (.ok (if batch = eventBatch then .continue none else .done))
  | row :: rest =>
    if spent then .ends (.ok (.continue none))
    else
      match charge with
      | .error e => .ends (.error e)
      | .ok () => .post row rest

/-- `run_slice` up to its first request. -/
def beginEvents (env : Env) (spent : Bool) (charge : Except Error Unit) (db : Db) : Drain :=
  if !env.webhook then .ends (.ok .done)
  else
    let rows := db.events.take eventBatch
    drain rows.length spent charge rows

/-- The statement after a 2xx. -/
def deleteEvent (seq : ℕ) (db : Db) : Db := { db with push_events := db.push_events.delete seq }

/-- The statement after a failure. -/
def failEvent (seq : ℕ) (why : String) (db : Db) : Db :=
  { db with
    push_events := db.push_events.modify seq fun r =>
      { r with attempts := r.attempts + 1, last_error := some why } }

theorem events_failEvent (seq : ℕ) (why : String) (db : Db) :
    (failEvent seq why db).events = db.events := by
  simp only [Db.events, failEvent, Numbered.modify, List.map_map]
  refine List.map_congr_left fun x _ => ?_
  simp only [Function.comp_apply]
  split_ifs <;> rfl

/-- A slice that waits for an answer. -/
structure EventSlice where
  batch : ℕ
  sent : EventPost
  rest : List EventPost
deriving DecidableEq

/-- The database, the slices that wait, the posts that were made, and the posts that the receiver
answered with a 2xx, in the order of the answers. -/
structure Outbox where
  db : Db
  slices : List EventSlice
  posts : List EventPost
  accepted : List EventPost

/-- A slice goes on. -/
def Outbox.proceed (o : Outbox) (batch : ℕ) : Drain → Outbox
  | .post row rest =>
    { o with slices := o.slices ++ [⟨batch, row, rest⟩], posts := o.posts ++ [row] }
  | .ends _ => o

/-- The steps of the outbox. -/
inductive OutboxStep (env : Env) (o : Outbox) : Outbox → Prop
  /-- `commit_push`. -/
  | commit (now : ℤ) (req : CommitRequest) :
      OutboxStep env o { o with db := ((commitPush env now req).run o.db).state }
  /-- Whatever leaves the outbox alone, a commit that is undone among it. -/
  | beside (u : Db) (h : u.push_events = o.db.push_events) : OutboxStep env o { o with db := u }
  /-- A slice begins, whether or not others wait. -/
  | begins (spent : Bool) (charge : Except Error Unit) :
      OutboxStep env o
        (o.proceed (o.db.events.take eventBatch).length (beginEvents env spent charge o.db))
  /-- A slice gets a 2xx and goes on. -/
  | accept (before after : List EventSlice) (slice : EventSlice)
      (h : o.slices = before ++ slice :: after) (spent : Bool) (charge : Except Error Unit) :
      OutboxStep env o
        (Outbox.proceed
          { o with
            db := deleteEvent slice.sent.seq o.db
            slices := before ++ after
            accepted := o.accepted ++ [slice.sent] }
          slice.batch (drain slice.batch spent charge slice.rest))
  /-- A slice gets a failure and ends. -/
  | refuse (before after : List EventSlice) (slice : EventSlice)
      (h : o.slices = before ++ slice :: after) (why : String) :
      OutboxStep env o
        { o with db := failEvent slice.sent.seq why o.db, slices := before ++ after }
  /-- A slice is killed. -/
  | kill (before after : List EventSlice) (slice : EventSlice)
      (h : o.slices = before ++ slice :: after) :
      OutboxStep env o { o with slices := before ++ after }
  /-- The receiver answers a post with a 2xx that no slice sees. -/
  | late (row : EventPost) (h : row ∈ o.posts) :
      OutboxStep env o { o with accepted := o.accepted ++ [row] }

/-! ## The invariant -/

/-- The rows that are in the outbox, that were posted, and that slices hold. -/
def Outbox.Knows (o : Outbox) (x : EventPost) : Prop :=
  x ∈ o.db.events ∨ x ∈ o.posts ∨ ∃ slice ∈ o.slices, x ∈ slice.rest

/-- The numbers of the rows that were accepted. -/
def Outbox.done (o : Outbox) : List ℕ := o.accepted.map EventPost.seq

/-- What holds of the outbox when the first event gets the number after `k`. -/
structure Outbox.Inv (k : ℕ) (o : Outbox) : Prop where
  first : k ≤ o.db.push_events.last
  /-- An event waits or was accepted. -/
  kept : ∀ n, k < n → n ≤ o.db.push_events.last → n ∈ o.db.events.map EventPost.seq ∨ n ∈ o.done
  /-- Numbers that were not given yet are not known. -/
  given : ∀ x, o.Knows x → k < x.seq ∧ x.seq ≤ o.db.push_events.last
  /-- A number has one event. -/
  unique : ∀ x y, o.Knows x → o.Knows y → x.seq = y.seq → x = y
  /-- A post is made when the events before it were accepted. -/
  posted : ∀ x ∈ o.posts, ∀ n, k < n → n < x.seq → n ∈ o.done
  /-- The list of a slice is in turn. -/
  queued : ∀ slice ∈ o.slices,
    slice.sent ∈ o.posts ∧ InTurn k o.done ((slice.sent :: slice.rest).map EventPost.seq)
  accepted_posted : ∀ x ∈ o.accepted, x ∈ o.posts
  /-- The posts were accepted in turn. -/
  ordered : InTurn k [] o.done

namespace Outbox.Inv

variable {k : ℕ} {o : Outbox}

/-- Statements that leave the rows of the outbox as they read keep the invariant. -/
theorem of_events (h : Inv k o) {u : Db} (hevents : u.events = o.db.events)
    (hlast : u.push_events.last = o.db.push_events.last) : Inv k { o with db := u } := by
  have hknows : ∀ x, Knows { o with db := u } x → o.Knows x := fun x hx =>
    hx.imp_left fun hx => hevents ▸ hx
  exact {
    first := h.first.trans_eq hlast.symm
    kept := fun n hk hn => by rw [hevents]; exact h.kept n hk (hlast ▸ hn)
    given := fun x hx => by rw [hlast]; exact h.given x (hknows x hx)
    unique := fun x y hx hy => h.unique x y (hknows x hx) (hknows y hy)
    posted := h.posted
    queued := h.queued
    accepted_posted := h.accepted_posted
    ordered := h.ordered }

/-- An event is inserted under a number of its own. -/
theorem insert (h : Inv k o) {u : Db} {row : EventRow}
    (hu : u.push_events = o.db.push_events.insert row) : Inv k { o with db := u } := by
  have hevents : u.events = o.db.events ++ [⟨o.db.push_events.last + 1, row.body⟩] := by
    rw [Db.events, hu]
    simp [Numbered.insert, Db.events]
  have hlast : u.push_events.last = o.db.push_events.last + 1 := by rw [hu, Numbered.last_insert]
  have hknows : ∀ x, Knows { o with db := u } x →
      o.Knows x ∨ x = ⟨o.db.push_events.last + 1, row.body⟩ := by
    rintro x (hx | hx)
    · rw [hevents, List.mem_append, List.mem_singleton] at hx
      exact hx.imp_left .inl
    · exact .inl (.inr hx)
  exact {
    first := by rw [hlast]; exact Nat.le_succ_of_le h.first
    kept := fun n hkn hn => by
      rw [hevents, List.map_append, List.mem_append]
      rcases Nat.lt_or_eq_of_le (hlast ▸ hn) with hlt | rfl
      · exact (h.kept n hkn (Nat.le_of_lt_succ hlt)).imp_left .inl
      · exact .inl (.inr List.mem_cons_self)
    given := fun x hx => by
      rw [hlast]
      rcases hknows x hx with hx | rfl
      · obtain ⟨hgt, hle⟩ := h.given x hx
        exact ⟨hgt, Nat.le_succ_of_le hle⟩
      · exact ⟨Nat.lt_succ_of_le h.first, le_rfl⟩
    unique := fun x y hx hy hxy => by
      rcases hknows x hx with hx | rfl <;> rcases hknows y hy with hy | rfl
      · exact h.unique x y hx hy hxy
      · have hle := (h.given x hx).2
        dsimp only at hxy
        omega
      · have hle := (h.given y hy).2
        dsimp only at hxy
        omega
      · rfl
    posted := h.posted
    queued := h.queued
    accepted_posted := h.accepted_posted
    ordered := h.ordered }

/-- A post is accepted, seen or unseen. -/
theorem accept (h : Inv k o) {row : EventPost} (hrow : row ∈ o.posts) :
    Inv k { o with accepted := o.accepted ++ [row] } := by
  have hdone : Outbox.done { o with accepted := o.accepted ++ [row] } = o.done ++ [row.seq] := by
    simp [Outbox.done]
  have hsub : ∀ n ∈ o.done, n ∈ Outbox.done { o with accepted := o.accepted ++ [row] } := by
    intro n hn
    rw [hdone]
    exact List.mem_append_left _ hn
  exact {
    first := h.first
    kept := fun n hk hn => (h.kept n hk hn).imp_right (hsub n)
    given := h.given
    unique := h.unique
    posted := fun x hx n hk hn => hsub n (h.posted x hx n hk hn)
    queued := fun slice hslice => ⟨(h.queued slice hslice).1, (h.queued slice hslice).2.mono hsub⟩
    accepted_posted := fun x hx => by
      rcases List.mem_append.mp hx with hx | hx
      · exact h.accepted_posted x hx
      · rw [List.mem_singleton.mp hx]
        exact hrow
    ordered := by
      rw [hdone]
      exact h.ordered.concat (h.posted row hrow) }

/-- The row of an accepted event may go. -/
theorem delete (h : Inv k o) {n : ℕ} (hn : n ∈ o.done) :
    Inv k { o with db := deleteEvent n o.db } := by
  have hevents : ∀ x, x ∈ (deleteEvent n o.db).events ↔ x ∈ o.db.events ∧ x.seq ≠ n := by
    intro x
    simp only [Db.events, deleteEvent, List.mem_map, Numbered.mem_delete]
    constructor
    · rintro ⟨y, ⟨hy, hne⟩, rfl⟩
      exact ⟨⟨y, hy, rfl⟩, hne⟩
    · rintro ⟨⟨y, hy, rfl⟩, hne⟩
      exact ⟨y, ⟨hy, hne⟩, rfl⟩
  have hknows : ∀ x, Knows { o with db := deleteEvent n o.db } x → o.Knows x := fun x hx =>
    hx.imp_left fun hx => ((hevents x).mp hx).1
  exact {
    first := h.first
    kept := fun m hk hm => by
      by_cases hmn : m = n
      · exact .inr (hmn ▸ hn)
      · rcases h.kept m hk hm with hin | hdone
        · obtain ⟨x, hx, rfl⟩ := List.mem_map.mp hin
          exact .inl (List.mem_map.mpr ⟨x, (hevents x).mpr ⟨hx, hmn⟩, rfl⟩)
        · exact .inr hdone
    given := fun x hx => h.given x (hknows x hx)
    unique := fun x y hx hy => h.unique x y (hknows x hx) (hknows y hy)
    posted := h.posted
    queued := h.queued
    accepted_posted := h.accepted_posted
    ordered := h.ordered }

/-- Slices may go. -/
theorem slices (h : Inv k o) {l : List EventSlice} (hl : ∀ slice ∈ l, slice ∈ o.slices) :
    Inv k { o with slices := l } := by
  have hknows : ∀ x, Knows { o with slices := l } x → o.Knows x := by
    rintro x (hx | hx | ⟨slice, hslice, hx⟩)
    · exact .inl hx
    · exact .inr (.inl hx)
    · exact .inr (.inr ⟨slice, hl slice hslice, hx⟩)
  exact {
    first := h.first
    kept := h.kept
    given := fun x hx => h.given x (hknows x hx)
    unique := fun x y hx hy => h.unique x y (hknows x hx) (hknows y hy)
    posted := h.posted
    queued := fun slice hslice => h.queued slice (hl slice hslice)
    accepted_posted := h.accepted_posted
    ordered := h.ordered }

/-- A slice goes on with rows that are known and in turn. -/
theorem proceed (h : Inv k o) {rows : List EventPost} (hrows : ∀ x ∈ rows, o.Knows x)
    (hturn : InTurn k o.done (rows.map EventPost.seq)) (batch : ℕ) (spent : Bool)
    (charge : Except Error Unit) : Inv k (o.proceed batch (drain batch spent charge rows)) := by
  unfold drain
  split
  · exact h
  · rename_i row rest
    split_ifs
    · exact h
    · split
      · exact h
      · have hknows : ∀ x, (o.proceed batch (.post row rest)).Knows x → o.Knows x := by
          rintro x (hx | hx | ⟨slice, hslice, hx⟩)
          · exact .inl hx
          · rcases List.mem_append.mp hx with hx | hx
            · exact .inr (.inl hx)
            · exact hrows x (List.mem_singleton.mp hx ▸ List.mem_cons_self)
          · rcases List.mem_append.mp hslice with hslice | hslice
            · exact .inr (.inr ⟨slice, hslice, hx⟩)
            · rw [List.mem_singleton.mp hslice] at hx
              exact hrows x (List.mem_cons_of_mem row hx)
        exact {
          first := h.first
          kept := h.kept
          given := fun x hx => h.given x (hknows x hx)
          unique := fun x y hx hy => h.unique x y (hknows x hx) (hknows y hy)
          posted := fun x hx => by
            rcases List.mem_append.mp hx with hx | hx
            · exact h.posted x hx
            · rw [List.mem_singleton.mp hx]
              exact hturn.head
          queued := fun slice hslice => by
            rcases List.mem_append.mp hslice with hslice | hslice
            · exact ⟨List.mem_append_left _ (h.queued slice hslice).1, (h.queued slice hslice).2⟩
            · rw [List.mem_singleton.mp hslice]
              exact ⟨List.mem_append_right _ List.mem_cons_self, hturn⟩
          accepted_posted := fun x hx => List.mem_append_left _ (h.accepted_posted x hx)
          ordered := h.ordered }

/-- The page that a slice reads is in turn: the rows that it does not find were accepted. -/
theorem page (h : Inv k o) : InTurn k o.done ((o.db.events.take eventBatch).map EventPost.seq) := by
  have hseqs : o.db.events.map EventPost.seq = o.db.push_events.numbers := by
    simp [Db.events, Numbered.numbers]
  intro before x after hl n hk hn
  rw [List.map_take, hseqs] at hl
  have hx : x ≤ o.db.push_events.last := by
    have hmem : x ∈ o.db.push_events.numbers.take eventBatch := by
      rw [hl]
      exact List.mem_append_right _ List.mem_cons_self
    obtain ⟨y, hy, rfl⟩ := List.mem_map.mp (List.mem_of_mem_take hmem)
    exact o.db.push_events.le_last y hy
  rcases h.kept n hk (by omega) with hin | hdone
  · exact .inl (Numbered.mem_before hl (hseqs ▸ hin) hn)
  · exact .inr hdone

/-- A step keeps the invariant. -/
theorem step {env : Env} (h : Inv k o) {o' : Outbox} (hstep : OutboxStep env o o') : Inv k o' := by
  cases hstep with
  | commit now req =>
    rcases commitPush_outbox env now req o.db with ⟨-, hsame⟩ | ⟨results, -, -, hrec⟩
    · exact h.of_events (by rw [Db.events, hsame]; rfl) (by rw [hsame])
    · unfold recorded at hrec
      split_ifs at hrec
      · exact h.of_events (by rw [Db.events, hrec]; rfl) (by rw [hrec])
      · exact h.insert hrec
  | beside u hu => exact h.of_events (by rw [Db.events, hu]; rfl) (by rw [hu])
  | begins spent charge =>
    unfold beginEvents
    split_ifs
    · exact h
    · exact h.proceed (fun x hx => .inl (List.mem_of_mem_take hx)) h.page _ spent charge
  | accept before after slice hs spent charge =>
    have hslice : slice ∈ o.slices := hs ▸ List.mem_append_right _ List.mem_cons_self
    obtain ⟨hsent, hturn⟩ := h.queued slice hslice
    have haccept := h.accept hsent
    have hdone : slice.sent.seq ∈ Outbox.done { o with accepted := o.accepted ++ [slice.sent] } :=
      List.mem_map.mpr ⟨slice.sent, List.mem_append_right _ List.mem_cons_self, rfl⟩
    have hdelete := haccept.delete hdone
    -- The slice goes on before it is taken off the list, as its rows are known through it.
    have hon := hdelete.proceed (fun x hx => .inr (.inr ⟨slice, hslice, hx⟩))
      (hturn.tail hdone fun n hn => by
        rw [Outbox.done, List.map_append]
        exact List.mem_append_left _ hn) slice.batch spent charge
    have hsub : ∀ s ∈ before ++ after, s ∈ o.slices := fun s hs' =>
      hs ▸ (List.sublist_cons_self slice after).append_left before |>.subset hs'
    generalize drain slice.batch spent charge slice.rest = next at hon ⊢
    cases next with
    | ends outcome => exact hon.slices hsub
    | post row rest =>
      refine hon.slices fun s hs' => ?_
      rcases List.mem_append.mp hs' with hs' | hs'
      · exact List.mem_append_left _ (hsub s hs')
      · exact List.mem_append_right _ hs'
  | refuse before after slice hs why =>
    exact (h.of_events (events_failEvent slice.sent.seq why o.db) rfl).slices fun s hs' =>
      hs ▸ ((List.sublist_cons_self slice after).append_left before).subset hs'
  | kill before after slice hs =>
    exact h.slices fun s hs' =>
      hs ▸ ((List.sublist_cons_self slice after).append_left before).subset hs'
  | late row hrow => exact h.accept hrow

/-- So does a run. -/
theorem steps {env : Env} (h : Inv k o) {o' : Outbox}
    (hrun : Relation.ReflTransGen (OutboxStep env) o o') : Inv k o' := by
  induction hrun with
  | refl => exact h
  | tail _ hstep ih => exact ih.step hstep

/-- A row leaves the outbox when its post was accepted. -/
theorem removed {env : Env} (h : Inv k o) {o' : Outbox} (hstep : OutboxStep env o o') :
    (∀ x ∈ o.accepted, x ∈ o'.accepted) ∧
      ∀ x ∈ o.db.events, x ∈ o'.db.events ∨ x ∈ o'.accepted := by
  have hproceed : ∀ (o : Outbox) batch next, (o.proceed batch next).accepted = o.accepted ∧
      (o.proceed batch next).db = o.db := by
    rintro o batch (_ | _) <;> exact ⟨rfl, rfl⟩
  cases hstep with
  | commit now req =>
    refine ⟨fun x hx => hx, fun x hx => .inl ?_⟩
    rcases commitPush_outbox env now req o.db with ⟨-, hsame⟩ | ⟨results, -, -, hrec⟩
    · rw [Db.events, hsame]
      exact hx
    · unfold recorded at hrec
      rw [Db.events, hrec]
      split_ifs
      · exact hx
      · obtain ⟨y, hy, rfl⟩ := List.mem_map.mp hx
        exact List.mem_map.mpr ⟨y, Numbered.mem_insert.mpr (.inl hy), rfl⟩
  | beside u hu =>
    refine ⟨fun x hx => hx, fun x hx => .inl ?_⟩
    rw [Db.events, hu]
    exact hx
  | begins spent charge =>
    rw [(hproceed _ _ _).1, (hproceed _ _ _).2]
    exact ⟨fun x hx => hx, fun x hx => .inl hx⟩
  | accept before after slice hs spent charge =>
    have hslice : slice ∈ o.slices := hs ▸ List.mem_append_right _ List.mem_cons_self
    have hsent := (h.queued slice hslice).1
    rw [(hproceed _ _ _).1, (hproceed _ _ _).2]
    refine ⟨fun x hx => List.mem_append_left _ hx, fun x hx => ?_⟩
    by_cases heq : x.seq = slice.sent.seq
    · have hx' : x = slice.sent := h.unique x slice.sent (.inl hx) (.inr (.inl hsent)) heq
      exact .inr (List.mem_append_right _ (List.mem_singleton.mpr hx'))
    · obtain ⟨y, hy, rfl⟩ := List.mem_map.mp hx
      exact .inl (List.mem_map.mpr ⟨y, Numbered.mem_delete.mpr ⟨hy, heq⟩, rfl⟩)
  | refuse before after slice hs why =>
    refine ⟨fun x hx => hx, fun x hx => .inl ?_⟩
    exact (events_failEvent slice.sent.seq why o.db).symm ▸ hx
  | kill before after slice hs => exact ⟨fun x hx => hx, fun x hx => .inl hx⟩
  | late row hrow => exact ⟨fun x hx => List.mem_append_left _ hx, fun x hx => .inl hx⟩

/-- A row of the outbox is there or was accepted at every later time. -/
theorem kept_or_accepted {env : Env} (h : Inv k o) {o' : Outbox}
    (hrun : Relation.ReflTransGen (OutboxStep env) o o') :
    ∀ x ∈ o.db.events, x ∈ o'.db.events ∨ x ∈ o'.accepted := by
  intro x hx
  induction hrun with
  | refl => exact .inl hx
  | tail hrun hstep ih =>
    obtain ⟨hmono, hrows⟩ := (h.steps hrun).removed hstep
    rcases ih with hin | hacc
    · exact hrows x hin
    · exact .inr (hmono x hacc)

/-- A row that is known was accepted before any later one. -/
theorem before_later (h : Inv k o) {x y : EventPost} (hx : o.Knows x)
    {before after : List EventPost} (hy : o.accepted = before ++ y :: after) (hlt : x.seq < y.seq) :
    x ∈ before := by
  have hdone : o.done = before.map EventPost.seq ++ y.seq :: after.map EventPost.seq := by
    rw [Outbox.done, hy, List.map_append, List.map_cons]
  have hturn := h.ordered _ _ _ hdone x.seq (h.given x hx).1 hlt
  obtain ⟨z, hz, hzx⟩ := List.mem_map.mp (hturn.resolve_right List.not_mem_nil)
  have hacc : z ∈ o.accepted := hy ▸ List.mem_append_left _ hz
  have hzeq : z = x := h.unique z x (.inr (.inl (h.accepted_posted z hacc))) hx hzx
  exact hzeq ▸ hz

end Outbox.Inv

/-- The outbox before the first event. -/
structure Outbox.Starts (o : Outbox) : Prop where
  rows : o.db.push_events.rows = []
  slices : o.slices = []
  posts : o.posts = []
  accepted : o.accepted = []

theorem Outbox.Starts.inv {o : Outbox} (h : o.Starts) : o.Inv o.db.push_events.last := by
  have hknows : ∀ x, ¬ o.Knows x := by
    rintro x (hx | hx | ⟨slice, hslice, -⟩)
    · simp [Db.events, h.rows] at hx
    · simp [h.posts] at hx
    · simp [h.slices] at hslice
  exact {
    first := le_rfl
    kept := fun n hk hn => absurd hn (Nat.not_le.mpr hk)
    given := fun x hx => absurd hx (hknows x)
    unique := fun x y hx => absurd hx (hknows x)
    posted := fun x hx => absurd (.inr (.inl hx)) (hknows x)
    queued := fun slice hslice => by simp [h.slices] at hslice
    accepted_posted := fun x hx => by simp [h.accepted] at hx
    ordered := by rw [Outbox.done, h.accepted]; exact InTurn.nil }

/-- Push events are neither lost nor reordered. At every time `o` of a run, and every later time
`o'`: a commit that changes a ref while the outbox is below its cap inserts one row, with the
commands that succeeded; a row of the outbox that is gone was accepted; it was accepted before any
later row was; and a delivery id belongs to one event. -/
theorem events_in_order (env : Env) (hhook : env.webhook = true) (repo_id : String)
    {start o o' : Outbox} (hstart : start.Starts)
    (hrun : Relation.ReflTransGen (OutboxStep env) start o)
    (hrun' : Relation.ReflTransGen (OutboxStep env) o o') :
    (∀ now req, o.db.push_events.size < maxPendingEvents →
      ((commitPush env now req).run o.db).state.refs ≠ o.db.refs →
      ∃ results, ((commitPush env now req).run o.db).res = .ok results ∧
        results.map Prod.fst = req.commands.map Cmd.name ∧
        ((commitPush env now req).run o.db).state.push_events =
          o.db.push_events.insert (req.event results now)) ∧
    (∀ x ∈ o.db.events, x ∉ o'.db.events → x ∈ o'.accepted) ∧
    (∀ x ∈ o.db.events, ∀ before y after, o'.accepted = before ++ y :: after → x.seq < y.seq →
      x ∈ before) ∧
    ∀ x ∈ o'.posts, ∀ y ∈ o'.posts,
      deliveryId repo_id x.seq = deliveryId repo_id y.seq → x = y := by
  have hinv : o.Inv start.db.push_events.last := hstart.inv.steps hrun
  have hinv' : o'.Inv start.db.push_events.last := hinv.steps hrun'
  refine ⟨fun now req hcap hchanged => ?_, fun x hx hgone => ?_,
    fun x hx before y after hy hlt => ?_, fun x hx y hy hid => ?_⟩
  · rcases commitPush_outbox env now req o.db with ⟨hsame, -⟩ | ⟨results, hres, hnames, hrec⟩
    · exact absurd hsame hchanged
    · refine ⟨results, hres, hnames, ?_⟩
      rw [hrec, recorded, if_neg]
      simpa [hhook] using hcap
  · exact (hinv.kept_or_accepted hrun' x hx).resolve_left hgone
  · have hknown : o'.Knows x := (hinv.kept_or_accepted hrun' x hx).imp_right fun hacc =>
      .inl (hinv'.accepted_posted x hacc)
    exact hinv'.before_later hknown hy hlt
  · exact hinv'.unique x y (.inr (.inl hx)) (.inr (.inl hy)) (deliveryId_inj hid)

/-! ### A run -/

/-- Settings with a webhook. -/
def eventEnv : Env := { Env.default fun _ => true with webhook := true }

/-- A repository with two tags and two open pushes. -/
def eventStore : Db :=
  { Db.fresh with
    refs := ⟨[⟨"refs/tags/a", 5, none, 0⟩, ⟨"refs/tags/b", 5, none, 0⟩], by decide⟩
    pushes := ⟨[⟨7, .open, none, "p", 0, none, 0, none, none, some "refs/*", some adminAuth⟩,
      ⟨8, .open, none, "p", 0, none, 0, none, none, some "refs/*", some adminAuth⟩], by decide⟩ }

/-- The push of a tag's deletion. -/
def untag (push : PushId) (name : String) : CommitRequest :=
  ⟨push, none, "p", [⟨5, 0, name, none⟩], false⟩

/-- The outbox after the two pushes. -/
def eventsWaiting : Outbox where
  db := ((commitPush eventEnv 2 (untag 8 "refs/tags/b")).run
    ((commitPush eventEnv 1 (untag 7 "refs/tags/a")).run eventStore).state).state
  slices := []
  posts := []
  accepted := []

/-- Their events. -/
def untagged (seq : ℕ) (push : PushId) (at_ : ℤ) (name : String) : EventPost :=
  ⟨seq, ⟨push, "p", at_, [⟨name, 5, 0⟩]⟩⟩

theorem eventsWaiting_events : eventsWaiting.db.events =
    [untagged 1 7 1 "refs/tags/a", untagged 2 8 2 "refs/tags/b"] := by
  decide +kernel

/-- Two slices have posted the first event, and one of them got its answer and posted the second. -/
def eventsOverlap : Outbox where
  db := deleteEvent 1 eventsWaiting.db
  slices := [⟨2, untagged 1 7 1 "refs/tags/a", [untagged 2 8 2 "refs/tags/b"]⟩,
    ⟨2, untagged 2 8 2 "refs/tags/b", []⟩]
  posts := [untagged 1 7 1 "refs/tags/a", untagged 1 7 1 "refs/tags/a",
    untagged 2 8 2 "refs/tags/b"]
  accepted := [untagged 1 7 1 "refs/tags/a"]

/-- The slice that is behind is killed, its post is accepted, and so is the second event. -/
def eventsDrained : Outbox where
  db := deleteEvent 2 eventsOverlap.db
  slices := []
  posts := eventsOverlap.posts
  accepted := [untagged 1 7 1 "refs/tags/a", untagged 1 7 1 "refs/tags/a",
    untagged 2 8 2 "refs/tags/b"]

theorem eventsWaiting_reached :
    Relation.ReflTransGen (OutboxStep eventEnv) ⟨eventStore, [], [], []⟩ eventsWaiting :=
  .head (.commit 1 (untag 7 "refs/tags/a")) (.single (.commit 2 (untag 8 "refs/tags/b")))

theorem eventsDrained_reached :
    Relation.ReflTransGen (OutboxStep eventEnv) eventsWaiting eventsDrained := by
  -- What a slice does first, beside any others.
  have hbegins : ∀ slices posts, OutboxStep eventEnv ⟨eventsWaiting.db, slices, posts, []⟩
      ⟨eventsWaiting.db,
        slices ++ [⟨2, untagged 1 7 1 "refs/tags/a", [untagged 2 8 2 "refs/tags/b"]⟩],
        posts ++ [untagged 1 7 1 "refs/tags/a"], []⟩ := by
    intro slices posts
    have hstep : OutboxStep eventEnv ⟨eventsWaiting.db, slices, posts, []⟩ _ :=
      .begins false (.ok ())
    simpa [eventsWaiting_events, beginEvents, eventEnv, drain, Outbox.proceed,
      eventBatch] using hstep
  have haccept : OutboxStep eventEnv ⟨eventsWaiting.db, _, [_, _], []⟩ eventsOverlap :=
    .accept [⟨2, untagged 1 7 1 "refs/tags/a", [untagged 2 8 2 "refs/tags/b"]⟩] []
      ⟨2, untagged 1 7 1 "refs/tags/a", [untagged 2 8 2 "refs/tags/b"]⟩ rfl false (.ok ())
  have hkill : OutboxStep eventEnv eventsOverlap _ := .kill [] _ _ rfl
  have hlate : OutboxStep eventEnv
      { eventsOverlap with slices := [⟨2, untagged 2 8 2 "refs/tags/b", []⟩] } _ :=
    .late (untagged 1 7 1 "refs/tags/a") List.mem_cons_self
  have hlast : OutboxStep eventEnv
      { eventsOverlap with
        slices := [⟨2, untagged 2 8 2 "refs/tags/b", []⟩]
        accepted := eventsOverlap.accepted ++ [untagged 1 7 1 "refs/tags/a"] } eventsDrained :=
    .accept [] [] ⟨2, untagged 2 8 2 "refs/tags/b", []⟩ rfl false (.ok ())
  exact .head (hbegins [] []) (.head (hbegins _ _) (.head haccept (.head hkill (.head hlate
    (.single hlast)))))

/-- Both events were accepted, in their order, one of them twice. -/
theorem events_in_order_overlap :
    eventsWaiting.db.events = [untagged 1 7 1 "refs/tags/a", untagged 2 8 2 "refs/tags/b"] ∧
      eventsDrained.db.events = [] ∧
      (∀ x ∈ eventsWaiting.db.events, x ∉ eventsDrained.db.events → x ∈ eventsDrained.accepted) ∧
      ∀ x ∈ eventsDrained.posts, ∀ y ∈ eventsDrained.posts,
        deliveryId "r" x.seq = deliveryId "r" y.seq → x = y := by
  obtain ⟨-, hremoved, -, hids⟩ := events_in_order eventEnv rfl "r" ⟨rfl, rfl, rfl, rfl⟩
    eventsWaiting_reached eventsDrained_reached
  exact ⟨eventsWaiting_events, by decide +kernel, hremoved, hids⟩

end GitEdge
