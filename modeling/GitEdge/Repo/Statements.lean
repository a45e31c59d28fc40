import GitEdge.Repo.Commit

/-!
# The statements of a commit

`commit_push` is made of a few kinds of statements. `CommitKeeps` is what an invariant has to
survive, one field for each kind, and `keeps_commitPush_of` is the rule that the whole commit then
keeps it, at each of its statements.
-/

namespace GitEdge

open Sql

/-- An invariant that no statement of this commit breaks. -/
structure CommitKeeps (req : CommitRequest) (I : Db → Prop) : Prop where
  enqueue : ∀ kind run_at s, I s → I (enqueue kind run_at .none s)
  pull : ∀ t s, I s → I (pullForward t s)
  finish : ∀ st now rs s, I s → I (finishRow req st now rs s)
  version : ∀ s, I s → I (bumpRefsVersion s)
  pending : ∀ pack s, req.pack_id = some pack → I s → I (addPending pack s)
  promote : ∀ pack s, req.pack_id = some pack → I s → I (promote req.push_id pack s)
  demote : ∀ pack s, req.pack_id = some pack → I s → I (demote req.push_id pack s)
  drop : ∀ pack s, req.pack_id = some pack → I s → I (dropPending pack s)
  feed : ∀ l s, I s → I (barrierFeedLanding l s)
  write : ∀ now c s, I s → I { s with refs := Cmd.write now c s.refs }
  log : ∀ who now c s, I s → I (logRef req.push_id who now c s)
  head : ∀ name s, I s → I { s with head := name }
  event : ∀ row s, I s → I { s with push_events := s.push_events.insert row }
  dropped : ∀ s, I s → I { s with push_events_dropped := s.push_events_dropped + 1 }

namespace CommitKeeps

variable {req : CommitRequest} {I : Db → Prop} (h : CommitKeeps req I) (env : Env) (now : ℤ)
include h

theorem trigger : Span.Keeps I (trigger env now) := by
  refine .bind .read fun db => ?_
  dsimp only
  split
  · exact .pure ()
  · exact .bind (.exec (h.enqueue _ _)) fun _ => .exec (h.pull _)

theorem applyOne (head : String) (c : Cmd) (who : String) (write barrier : Bool)
    (scopes : List (Option String)) :
    Span.Keeps I (applyOne env head c req.push_id who now write barrier scopes) := by
  refine .bind .read fun db => ?_
  repeat' first
    | exact .pure _
    | exact .fail _
    | exact .exec (h.feed _)
    | exact .exec h.version
    | exact .exec (h.write now c)
    | exact .exec (h.log who now c)
    | refine .bind ?_ fun _ => ?_
    | split

/-- The loops over the commands. -/
theorem applyAll (head : String) (who : String) (write barrier : Bool)
    (scopes : List (Option String)) (cs : List Cmd) :
    Span.Keeps I (applyAll env head req.push_id who now write barrier scopes cs) := by
  induction cs with
  | nil => exact .pure _
  | cons c cs ih =>
    exact .bind (h.applyOne env now head c who write barrier scopes) fun _ =>
      .bind ih fun _ => .pure _

omit env in
theorem finishPush (st : PushState) (rs : List RefResult) :
    Span.Keeps I (finishPush req st now rs) :=
  .bind (.exec (h.finish st now rs)) fun _ => .pure _

omit env now in
theorem adoptHead (s : Db) (hs : I s) : I (adoptHead s) := by
  unfold GitEdge.adoptHead
  split_ifs
  · exact hs
  · split
    · exact hs
    · exact h.head _ s hs

theorem recordPushEvent (results : List RefResult) :
    Span.Keeps I (recordPushEvent env req results now) := by
  refine .bind .read fun db => ?_
  split
  · exact .pure ()
  · split
    · exact .exec h.dropped
    · exact .bind (.exec (h.event _)) fun _ => .exec (h.enqueue _ _)

theorem commitRefs (barrier : Bool) (head : String) (scopes : List (Option String)) :
    Span.Keeps I (commitRefs env req now barrier head scopes) := by
  refine .bind (h.applyAll env now head _ true barrier scopes _) fun results => ?_
  dsimp only
  repeat' first
    | exact h.finishPush now _ _
    | exact .exec h.version
    | exact .exec h.adoptHead
    | exact .exec (h.enqueue _ _)
    | exact h.recordPushEvent env now _
    | refine .bind ?_ fun _ => ?_
    | split

omit env in
theorem rejectAtomic (barrier : Bool) (results : List RefResult) :
    Span.Keeps I (rejectAtomic req now barrier results) := by
  unfold GitEdge.rejectAtomic
  cases hpack : req.pack_id with
  | none => exact h.finishPush now _ _
  | some pack =>
    refine .bind (.exec fun s => h.demote pack s hpack) fun _ => ?_
    split
    · exact .bind (.exec fun s => h.drop pack s hpack) fun _ => h.finishPush now _ _
    · exact h.finishPush now _ _

theorem promotePack (barrier : Bool) {pack : PackId} (hpack : req.pack_id = some pack) :
    Span.Keeps I (promotePack env req now barrier pack) := by
  refine .bind .read fun db => ?_
  dsimp only
  split
  · exact .bind (h.finishPush now _ _) fun _ => .fail _
  · have hrest : Span.Keeps I (do
        let db ← (Span.read : Span Db Error Db)
        let changes := db.packs.countWhere (promotable req.push_id pack)
        Span.exec (GitEdge.promote req.push_id pack)
        if changes ≠ 1 then Span.fail (.conflict "pack not in state ingesting")
        else Span.attempt (GitEdge.trigger env now)) := by
      refine .bind .read fun db => .bind (.exec fun s => h.promote pack s hpack) fun _ => ?_
      split
      · exact .fail _
      · exact .attempt (h.trigger env now)
    split
    · exact .bind (.bind (.exec fun s => h.pending pack s hpack) fun _ => .exec h.version)
        fun _ => hrest
    · exact hrest

theorem commitCommands (barrier : Bool) (scopes : List (Option String)) :
    Span.Keeps I (commitCommands env req now barrier scopes) := by
  refine .bind .read fun db => ?_
  dsimp only
  split
  · refine .bind (h.applyAll env now _ _ false barrier scopes _) fun results => ?_
    split
    · exact h.rejectAtomic now barrier results
    · exact h.commitRefs env now barrier _ scopes
  · exact h.commitRefs env now barrier _ scopes

/-- What no statement breaks, the commit keeps. -/
theorem commitPush : Span.Keeps I (commitPush env now req) := by
  refine .bind .read fun db => ?_
  split
  · exact .fail _
  · split
    · exact .fail _
    · split
      · exact h.finishPush now _ _
      · split
        · exact h.finishPush now _ _
        · dsimp only
          cases hpack : req.pack_id with
          | none => exact h.commitCommands env now _ _
          | some pack =>
            exact .bind (h.promotePack env now _ hpack) fun _ => h.commitCommands env now _ _

end CommitKeeps

end GitEdge
