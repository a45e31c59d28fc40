import GitEdge.Repo.Effect
import GitEdge.Repo.Statements

/-!
# Import jobs

An import job is queued by `import_start` with the commands of the request, and keeps them until its
commit; only the fetch of an import by url writes its payload again. `SameImports` says so of a
step, and the commits are such steps.
-/

namespace GitEdge

open Sql

/-- The import jobs are those from before, and a staged one has the commands that it had; the fetch
of an import by url puts the commands of the remote into the payload. -/
structure SameImports (s t : Db) : Prop where
  jobs : ∀ j' ∈ t.jobs, ∀ p', j'.payload = .import p' → ∃ j ∈ s.jobs, ∃ p, j.id = j'.id ∧
    j.payload = .import p ∧ p.url = p'.url ∧ (p.url = none → p.commands = p'.commands)
  seq : s.job_seq ≤ t.job_seq

theorem SameImports.same {s t : Db} (hjobs : t.jobs = s.jobs) (hseq : t.job_seq = s.job_seq) :
    SameImports s t :=
  ⟨fun j hj p hp => ⟨j, hjobs ▸ hj, p, rfl, hp, rfl, fun _ => rfl⟩, hseq.ge⟩

theorem SameImports.trans {a b c : Db} (h : SameImports a b) (h' : SameImports b c) :
    SameImports a c := by
  refine ⟨fun j hj p hp => ?_, h.seq.trans h'.seq⟩
  obtain ⟨j', hj', p', hid', hp', hurl', hcmd'⟩ := h'.jobs j hj p hp
  obtain ⟨q, hq, p'', hid, hp'', hurl, hcmd⟩ := h.jobs j' hj' p' hp'
  exact ⟨q, hq, p'', hid.trans hid', hp'', hurl.trans hurl',
    fun hn => (hcmd hn).trans (hcmd' (hurl ▸ hn))⟩

/-- An update of job rows that leaves the payloads alone. -/
theorem SameImports.update {s t : Db} {cond : Job → Bool} {f : Job → Job}
    (hkey : ∀ j, (f j).id = j.id) (hjobs : t.jobs = s.jobs.updateWhere cond f hkey)
    (hf : ∀ j, (f j).payload = j.payload) (hseq : t.job_seq = s.job_seq) : SameImports s t := by
  refine ⟨fun j' hj' p hp => ?_, hseq.ge⟩
  rw [hjobs] at hj'
  obtain ⟨j, hj, rfl⟩ := Table.mem_updateWhere.mp hj'
  refine ⟨j, hj, p, ?_, ?_, rfl, fun _ => rfl⟩
  · split_ifs
    · exact (hkey j).symm
    · rfl
  · split_ifs at hp
    · rw [← hf j]
      exact hp
    · exact hp

theorem sameImports_enqueue (kind : JobKind) (run_at : ℤ) (s : Db) :
    SameImports s (enqueue kind run_at .none s) := by
  unfold enqueue
  split_ifs
  · exact .same rfl rfl
  · refine ⟨fun j hj p hp => ?_, Nat.le_succ _⟩
    rcases Table.mem_insertIgnore.mp hj with hj | ⟨rfl, -⟩
    · exact ⟨j, hj, p, rfl, hp, rfl, fun _ => rfl⟩
    · cases hp

/-- No statement of a commit does more. -/
theorem commitKeeps_sameImports (a : Db) (req : CommitRequest) :
    CommitKeeps req (SameImports a) where
  enqueue kind run_at s hs := hs.trans (sameImports_enqueue kind run_at s)
  pull _ _ hs := hs.trans (.update (by exact fun _ => rfl) rfl (fun _ => rfl) rfl)
  finish _ _ _ _ hs := hs.trans (.same rfl rfl)
  version _ hs := hs.trans (.same rfl rfl)
  pending pack s _ hs := by
    refine hs.trans ?_
    unfold addPending
    split_ifs <;> exact .same rfl rfl
  promote _ _ _ hs := hs.trans (.same rfl rfl)
  demote _ _ _ hs := hs.trans (.same rfl rfl)
  drop _ _ _ hs := hs.trans (.same rfl rfl)
  feed _ _ hs := hs.trans (.same rfl rfl)
  write _ _ _ hs := hs.trans (.same rfl rfl)
  log _ _ _ _ hs := hs.trans (.same rfl rfl)
  head _ _ hs := hs.trans (.same rfl rfl)
  event _ _ hs := hs.trans (.same rfl rfl)
  dropped _ hs := hs.trans (.same rfl rfl)

/-- A commit queues no import, and leaves those that are queued alone. -/
theorem sameImports_commitPush (env : Env) (now : ℤ) (req : CommitRequest) (s : Db) :
    SameImports s ((commitPush env now req).run s).state :=
  ((commitKeeps_sameImports s req).commitPush env now).state (.same rfl rfl)

theorem sameImports_commitMeta (env : Env) (now : ℤ) (id : ℕ) (lease : Lease) (p : ImportPayload)
    (c : ImportCursor) (m : PackMeta) (s : Db) :
    SameImports s ((commitMeta env now id lease p c m).run s).state := by
  have htouch : SameImports s (touchLease id lease now s) :=
    .update (by exact fun _ => rfl) rfl (fun _ => rfl) rfl
  have hprep : SameImports s (prepared now id lease p m s) := htouch.trans (.same rfl rfl)
  rcases commitMeta_cases env now id lease p c m s with ⟨-, ht⟩ |
    ⟨-, links, toc, parts, opens, tail, ht⟩
  · rcases ht with ht | ht <;> rw [ht]
    · exact .same rfl rfl
    · exact htouch
  · rw [ht]
    exact (hprep.trans (sameImports_commitPush env now p.request _)).trans (.same rfl rfl)

end GitEdge
