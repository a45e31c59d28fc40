import Mathlib.Data.List.Sort
import GitEdge.Jobs.Queue

/-!
# The cohort of a compaction

The selector of `jobs/compact.rs`: packs are sorted into tiers by their number of objects, the tier
with the most eligible packs wins, and the cohort is its oldest packs up to the limits. `trigger`
queues a compaction when there is a cohort, now or once the packs are old enough.
-/

namespace GitEdge

open Sql

/-- `BASE_N`, the first bound of the ladder of tiers. -/
def baseN : ℕ := 8

/-- `LADDER`, the ratio of the bounds. -/
def ladder : ℕ := 16

/-- `TIERS`. -/
def tiers : ℕ := 5

/-- `MAX_BYTES`: a pack of this size is left to the garbage collection. -/
def maxPackBytes : ℕ := 64 * 2^20

/-- `COHORT_BYTES`. -/
def cohortBytes : ℕ := 256 * 2^20

/-- The knobs of a compaction. -/
structure Knobs where
  fanin : ℤ
  min_age_ms : ℤ
  max_rows : ℤ

/-- `knobs`: the fan-in is at least two. -/
def knobs (env : Env) : Knobs where
  fanin := max env.compact_fanin 2
  min_age_ms := env.compact_min_age_ms
  max_rows := env.compact_max_rows

/-- The loop of `tier`, from the tier `t` with the bound `b`, over the tiers left. -/
def tierFrom (count : ℕ) : ℕ → ℕ → ℕ → ℕ
  | 0, t, _ => t
  | n + 1, t, b => if b ≤ count then tierFrom count n (t + 1) (b * ladder) else t

/-- `tier`: the rung of the ladder for a number of objects. -/
def tier (count : ℕ) : ℕ := tierFrom count (tiers - 1) 0 baseN

/-- The part of `eligible` that does not depend on the age. -/
def admissible (quarantined : List PackId) (k : Knobs) (p : PackRow) : Bool :=
  1 ≤ p.count && (p.count : ℤ) ≤ k.max_rows.tdiv 2 && p.bytes < maxPackBytes &&
    !quarantined.contains p.id

/-- `eligible`. -/
def eligible (quarantined : List PackId) (cutoff : ℤ) (k : Knobs) (p : PackRow) : Bool :=
  admissible quarantined k p && p.created_at ≤ cutoff

/-- The fan-in as `select_cohort` and `next_wake` use it. -/
def Knobs.threshold (k : Knobs) : ℕ := max k.fanin.toNat 2

/-- The loop over the tiers in `select_cohort`: the first tier with the most packs, of those that
have at least `t`. -/
def bestTier (t : ℕ) : List (List PackRow) → Option (List PackRow) → Option (List PackRow)
  | [], best => best
  | l :: ls, best =>
    if t ≤ l.length && best.all (fun b => b.length < l.length) then bestTier t ls (some l)
    else bestTier t ls best

/-- The greedy loop of `select_cohort`, with the packs, the rows and the bytes taken so far. -/
def takeCohort (t : ℕ) (k : Knobs) : List PackRow → List PackRow → ℕ → ℕ → List PackRow
  | [], out, _, _ => out
  | p :: ps, out, rows, bytes =>
    if 2 * t ≤ out.length || k.max_rows < ((rows + p.count : ℕ) : ℤ) ||
        cohortBytes < bytes + p.bytes then out
    else takeCohort t k ps (out ++ [p]) (rows + p.count) (bytes + p.bytes)

/-- The order of a cohort: the oldest first, and by id within one age. -/
def olderPack (p q : PackRow) : Prop :=
  p.created_at < q.created_at ∨ (p.created_at = q.created_at ∧ p.id ≤ q.id)

instance : DecidableRel olderPack := fun p q => by unfold olderPack; infer_instance

/-- `select_cohort`. -/
def selectCohort (packs : List PackRow) (quarantined : List PackId) (now : ℤ) (k : Knobs) :
    Option (List PackRow) :=
  let cutoff := now - k.min_age_ms
  let perTier := (List.range tiers).map fun i =>
    packs.filter fun p => eligible quarantined cutoff k p && tier p.count = i
  match bestTier k.threshold perTier none with
  | none => none
  | some cohort =>
    let out := takeCohort k.threshold k (cohort.insertionSort olderPack) [] 0 0
    if 2 ≤ out.length then some out else none

/-- `next_wake`: the earliest time at which a tier has enough packs that are old enough. -/
def nextWake (packs : List PackRow) (quarantined : List PackId) (k : Knobs) : Option ℤ :=
  let times := (List.range tiers).filterMap fun i =>
    (((packs.filter fun p => admissible quarantined k p && tier p.count = i).map
      fun p => p.created_at + k.min_age_ms).insertionSort (· ≤ ·))[k.threshold - 1]?
  times.min?

/-- `live_packs`. -/
def Db.livePacks (db : Db) : List PackRow := db.packs.select fun p => p.state = .live

/-- `quarantine_ids`: the packs with two strikes. -/
def Db.quarantined (db : Db) : List PackId :=
  (db.quarantine.filter fun q => 2 ≤ q.2).map (·.1)

/-- The second statement of `trigger`: a row that never ran is pulled forward. -/
def pullForward (t : ℤ) (db : Db) : Db :=
  { db with
    jobs := db.jobs.updateWhere
      (fun j => j.kind = .gcCompact && j.state = .queued && j.attempts = 0 &&
        j.last_error.isNone && j.started_at.isNone)
      (fun j => { j with run_at := min j.run_at t }) fun _ => rfl }

/-- `trigger`: a compaction is queued for now if there is a cohort, and otherwise for the time at
which there will be one. -/
def trigger (env : Env) (now : ℤ) : Span Db Error Unit := do
  let db ← Span.read
  let packs := db.livePacks
  let run_at :=
    if (selectCohort packs db.quarantined now (knobs env)).isSome then some now
    else nextWake packs db.quarantined (knobs env)
  match run_at with
  | none => pure ()
  | some t => do
    Span.exec (enqueue .gcCompact t .none)
    Span.exec (pullForward t)

end GitEdge
