import GitEdge.Pack.CommitWalk

/-!
# A visit to a commit

What the walk over the commits does with one commit, for all arguments of a fetch. Whether the
commit is sent (`FetchArgs.sends`), whether the walk goes below it and with what depth
(`FetchArgs.pushes`) depend on the entry of the queue and on the commit only, and not on what the
walk has collected.
-/

namespace GitEdge

open Sql

variable {db : Db} {loc : ObjRow} {w' : CommitWalk} {q : QueueItem}

section Rules

variable (a : FetchArgs) (acks nots : List Oid)

/-- The commit is older than the cutoff. -/
def FetchArgs.before (c : CommitData) : Bool :=
  a.deepen_since.any fun since => c.time.any fun t => t < since

/-- The walk descends below the commit, which is client-shallow. -/
def FetchArgs.descends (q : QueueItem) : Bool :=
  q.id ∈ a.client_shallow && a.shallowMode &&
    (a.deepen_relative || a.deepen = some infiniteDepth || a.deepen.all fun n => q.depth < n)

/-- The commit lies at the depth where the walk ends. -/
def FetchArgs.atDepth (q : QueueItem) : Bool :=
  q.counted && (a.deepen.any fun n => n ≠ infiniteDepth && n ≤ q.depth)

/-- The commit is marked when it is visited. -/
def FetchArgs.sends (q : QueueItem) (c : CommitData) : Bool :=
  !a.descends q && !(q.id ∈ acks || q.id ∈ a.client_shallow) && (!(q.id ∈ nots) && !a.before c)

/-- The walk does not go past the commit. -/
def FetchArgs.walled (q : QueueItem) (c : CommitData) : Bool :=
  q.id ∈ nots || a.before c || a.atDepth q || q.id ∈ a.client_shallow ||
    (q.id ∈ acks && !a.shallowMode)

/-- The entries that the visit adds to the next queue. -/
def FetchArgs.pushes (q : QueueItem) (c : CommitData) : List QueueItem :=
  if a.descends q then
    c.parents.map fun p =>
      ⟨p, if a.deepen_relative || a.deepen = some infiniteDepth then 1 else q.depth + 1, true⟩
  else if a.walled acks nots q c then []
  else (c.parents.filter fun p => a.shallowMode || p ∉ acks).map fun p =>
    ⟨p, q.depth + 1, q.counted⟩

/-- What a visit does. -/
structure Visit (db : Db) (w : CommitWalk) (q : QueueItem) (loc : ObjRow) (c : CommitData)
    (w' : CommitWalk) : Prop where
  depth : w'.depth = (q.id, q.depth) :: w.depth
  parents_of : w'.parents_of =
    if a.shallowMode then (q.id, c.parents) :: w.parents_of else w.parents_of
  visited_cs : w'.visited_cs = if a.descends q then w.visited_cs.insert q.id else w.visited_cs
  sent : w'.sent = if a.sends acks nots q c then w.sent.insert q.id else w.sent
  next : w'.next = w.next ++ a.pushes acks nots q c
  trees : ∀ t ∈ w'.trees, t ∈ w.trees ∨ t = c.tree
  set : if a.sends acks nots q c then w.set.mark db q.id loc = .ok w'.set else w'.set = w.set

end Rules

variable {objs : Objects} {a : FetchArgs} {acks nots : List Oid}

/-- A mark adds the id to those of a walk. -/
theorem SendSet.mark_ids {set set' : SendSet} {x : Oid} (hwalk : set.shas.isSome = true)
    (h : set.mark db x loc = .ok set') :
    set'.shas.isSome = true ∧ set'.ids = set.ids ++ [x] ∧ set'.shallow = set.shallow ∧
      set'.unshallow = set.unshallow := by
  obtain ⟨l, hl⟩ := Option.isSome_iff_exists.mp hwalk
  simp only [SendSet.mark, hl, Option.map_some] at h
  cases hs : markSlice db set.packs loc with
  | error e => simp [hs] at h
  | ok o =>
    cases o with
    | none =>
      simp only [hs, Option.isSome_some, if_true, Except.ok.injEq] at h
      subst h
      simp [SendSet.ids, hl]
    | some packs =>
      simp only [hs, Except.ok.injEq] at h
      subst h
      simp [SendSet.ids, hl]

namespace Visit

variable {w : CommitWalk} {c : CommitData} {x : Oid}

theorem mem_visited (h : Visit a acks nots db w q loc c w') :
    x ∈ w'.visited ↔ x ∈ w.visited ∨ q.id = x := by
  unfold CommitWalk.visited
  rw [h.depth, List.map_cons, List.mem_cons, or_comm, eq_comm]

theorem mem_parents_of (h : Visit a acks nots db w q loc c w') {p : Oid × List Oid} :
    p ∈ w'.parents_of ↔ p ∈ w.parents_of ∨ a.shallowMode = true ∧ p = (q.id, c.parents) := by
  rw [h.parents_of]
  split_ifs with hm
  · rw [List.mem_cons, or_comm]
    simp [hm]
  · simp [hm]

theorem mem_visited_cs (h : Visit a acks nots db w q loc c w') :
    x ∈ w'.visited_cs ↔ x ∈ w.visited_cs ∨ q.id = x ∧ a.descends q = true := by
  rw [h.visited_cs]
  split_ifs with hd
  · rw [List.mem_insert_iff, or_comm, eq_comm]
    simp [hd]
  · simp [hd]

theorem mem_sent (h : Visit a acks nots db w q loc c w') :
    x ∈ w'.sent ↔ x ∈ w.sent ∨ q.id = x ∧ a.sends acks nots q c = true := by
  rw [h.sent]
  split_ifs with hs
  · rw [List.mem_insert_iff, or_comm, eq_comm]
    simp [hs]
  · simp [hs]

theorem marks (h : Visit a acks nots db w q loc c w') (hwalk : w.set.shas.isSome = true) :
    (w'.set.shas.isSome = true ∧ w'.set.shallow = w.set.shallow ∧
      w'.set.unshallow = w.set.unshallow) ∧
      ∀ x, x ∈ w'.set.ids ↔ x ∈ w.set.ids ∨ q.id = x ∧ a.sends acks nots q c = true := by
  have hset := h.set
  split_ifs at hset with hs
  · obtain ⟨hwalk', hids, hsh, hun⟩ := SendSet.mark_ids hwalk hset
    refine ⟨⟨hwalk', hsh, hun⟩, fun x => ?_⟩
    rw [hids, List.mem_append, List.mem_singleton, eq_comm]
    simp [hs]
  · rw [hset]
    exact ⟨⟨hwalk, rfl, rfl⟩, by simp [hs]⟩

end Visit

/-- What follows the mark touches the trees and the queue only. -/
theorem visit_tail {v : CommitWalk} {c : CommitData} (hdesc : ¬ a.descends q = true)
    (h : (if a.walled acks nots q c = true then
        pure (if q.id ∈ v.sent then { v with trees := v.trees ++ [c.tree] } else v)
      else pure { (if q.id ∈ v.sent then { v with trees := v.trees ++ [c.tree] } else v) with
        next := (if q.id ∈ v.sent then { v with trees := v.trees ++ [c.tree] } else v).next ++
          (c.parents.partition fun p => a.shallowMode || p ∉ acks).1.map fun p =>
            ⟨p, q.depth + 1, q.counted⟩
        edge := (if q.id ∈ v.sent then { v with trees := v.trees ++ [c.tree] } else v).edge ++
          (c.parents.partition fun p => a.shallowMode || p ∉ acks).2 } :
        Except Error CommitWalk) = .ok w') :
    w'.depth = v.depth ∧ w'.parents_of = v.parents_of ∧ w'.visited_cs = v.visited_cs ∧
      w'.sent = v.sent ∧ w'.set = v.set ∧ (∀ t ∈ w'.trees, t ∈ v.trees ∨ t = c.tree) ∧
      w'.next = v.next ++ a.pushes acks nots q c := by
  have htrees : ∀ t ∈ (if q.id ∈ v.sent then { v with trees := v.trees ++ [c.tree] } else v).trees,
      t ∈ v.trees ∨ t = c.tree := by
    intro t ht
    split_ifs at ht
    · simpa using ht
    · exact .inl ht
  unfold FetchArgs.pushes
  rw [if_neg hdesc]
  by_cases hwall : a.walled acks nots q c = true
  · rw [if_pos hwall] at h ⊢
    cases h
    refine ⟨?_, ?_, ?_, ?_, ?_, htrees, ?_⟩ <;> split_ifs <;> simp
  · rw [if_neg hwall] at h ⊢
    cases h
    refine ⟨?_, ?_, ?_, ?_, ?_, htrees, ?_⟩ <;> split_ifs <;>
      simp [List.partition_eq_filter_filter]

/-- A commit that is visited. -/
theorem visitCommit_visit {w : CommitWalk} (h : visitCommit objs db a acks nots w q loc = .ok w') :
    ∃ c, objs.commit q.id = some c ∧ Visit a acks nots db w q loc c w' := by
  unfold visitCommit at h
  cases hc : objs.commit q.id with
  | none => simp [hc] at h
  | some c =>
    refine ⟨c, rfl, ?_⟩
    simp only [hc] at h
    by_cases hdesc : a.descends q = true
    · have hdesc' := hdesc
      unfold FetchArgs.descends at hdesc'
      rw [if_pos hdesc'] at h
      cases h
      refine ⟨rfl, rfl, by simp [hdesc], ?_, ?_, fun t ht => .inl ht, ?_⟩
      · simp [FetchArgs.sends, hdesc]
      · simp only [FetchArgs.pushes, hdesc, if_true]
      · simp [FetchArgs.sends, hdesc]
    · have hdesc' := hdesc
      unfold FetchArgs.descends at hdesc'
      rw [if_neg hdesc'] at h
      have hcs : w.visited_cs = if a.descends q then w.visited_cs.insert q.id else
          w.visited_cs := by
        simp [hdesc]
      by_cases hheld : (decide (q.id ∈ acks) || decide (q.id ∈ a.client_shallow)) = true
      · have hnot : a.sends acks nots q c = false := by simp [FetchArgs.sends, hheld]
        rw [if_pos hheld] at h
        obtain ⟨h₁, h₂, h₃, h₄, h₅, h₆, h₇⟩ := visit_tail hdesc h
        exact ⟨h₁, h₂, h₃.trans hcs, by rw [h₄, hnot]; rfl, h₇, h₆, by rw [hnot]; exact h₅⟩
      · rw [if_neg hheld] at h
        by_cases hnew : (!decide (q.id ∈ nots) && !a.before c) = true
        · have hsends : a.sends acks nots q c = true := by
            unfold FetchArgs.sends
            rw [hnew, Bool.and_true]
            simpa [hdesc] using hheld
          have hnew' := hnew
          unfold FetchArgs.before at hnew'
          rw [if_pos hnew'] at h
          obtain ⟨set, hset, h⟩ := FoldM.bind_eq_ok.mp h
          obtain ⟨h₁, h₂, h₃, h₄, h₅, h₆, h₇⟩ := visit_tail hdesc h
          refine ⟨h₁, h₂, h₃.trans hcs, by rw [h₄, hsends]; rfl, h₇, h₆, ?_⟩
          rw [hsends, h₅]
          exact hset
        · have hnot : a.sends acks nots q c = false := by
            unfold FetchArgs.sends
            rw [Bool.not_eq_true] at hnew
            rw [hnew, Bool.and_false]
          have hnew' := hnew
          unfold FetchArgs.before at hnew'
          rw [if_neg hnew'] at h
          obtain ⟨h₁, h₂, h₃, h₄, h₅, h₆, h₇⟩ := visit_tail hdesc h
          exact ⟨h₁, h₂, h₃.trans hcs, by rw [h₄, hnot]; rfl, h₇, h₆, by rw [hnot]; exact h₅⟩

end GitEdge
