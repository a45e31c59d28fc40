import GitEdge.Pack.TagWalk

/-!
# The walk over the commits

The third loop of `send_set`, for a fetch with no shallow arguments. The walk stops at the haves
that the server holds: a have that is visited lends its tree as a base, and a have that is the
parent of a visited commit is not visited at all. At the end every commit that was met is visited,
each of them is marked unless the client has it, and its tree is among those to expand
(`walkCommits_inv`).
-/

namespace GitEdge

open Sql Process

variable {q : QueueItem} {w : CommitWalk} {loc : ObjRow} {rest : List Oid}

section

variable (objs : Objects) (pick : Pick) (db : Db) (a : FetchArgs)

/-- A commit that the walk sends. -/
def SentCommit (c : Oid) : Prop :=
  objs.kind c = .commit ∧ (c ∈ a.wants ∨
    c ∉ a.acks pick db ∧ Reach.From (WalkLink objs pick db a) (· ∈ a.wants) c)

/-- The commits visited so far. -/
def CommitWalk.visited (w : CommitWalk) : List Oid := w.depth.map (·.1)

/-- The commit was visited, or is to be visited in this round or in the next one. -/
def CommitWalk.Met (w : CommitWalk) (rest : List Oid) (x : Oid) : Prop :=
  x ∈ w.visited ∨ x ∈ rest ∨ x ∈ w.next.map (·.id)

/-- What holds of the walk: `w₀` is what the first loops left, `rest` what is left of the round. -/
structure CommitInv (w₀ : WantWalk) (rest : List Oid) (w : CommitWalk) : Prop where
  faithful : Faithful db w.set
  ids : w₀.set.ids ⊆ w.set.ids
  ids_tag : ∀ x ∈ w.set.ids, objs.kind x = .tag → x ∈ a.wants
  want_sent : w₀.sent ⊆ w.sent
  sent : ∀ x ∈ w.sent, SentCommit objs pick db a x
  want_trees : w₀.trees ⊆ w.trees
  trees : ∀ t ∈ w.trees, objs.kind t = .tree
  starts : ∀ x ∈ w₀.commits, w.Met rest x
  met : ∀ x, w.Met rest x →
    objs.kind x = .commit ∧ Reach.From (WalkLink objs pick db a) (· ∈ a.wants) x
  visited : ∀ x ∈ w.visited, x ∉ a.acks pick db → x ∈ w.set.ids ∧ x ∈ w.sent ∧
    ∀ y, objs.Link x y →
      objs.kind y = .tree ∧ y ∈ w.trees ∨ y ∈ a.acks pick db ∨ w.Met rest y
  bases : ∀ b ∈ w.bases, objs.kind b = .tree ∧ Had objs pick db a b
  edge : ∀ e ∈ w.edge, objs.kind e = .commit ∧ e ∈ a.acks pick db

end

section

variable {objs : Objects} {pick : Pick} {db : Db} {a : FetchArgs} {w₀ : WantWalk}

theorem link_commit {c x : Oid} (hk : objs.kind c = .commit) :
    objs.Link c x ↔ ∃ d, objs.commit c = some d ∧ (x = d.tree ∨ x ∈ d.parents) := by
  unfold Objects.Link Objects.links
  rw [hk]
  cases objs.commit c <;> simp

theorem typed_commit (htyped : db.WellTyped objs) {c : Oid} {d : CommitData} (hl : db.Live c)
    (hk : objs.kind c = .commit) (hd : objs.commit c = some d) :
    objs.kind d.tree = .tree ∧ ∀ p ∈ d.parents, objs.kind p = .commit := by
  have := htyped c hl
  unfold Objects.TypedAt at this
  rw [hk] at this
  exact this d hd

theorem mem_firstOfEach {l : List QueueItem} (h : q ∈ firstOfEach l) : q ∈ l := by
  induction l with
  | nil => exact h
  | cons p ps ih =>
    rcases List.mem_cons.mp h with rfl | h
    · simp
    · exact List.mem_cons_of_mem _ (ih (List.mem_filter.mp h).1)

/-- An id of the queue has a first entry. -/
theorem exists_firstOfEach {l : List QueueItem} (h : q ∈ l) :
    q.id ∈ (firstOfEach l).map (·.id) := by
  induction l with
  | nil => cases h
  | cons p ps ih =>
    by_cases hid : q.id = p.id
    · simp [firstOfEach, hid]
    · have hq : q ∈ ps := by
        rcases List.mem_cons.mp h with rfl | h
        · exact absurd rfl hid
        · exact h
      obtain ⟨r, hr, hrid⟩ := List.mem_map.mp (ih hq)
      refine List.mem_map.mpr ⟨r, List.mem_cons_of_mem _ (List.mem_filter.mpr ⟨hr, ?_⟩), hrid⟩
      simpa [hrid] using hid

/-- What the arguments say when there is no shallow mode. -/
theorem FetchArgs.of_not_shallow (h : a.shallowMode = false) :
    a.deepen = none ∧ a.deepen_since = none ∧ a.deepen_not = [] := by
  unfold FetchArgs.shallowMode at h
  simp only [Bool.or_eq_false_iff, Option.isSome_eq_false_iff, Option.isNone_iff_eq_none,
    Bool.not_eq_false', List.isEmpty_iff] at h
  exact ⟨h.1.1, h.1.2, h.2⟩

/-- One commit, with no shallow arguments: a have lends its tree, any other commit is marked, and
its parents are visited but for the haves. -/
theorem visitCommit_eq (hns : a.shallowMode = false) (hcs : a.client_shallow = [])
    {acks : List Oid} :
    visitCommit objs db a acks [] w q loc =
      match objs.commit q.id with
      | none => .error (.storage "commit")
      | some c =>
        if q.id ∈ acks then
          .ok { w with
            depth := (q.id, q.depth) :: w.depth
            bases := w.bases ++ [c.tree]
            trees := if q.id ∈ w.sent then w.trees ++ [c.tree] else w.trees }
        else
          (w.set.mark db q.id loc).map fun set => { w with
            set := set
            depth := (q.id, q.depth) :: w.depth
            sent := w.sent.insert q.id
            trees := w.trees ++ [c.tree]
            next := w.next ++ (c.parents.filter fun p => p ∉ acks).map fun p =>
              ⟨p, q.depth + 1, q.counted⟩
            edge := w.edge ++ c.parents.filter fun p => p ∈ acks } := by
  obtain ⟨hdeep, hsince, -⟩ := FetchArgs.of_not_shallow hns
  unfold visitCommit
  cases hc : objs.commit q.id with
  | none => rfl
  | some c =>
    by_cases hack : q.id ∈ acks
    · by_cases hsent : q.id ∈ w.sent <;>
        simp [hack, hsent, hns, hcs, hdeep, hsince, pure, Except.pure, bind, Except.bind]
    · simp [hack, hns, hcs, hdeep, hsince, bind, Except.bind, pure, Except.pure,
        List.partition_eq_filter_filter, Function.comp_def, Except.map]

/-- A visited commit that the client has. -/
theorem CommitInv.visit_ack (htyped : db.WellTyped objs) {c : CommitData}
    (h : CommitInv objs pick db a w₀ (q.id :: rest) w) (hlive : db.Live q.id)
    (hc : objs.commit q.id = some c) (hack : q.id ∈ a.acks pick db) :
    CommitInv objs pick db a w₀ rest { w with
      depth := (q.id, q.depth) :: w.depth
      bases := w.bases ++ [c.tree]
      trees := if q.id ∈ w.sent then w.trees ++ [c.tree] else w.trees } := by
  obtain ⟨hkind, -⟩ := h.met q.id (.inr (.inl (by simp)))
  obtain ⟨htree, -⟩ := typed_commit htyped hlive hkind hc
  have hhad : Had objs pick db a c.tree :=
    (Reach.From.start hack).tail ((link_commit hkind).mpr ⟨c, hc, .inl rfl⟩)
  have hsub : w.trees ⊆ if q.id ∈ w.sent then w.trees ++ [c.tree] else w.trees := by
    split_ifs <;> simp
  have hmet : ∀ x, w.Met (q.id :: rest) x ↔ CommitWalk.Met { w with
      depth := (q.id, q.depth) :: w.depth
      bases := w.bases ++ [c.tree]
      trees := if q.id ∈ w.sent then w.trees ++ [c.tree] else w.trees } rest x := by
    intro x
    simp only [CommitWalk.Met, CommitWalk.visited, List.map_cons, List.mem_cons]
    tauto
  refine { h with
    want_trees := fun x hx => hsub (h.want_trees hx), trees := ?_, starts := ?_, met := ?_,
      visited := ?_
    bases := ?_ }
  · intro t ht
    dsimp only at ht
    split_ifs at ht
    · rcases List.mem_append.mp ht with ht | ht
      · exact h.trees t ht
      · rw [List.mem_singleton.mp ht]
        exact htree
    · exact h.trees t ht
  · exact fun x hx => (hmet x).mp (h.starts x hx)
  · exact fun x hx => h.met x ((hmet x).mpr hx)
  · intro x hx hxa
    have hx : x ∈ w.visited := by
      rcases List.mem_cons.mp hx with rfl | hx
      · exact absurd hack hxa
      · exact hx
    obtain ⟨h₁, h₂, h₃⟩ := h.visited x hx hxa
    refine ⟨h₁, h₂, fun y hy => ?_⟩
    rcases h₃ y hy with hy | hy | hy
    · exact .inl ⟨hy.1, hsub hy.2⟩
    · exact .inr (.inl hy)
    · exact .inr (.inr ((hmet y).mp hy))
  · intro b hb
    rcases List.mem_append.mp hb with hb | hb
    · exact h.bases b hb
    · rw [List.mem_singleton.mp hb]
      exact ⟨htree, hhad⟩

/-- A visited commit that the client does not have. -/
theorem CommitInv.visit_new (htyped : db.WellTyped objs) {c : CommitData} {set : SendSet}
    (h : CommitInv objs pick db a w₀ (q.id :: rest) w) (hrow : pick.row db q.id = some loc)
    (hc : objs.commit q.id = some c) (hack : q.id ∉ a.acks pick db)
    (hset : w.set.mark db q.id loc = .ok set) :
    CommitInv objs pick db a w₀ rest { w with
      set := set
      depth := (q.id, q.depth) :: w.depth
      sent := w.sent.insert q.id
      trees := w.trees ++ [c.tree]
      next := w.next ++ (c.parents.filter fun p => p ∉ a.acks pick db).map fun p =>
        ⟨p, q.depth + 1, q.counted⟩
      edge := w.edge ++ c.parents.filter fun p => p ∈ a.acks pick db } := by
  obtain ⟨hkind, hreach⟩ := h.met q.id (.inr (.inl (by simp)))
  obtain ⟨htree, hparents⟩ := typed_commit htyped (Choice.live hrow) hkind hc
  have hlink : ∀ y, objs.Link q.id y ↔ y = c.tree ∨ y ∈ c.parents := by
    intro y
    rw [link_commit hkind, hc]
    simp
  obtain ⟨hf, hids⟩ := h.faithful.mark hrow hset
  have hsub : w.set.ids ⊆ set.ids := by
    rw [hids]
    exact List.subset_append_left _ _
  generalize hw' : ({ w with
      set := set
      depth := (q.id, q.depth) :: w.depth
      sent := w.sent.insert q.id
      trees := w.trees ++ [c.tree]
      next := w.next ++ (c.parents.filter fun p => p ∉ a.acks pick db).map fun p =>
        (⟨p, q.depth + 1, q.counted⟩ : QueueItem)
      edge := w.edge ++ c.parents.filter fun p => p ∈ a.acks pick db } : CommitWalk) = w'
  -- The parents that the client does not have are met, and nothing else is.
  have hmet : ∀ x, w'.Met rest x ↔
      w.Met (q.id :: rest) x ∨ x ∈ c.parents ∧ x ∉ a.acks pick db := by
    intro x
    subst hw'
    simp only [CommitWalk.Met, CommitWalk.visited, List.map_cons, List.mem_cons, List.map_append,
      List.map_map, Function.comp_def, List.mem_append, List.map_id', List.mem_filter,
      decide_eq_true_eq]
    tauto
  have hsent : ∀ x, x ∈ w'.sent ↔ x = q.id ∨ x ∈ w.sent := by
    intro x
    subst hw'
    exact List.mem_insert_iff
  have htrees : ∀ x, x ∈ w'.trees ↔ x ∈ w.trees ∨ x = c.tree := by
    intro x
    subst hw'
    simp
  have hset' : w'.set = set := by
    subst hw'
    rfl
  refine
    { faithful := hset' ▸ hf, ids := ?_, ids_tag := ?_, want_sent := ?_, sent := ?_
      want_trees := ?_, trees := ?_, starts := ?_, met := ?_, visited := ?_, bases := ?_
      edge := ?_ }
  · rw [hset']
    exact fun x hx => hsub (h.ids hx)
  · intro x hx hk
    rw [hset', hids] at hx
    rcases List.mem_append.mp hx with hx | hx
    · exact h.ids_tag x hx hk
    · rw [List.mem_singleton.mp hx, hkind] at hk
      cases hk
  · exact fun x hx => (hsent x).mpr (.inr (h.want_sent hx))
  · intro x hx
    rcases (hsent x).mp hx with rfl | hx
    · exact ⟨hkind, .inr ⟨hack, hreach⟩⟩
    · exact h.sent x hx
  · exact fun x hx => (htrees x).mpr (.inl (h.want_trees hx))
  · intro x hx
    rcases (htrees x).mp hx with hx | rfl
    · exact h.trees x hx
    · exact htree
  · exact fun x hx => (hmet x).mpr (.inl (h.starts x hx))
  · intro x hx
    rcases (hmet x).mp hx with hx | ⟨hx, hxa⟩
    · exact h.met x hx
    · refine ⟨hparents x hx, hreach.tail ⟨(hlink x).mpr (.inr hx), .inr ?_⟩⟩
      exact ⟨hkind, hack, hxa, hparents x hx⟩
  · intro x hx hxa
    rw [hset']
    have hx : x = q.id ∨ x ∈ w.visited := by
      subst hw'
      exact List.mem_cons.mp hx
    rcases hx with rfl | hx
    · refine ⟨by simp [hids], (hsent _).mpr (.inl rfl), fun y hy => ?_⟩
      rcases (hlink y).mp hy with rfl | hy
      · exact .inl ⟨htree, (htrees _).mpr (.inr rfl)⟩
      · by_cases hya : y ∈ a.acks pick db
        · exact .inr (.inl hya)
        · exact .inr (.inr ((hmet y).mpr (.inr ⟨hy, hya⟩)))
    · obtain ⟨h₁, h₂, h₃⟩ := h.visited x hx hxa
      refine ⟨hsub h₁, (hsent x).mpr (.inr h₂), fun y hy => ?_⟩
      rcases h₃ y hy with hy | hy | hy
      · exact .inl ⟨hy.1, (htrees y).mpr (.inl hy.2)⟩
      · exact .inr (.inl hy)
      · exact .inr (.inr ((hmet y).mpr (.inl hy)))
  · subst hw'
    exact h.bases
  · intro e he
    have he : e ∈ w.edge ∨ e ∈ c.parents ∧ e ∈ a.acks pick db := by
      subst hw'
      simpa using he
    rcases he with he | ⟨he, hea⟩
    · exact h.edge e he
    · exact ⟨hparents e he, hea⟩

/-- A visit keeps the invariant. -/
theorem CommitInv.visit (hns : a.shallowMode = false) (hcs : a.client_shallow = [])
    (htyped : db.WellTyped objs) {w' : CommitWalk}
    (h : CommitInv objs pick db a w₀ (q.id :: rest) w) (hrow : pick.row db q.id = some loc)
    (hw : visitCommit objs db a (a.acks pick db) [] w q loc = .ok w') :
    CommitInv objs pick db a w₀ rest w' := by
  rw [visitCommit_eq hns hcs] at hw
  cases hc : objs.commit q.id with
  | none => simp [hc] at hw
  | some c =>
    simp only [hc] at hw
    by_cases hack : q.id ∈ a.acks pick db
    · rw [if_pos hack] at hw
      cases hw
      exact h.visit_ack htyped (Choice.live hrow) hc hack
    · rw [if_neg hack] at hw
      cases hset : w.set.mark db q.id loc with
      | error e => simp [hset, Except.map] at hw
      | ok set =>
        simp only [hset, Except.map, Except.ok.injEq] at hw
        subst hw
        exact h.visit_new htyped hrow hc hack hset

/-- A round starts with the commits of the queue that were not visited. -/
theorem CommitInv.start_round (h : CommitInv objs pick db a w₀ [] w) :
    CommitInv objs pick db a w₀ (w.queue.map (·.id)) { w with next := [] } := by
  have hmet : ∀ x, w.Met [] x ↔ CommitWalk.Met { w with next := [] } (w.queue.map (·.id)) x := by
    intro x
    simp only [CommitWalk.Met, CommitWalk.visited, List.not_mem_nil, false_or, List.map_nil,
      or_false]
    constructor
    · rintro (hx | hx)
      · exact .inl hx
      · by_cases hv : x ∈ w.depth.map (·.1)
        · exact .inl hv
        · obtain ⟨q, hq, rfl⟩ := List.mem_map.mp hx
          have hq' := (List.perm_insertionSort (QueueItem.le · ·) w.next).mem_iff.mpr hq
          obtain ⟨r, hr, hid⟩ := List.mem_map.mp (exists_firstOfEach hq')
          refine .inr (List.mem_map.mpr ⟨r, List.mem_filter.mpr ⟨hr, ?_⟩, hid⟩)
          rw [hid]
          exact decide_eq_true hv
    · rintro (hx | hx)
      · exact .inl hx
      · obtain ⟨q, hq, rfl⟩ := List.mem_map.mp hx
        have hq' := mem_firstOfEach (List.mem_filter.mp hq).1
        have hq'' := (List.perm_insertionSort (QueueItem.le · ·) w.next).mem_iff.mp hq'
        exact .inr (List.mem_map.mpr ⟨q, hq'', rfl⟩)
  refine { h with
    starts := fun x hx => (hmet x).mp (h.starts x hx)
    met := fun x hx => h.met x ((hmet x).mpr hx)
    visited := fun x hx hxa => ?_ }
  obtain ⟨h₁, h₂, h₃⟩ := h.visited x hx hxa
  exact ⟨h₁, h₂, fun y hy => (h₃ y hy).imp_right (.imp_right (hmet y).mp)⟩

/-- The walk ends with every commit that was met visited. -/
theorem walkCommits_inv (hns : a.shallowMode = false) (hcs : a.client_shallow = [])
    (htyped : db.WellTyped objs) (n : ℕ) (h : CommitInv objs pick db a w₀ [] w) :
    Among (· = db) db (walkCommits objs pick a (a.acks pick db) [] n w) fun _ w =>
      CommitInv objs pick db a w₀ [] w ∧ w.next = [] := by
  refine walkCommits_among (V := (· = db))
    (I := fun rest w => CommitInv objs pick db a w₀ (rest.map (·.id)) w)
    (fun w hw => hw.start_round) ?_ rfl n h
  rintro u q rest loc v v' rfl ⟨_, rfl, hrow⟩ hv hv'
  exact hv.visit hns hcs htyped hrow hv'

end

end GitEdge
