import GitEdge.Pack.Shallow

/-!
# The boundary of a shallow client

Three laws of the commits that a shallow fetch sends, in whatever states the fetch is resumed. They
speak of the commit graph only.

* The client's commits stay closed (`sendSet_closed`): after the fetch every commit that the client
  holds, outside its new shallow set, has its parents.
* An absolute depth is exact (`sendSet_deepen_exact`): the commits sent are those at a distance below
  the depth, and the shallow ones are those of them with a parent that is not sent.
* A relative depth should extend every boundary of the client. A commit keeps the depth with which it
  is first taken, so the walk may stop at a commit that lies just below a boundary because a longer
  way from another boundary came to it first; and a boundary that lies deeper than the walk goes is
  not extended. `sendSet_relative_iff` says when all boundaries are, by the ways in the graph from
  the wants that pass no stop.
-/

namespace GitEdge

open Sql Process

variable {objs : Objects} {a : FetchArgs} {set : SendSet} {l m : ℕ × Bool} {x y : Oid}
  {ps : List Oid} {pick : Pick} {left plan n k : ℕ} {s t : Db} {resumed : List (Db × Reply)}
  {Z : Oid → Prop}

/-! ## What the answer says -/

section Answer

variable {V : Db → Prop} {acks nots : List Oid} {known : Oid → Prop} {w : CommitWalk}

theorem lookup_eq_some {l : List (Oid × List Oid)} (hmem : (x, ps) ∈ l)
    (h : ∀ p ∈ l, p.1 = x → p.2 = ps) : l.lookup x = some ps := by
  induction l with
  | nil => cases hmem
  | cons p l ih =>
    obtain ⟨y, qs⟩ := p
    rw [List.lookup_cons]
    by_cases hxy : x = y
    · subst hxy
      rw [show qs = ps from h (x, qs) (by simp) rfl]
      simp
    · have hmem' : (x, ps) ∈ l := by
        rcases List.mem_cons.mp hmem with heq | hmem
        · cases heq
          exact absurd rfl hxy
        · exact hmem
      rw [beq_false_of_ne hxy]
      exact ih hmem' fun p hp => h p (by simp [hp])

theorem of_lookup_eq_some {l : List (Oid × List Oid)} (h : l.lookup x = some ps) : (x, ps) ∈ l := by
  induction l with
  | nil => cases h
  | cons p l ih =>
    obtain ⟨y, qs⟩ := p
    rw [List.lookup_cons] at h
    by_cases hxy : x = y
    · subst hxy
      simp only [beq_self_eq_true, Option.some.injEq] at h
      simp [h]
    · rw [beq_false_of_ne hxy] at h
      exact List.mem_cons_of_mem _ (ih h)

/-- The client has the commit after the fetch, as the walk counts it. -/
def CommitWalk.Holds (w : CommitWalk) (a : FetchArgs) (acks : List Oid) (p : Oid) : Prop :=
  p ∈ w.sent ∨ p ∈ acks ∨ p ∈ a.client_shallow

namespace Answer

theorem mem_sent (h : Answer V objs a acks nots known w set) :
    x ∈ w.sent ↔ (x ∈ a.wants ∧ objs.kind x = .commit) ∨ ∃ l c,
      (walkRules objs a acks nots fun x => Asked objs a.wants x ∨ known x).Taken x l ∧
        objs.commit x = some c ∧ a.sends acks nots ⟨x, l.1, l.2⟩ c = true := by
  obtain ⟨w₀, hsent, -, -, hw⟩ := h.walked
  rw [hw.sent, hsent]

/-- What is sent was visited. -/
theorem seen_of_sent (h : Answer V objs a acks nots known w set) (hx : x ∈ w.sent) :
    (walkRules objs a acks nots fun x => Asked objs a.wants x ∨ known x).Seen x := by
  rcases h.mem_sent.mp hx with hx | ⟨l, c, hl, -⟩
  · exact Levels.seen_of_start (l := (1, !a.deepen_relative)) ⟨.inl (.inl hx), rfl⟩
  · exact ⟨l, hl⟩

theorem commit_of_seen (h : Answer V objs a acks nots known w set)
    (hx : (walkRules objs a acks nots fun x => Asked objs a.wants x ∨ known x).Seen x) :
    ∃ c, objs.commit x = some c := by
  obtain ⟨w₀, -, -, -, hw⟩ := h.walked
  obtain ⟨l, hl⟩ := hx
  exact (hw.live x l hl).2

/-- The parents that the walk has recorded. -/
theorem lookup_parents (h : Answer V objs a acks nots known w set) (hm : a.shallowMode = true) :
    w.parents_of.lookup x = some ps ↔
      (walkRules objs a acks nots fun x => Asked objs a.wants x ∨ known x).Seen x ∧
        ∃ c, objs.commit x = some c ∧ ps = c.parents := by
  obtain ⟨w₀, -, -, -, hw⟩ := h.walked
  constructor
  · intro hl
    obtain ⟨-, y, l, c, hy, hc, heq⟩ := (hw.parents_of _).mp (of_lookup_eq_some hl)
    cases heq
    exact ⟨⟨l, hy⟩, c, hc, rfl⟩
  · rintro ⟨⟨l, hl⟩, c, hc, rfl⟩
    refine lookup_eq_some ((hw.parents_of _).mpr ⟨hm, x, l, c, hl, hc, rfl⟩) fun p hp hpx => ?_
    obtain ⟨-, y, m, d, -, hd, rfl⟩ := (hw.parents_of p).mp hp
    simp only at hpx
    subst hpx
    rw [hc] at hd
    cases hd
    rfl

/-- The new bottom edge. -/
theorem mem_shallow (h : Answer V objs a acks nots known w set) (hm : a.shallowMode = true) :
    x ∈ set.shallow ↔ x ∈ w.sent ∧ x ∉ acks ∧ x ∉ a.client_shallow ∧
      ∃ p, objs.ParentOf x p ∧ ¬ w.Holds a acks p := by
  rw [h.shallow]
  unfold boundaries CommitWalk.Holds
  simp only [hm, if_true, List.mem_filter, Bool.and_eq_true, decide_eq_true_eq, and_assoc]
  refine and_congr_right fun hx => and_congr_right fun _ => and_congr_right fun _ => ?_
  obtain ⟨c, hc⟩ := h.commit_of_seen (h.seen_of_sent hx)
  rw [(h.lookup_parents hm).mpr ⟨h.seen_of_sent hx, c, hc, rfl⟩]
  simp only [Option.any_some, List.any_eq_true, Bool.not_eq_true', Bool.or_eq_false_iff,
    decide_eq_false_iff_not, Objects.ParentOf, hc, Option.some.injEq, exists_eq_left',
    not_or, and_assoc]

/-- The client-shallow commits that are interior now. -/
theorem mem_unshallow (h : Answer V objs a acks nots known w set) (hm : a.shallowMode = true) :
    x ∈ set.unshallow ↔ x ∈ w.visited_cs ∧ ∀ p, objs.ParentOf x p →
    w.Holds a acks p := by
  obtain ⟨w₀, -, -, -, hw⟩ := h.walked
  rw [h.unshallow]
  unfold boundaries CommitWalk.Holds
  simp only [hm, if_true, List.mem_filter]
  refine and_congr_right fun hx => ?_
  obtain ⟨l, hl, -⟩ := (hw.visited_cs x).mp hx
  obtain ⟨c, hc⟩ := (hw.live x l hl).2
  rw [(h.lookup_parents hm).mpr ⟨⟨l, hl⟩, c, hc, rfl⟩]
  simp only [Option.any_some, List.all_eq_true, Bool.or_eq_true, decide_eq_true_eq,
    Objects.ParentOf, hc, Option.some.injEq, exists_eq_left', or_assoc]

/-- Without a shallow argument there are no new boundaries. -/
theorem no_boundaries (h : Answer V objs a acks nots known w set) (hm : a.shallowMode = false) :
    set.shallow = [] ∧ set.unshallow = [] := by
  obtain ⟨w₀, -, hsh, hun, hw⟩ := h.walked
  rw [h.shallow, h.unshallow]
  unfold boundaries
  simp only [hm, Bool.false_eq_true, if_false]
  exact ⟨hw.shallow.1.trans hsh, hw.shallow.2.trans hun⟩

/-- Without a shallow argument the walk goes on to every parent, up to what the client holds. -/
theorem holds_parents (h : Answer V objs a acks nots known w set) (hm : a.shallowMode = false)
    {p : Oid} (hx : x ∈ w.sent) (hack : x ∉ acks) (hcs : x ∉ a.client_shallow)
    (hp : objs.ParentOf x p) : w.Holds a acks p := by
  obtain ⟨hdeep, hsince, hnot⟩ := FetchArgs.of_not_shallow hm
  have hnots : nots = [] := h.nots_nil hnot
  obtain ⟨l, hl⟩ := h.seen_of_sent hx
  obtain ⟨c, hc, hpc⟩ := hp
  by_cases hpa : p ∈ acks
  · exact .inr (.inl hpa)
  -- The parent is offered, so it is taken; then it is client-shallow, or sent.
  have hpush : (⟨p, l.1 + 1, l.2⟩ : QueueItem) ∈ a.pushes acks nots ⟨x, l.1, l.2⟩ c := by
    have hwall : a.walled acks nots ⟨x, l.1, l.2⟩ c = false := by
      simp [FetchArgs.walled, FetchArgs.before, FetchArgs.atDepth, hnots, hsince, hdeep, hcs, hack]
    have hdesc : a.descends ⟨x, l.1, l.2⟩ = false := by simp [FetchArgs.descends, hcs]
    unfold FetchArgs.pushes
    rw [hwall, hdesc]
    simp [hpc, hpa]
  obtain ⟨m, hmt⟩ := hl.offers (m := (l.1 + 1, l.2)) ⟨c, hc, hpush⟩
  by_cases hpcs : p ∈ a.client_shallow
  · exact .inr (.inr hpcs)
  · obtain ⟨d, hd⟩ := h.commit_of_seen ⟨m, hmt⟩
    refine .inl (h.mem_sent.mpr (.inr ⟨m, d, hmt, hd, ?_⟩))
    simp [FetchArgs.sends, FetchArgs.descends, FetchArgs.before, hnots, hsince, hpa, hpcs]

end Answer

end Answer

/-! ## Two branches -/

/-- Two branches that meet: `1`, `2`, `3`, `4` is one line of commits, and `5`, `6`, `7` another
that joins it at `3`. All have the empty tree `8`. -/
def joined : Objects where
  kind x := if x = 8 then .tree else .commit
  size _ := 10
  commit x :=
    match x with
    | 1 => some ⟨8, [2], none⟩
    | 2 => some ⟨8, [3], none⟩
    | 3 => some ⟨8, [4], none⟩
    | 4 => some ⟨8, [], none⟩
    | 5 => some ⟨8, [6], none⟩
    | 6 => some ⟨8, [7], none⟩
    | 7 => some ⟨8, [3], none⟩
    | _ => none
  tree _ := some []
  tag _ := none

/-- A repository with the eight objects in one pack. -/
def joinedDb : Db :=
  { Db.fresh with
    packs := ⟨[⟨10, .live, 8, 192, none, 0, none⟩], by decide⟩
    objects := ⟨[⟨1, 10, 0, 12, 20, .commit, 10⟩, ⟨2, 10, 1, 32, 20, .commit, 10⟩,
      ⟨3, 10, 2, 52, 20, .commit, 10⟩, ⟨4, 10, 3, 72, 20, .commit, 10⟩,
      ⟨5, 10, 4, 92, 20, .commit, 10⟩, ⟨6, 10, 5, 112, 20, .commit, 10⟩,
      ⟨7, 10, 6, 132, 20, .commit, 10⟩, ⟨8, 10, 7, 152, 20, .tree, 10⟩], by decide⟩ }

/-- A fetch that is resumed in that state each time. -/
def joinedResumed : List (Db × Reply) := List.replicate 6 (joinedDb, ⟨0, false, 0, none⟩)

theorem joined_saysKinds :
    SaysKinds (fun u => u = joinedDb ∨ u ∈ joinedResumed.map (·.1)) joined a := by
  have hmet : ∀ u, u = joinedDb ∨ u ∈ joinedResumed.map (·.1) → u = joinedDb := by
    intro u hu
    simpa [joinedResumed] using hu
  have hrows : ∀ r ∈ joinedDb.objects.rows,
      r.kind = joined.kind r.sha ∧ r.size = joined.size r.sha := by decide
  refine ⟨fun s hs => ?_, fun s hs x hx => ?_, fun _ s hs => ?_⟩
  · rw [hmet s hs]
    exact hrows
  · -- The parents are commits, and the tree is empty.
    have hkind : ∀ y, y ≠ 8 → joined.kind y = .commit := fun y hy => if_neg hy
    by_cases h8 : x = 8
    · subst h8
      simp [Objects.TypedAt, joined]
    · unfold Objects.TypedAt
      rw [hkind x h8]
      intro c hc
      unfold joined at hc
      dsimp only at hc
      split at hc <;> cases hc <;> exact ⟨rfl, by simp [joined]⟩
  · rw [hmet s hs]
    decide

/-- A fetch of both branches that deepens the client's boundaries `1` and `7` by two. -/
def deepenByTwo : FetchArgs := ⟨[1, 5], [], none, some 2, none, [], true, false, [1, 7]⟩

/-- It sends the commits but for `4` and the boundary `7`. -/
def deepenedByTwo : SendSet :=
  ⟨[⟨10, 8, 192, [true, true, true, false, true, true, false, true]⟩],
    [⟨0, 12, 160, [(12, 20), (32, 20), (52, 20), (92, 20), (112, 20), (152, 20)]⟩], [3], [7, 1],
    some [1, 5, 5, 2, 6, 3, 8], false⟩

theorem sendSet_deepenByTwo :
    (sendSet joined Pick.first deepenByTwo 6 6).evalAmong joinedDb joinedResumed =
      some (.ok deepenedByTwo, joinedDb) := rfl

/-! ## Closure -/

/-- After a fetch the client's commits are closed again. The client held the haves that were
acknowledged and its shallow commits, and the parents of every commit outside its shallow set. It
gets the commits that are sent, and its shallow set changes by the two lists. -/
theorem sendSet_closed (h : (sendSet objs pick a left plan).evalAmong s resumed = some (.ok set, t))
    (hkinds : SaysKinds (fun u => u = s ∨ u ∈ resumed.map (·.1)) objs a)
    (hcs : ∀ x ∈ a.client_shallow, objs.kind x = .commit) {held : Oid → Prop}
    (hacks : ∀ x ∈ a.acks pick s, held x) (hshallow : ∀ x ∈ a.client_shallow, held x)
    (hclosed : ∀ x, held x → x ∉ a.client_shallow → ∀ p, objs.ParentOf x p → held p) :
    ∀ x, held x ∨ set.Commits objs x →
      ¬ (x ∈ a.client_shallow ∧ x ∉ set.unshallow ∨ x ∈ set.shallow) →
      ∀ p, objs.ParentOf x p → held p ∨ set.Commits objs p := by
  have hmet : ∀ x ∈ resumed, x.1 = s ∨ x.1 ∈ resumed.map (·.1) :=
    fun x hx => .inr (List.mem_map_of_mem hx)
  obtain ⟨-, nots, known, w, hans⟩ :=
    (sendSet_answers hkinds hcs (.inl rfl) left plan).of_evalAmong hmet h
  have hholds : ∀ p, w.Holds a (a.acks pick s) p → held p ∨ set.Commits objs p := by
    rintro p (hp | hp | hp)
    · exact .inr ((hans.sent p).mpr hp)
    · exact .inl (hacks p hp)
    · exact .inl (hshallow p hp)
  intro x hx hout p hp
  rw [not_or] at hout
  by_cases hxcs : x ∈ a.client_shallow
  · -- A client-shallow commit outside the new set was unshallowed.
    have hun : x ∈ set.unshallow := by
      by_contra hnot
      exact hout.1 ⟨hxcs, hnot⟩
    cases hm : a.shallowMode with
    | false =>
      rw [(hans.no_boundaries hm).2] at hun
      cases hun
    | true => exact hholds p (((hans.mem_unshallow hm).mp hun).2 p hp)
  · by_cases hheld : held x
    · exact .inl (hclosed x hheld hxcs p hp)
    · -- A new commit that is not on the bottom edge.
      have hsent : x ∈ w.sent := (hans.sent x).mp (hx.resolve_left hheld)
      have hack : x ∉ a.acks pick s := fun hxa => hheld (hacks x hxa)
      cases hm : a.shallowMode with
      | false => exact hholds p (hans.holds_parents hm hsent hack hxcs hp)
      | true =>
        by_contra hnot
        exact hout.2 ((hans.mem_shallow hm).mpr
          ⟨hsent, hack, hxcs, p, hp, fun hholdsp => hnot (hholds p hholdsp)⟩)

/-- A client that holds its two boundaries only is closed after it deepens them. -/
theorem deepenByTwo_closed : deepenedByTwo.unshallow = [7, 1] ∧ deepenedByTwo.shallow = [3] ∧
    ∀ x, (x = 1 ∨ x = 7) ∨ deepenedByTwo.Commits joined x →
      ¬ (x ∈ deepenByTwo.client_shallow ∧ x ∉ deepenedByTwo.unshallow ∨
        x ∈ deepenedByTwo.shallow) →
      ∀ p, joined.ParentOf x p → (p = 1 ∨ p = 7) ∨ deepenedByTwo.Commits joined p := by
  have hclosed : ∀ x, (x = 1 ∨ x = 7) → x ∉ deepenByTwo.client_shallow →
      ∀ p, joined.ParentOf x p → (p = 1 ∨ p = 7) := by
    intro x hx hnot
    exact absurd (show x ∈ deepenByTwo.client_shallow by rcases hx with rfl | rfl <;> decide) hnot
  exact ⟨rfl, rfl, sendSet_closed sendSet_deepenByTwo joined_saysKinds (by decide) (by decide)
    (by decide) hclosed⟩

/-! ## Absolute depth -/

theorem mem_pushes_absolute {d : ℕ} {c : CommitData} (hdeep : a.deepen = some n)
    (hfin : n ≠ infiniteDepth) (hsince : a.deepen_since = none) (hcs : a.client_shallow = []) :
    (⟨y, m.1, m.2⟩ : QueueItem) ∈ a.pushes [] [] ⟨x, d, true⟩ c ↔
      y ∈ c.parents ∧ d < n ∧ m = (d + 1, true) := by
  have hdesc : a.descends ⟨x, d, true⟩ = false := by simp [FetchArgs.descends, hcs]
  have hwall : a.walled [] [] ⟨x, d, true⟩ c = decide (n ≤ d) := by
    simp [FetchArgs.walled, FetchArgs.before, FetchArgs.atDepth, hsince, hcs, hdeep, hfin]
  unfold FetchArgs.pushes
  rw [hdesc, hwall]
  by_cases hd : n ≤ d
  · simp [hd]
  · simp only [Bool.false_eq_true, if_false, hd, decide_false, List.mem_map, List.not_mem_nil,
      not_false_iff, decide_true, Bool.or_true, List.filter_true, QueueItem.mk.injEq]
    constructor
    · rintro ⟨p, hp, rfl, hm₁, hm₂⟩
      exact ⟨hp, by omega, Prod.ext hm₁.symm hm₂.symm⟩
    · rintro ⟨hy, -, rfl⟩
      exact ⟨y, hy, rfl, rfl, rfl⟩

/-- An absolute depth is exact. -/
theorem sendSet_deepen_exact
    (h : (sendSet objs pick a left plan).evalAmong s resumed = some (.ok set, t))
    (hkinds : SaysKinds (fun u => u = s ∨ u ∈ resumed.map (·.1)) objs a) (hdeep : a.deepen = some n)
    (hn : 1 ≤ n) (hfin : n < infiniteDepth) (hrel : a.deepen_relative = false)
    (hsince : a.deepen_since = none) (hnot : a.deepen_not = []) (hhaves : a.haves = [])
    (hcs : a.client_shallow = []) :
    (∀ x, set.Commits objs x ↔ ∃ k < n, Reach.Dist objs.ParentOf (Asked objs a.wants) k x) ∧
    (∀ x, x ∈ set.shallow ↔ set.Commits objs x ∧ ∃ p, objs.ParentOf x p ∧ ¬ set.Commits objs p) ∧
    set.unshallow = [] := by
  have hmet : ∀ x ∈ resumed, x.1 = s ∨ x.1 ∈ resumed.map (·.1) :=
    fun x hx => .inr (List.mem_map_of_mem hx)
  have hcommits : ∀ x ∈ a.client_shallow, objs.kind x = .commit := by simp [hcs]
  obtain ⟨-, nots, known, w, hans⟩ :=
    (sendSet_answers hkinds hcommits (.inl rfl) left plan).of_evalAmong hmet h
  have hacks : a.acks pick s = [] := by simp [FetchArgs.acks, hhaves]
  have hnots : nots = [] := hans.nots_nil hnot
  have hknown : ∀ x, ¬ known x := by
    intro x hx
    have := (hans.of_known x hx).2
    simp [hcs] at this
  have hm : a.shallowMode = true := by simp [FetchArgs.shallowMode, hdeep]
  rw [hacks, hnots] at hans
  -- The labels are the rounds, and what is taken before the last one offers its parents.
  have hseen : ∀ x, (walkRules objs a [] [] fun x => Asked objs a.wants x ∨ known x).Seen x ↔
      ∃ k < n, Reach.In objs.ParentOf (Asked objs a.wants) k x := by
    intro x
    have hoffers :
      ∀ x k y m, (walkRules objs a [] [] fun x => Asked objs a.wants x ∨ known x).offers x
        ((fun j : ℕ => (j + 1, true)) k) y m ↔ objs.ParentOf x y ∧ k + 1 < n ∧
        m = (k + 1 + 1, true) := by
      intro x k y m
      change (∃ c, _) ↔ (∃ c, _) ∧ _
      simp only [mem_pushes_absolute hdeep hfin.ne hsince hcs, ← and_assoc, exists_and_right]
    refine Levels.seen_iff_capped (fun x l => ?_) hoffers hn
    simp [walkRules, hrel, hknown]
  have hsent : ∀ x, set.Commits objs x ↔
      ∃ k < n, Reach.In objs.ParentOf (Asked objs a.wants) k x := by
    intro x
    rw [hans.sent, ← hseen]
    refine ⟨hans.seen_of_sent, fun hx => hans.mem_sent.mpr (.inr ?_)⟩
    obtain ⟨c, hc⟩ := hans.commit_of_seen hx
    obtain ⟨l, hl⟩ := hx
    refine ⟨l, c, hl, hc, ?_⟩
    simp [FetchArgs.sends, FetchArgs.descends, FetchArgs.before, hsince, hcs]
  refine ⟨fun x => ?_, fun x => ?_, ?_⟩
  · rw [hsent, Reach.exists_dist_lt]
  · rw [hans.mem_shallow hm, hans.sent]
    simp [CommitWalk.Holds, hcs, hans.sent]
  · refine List.eq_nil_iff_forall_not_mem.mpr fun x hx => ?_
    obtain ⟨w₀, -, -, -, hw⟩ := hans.walked
    obtain ⟨l, -, hdesc⟩ := (hw.visited_cs x).mp ((hans.mem_unshallow hm).mp hx).1
    simp [FetchArgs.descends, hcs] at hdesc

/-- Of the second branch, a depth of two gives the two commits at its tip. -/
theorem deepen_two_exact :
    ∃ set, (sendSet joined Pick.first ⟨[5], [], none, some 2, none, [], false, false, []⟩ 6
      6).evalAmong
        joinedDb joinedResumed = some (.ok set, joinedDb) ∧
      (∀ x, set.Commits joined x ↔ ∃ k < 2, Reach.Dist joined.ParentOf (Asked joined [5]) k x) ∧
      (∀ x, x ∈ set.shallow ↔ set.Commits joined x ∧ ∃ p, joined.ParentOf x p ∧
        ¬ set.Commits joined p) ∧
      set.unshallow = [] := by
  have heval : (sendSet joined Pick.first ⟨[5], [], none, some 2, none, [], false, false, []⟩ 6
      6).evalAmong joinedDb joinedResumed = some (.ok
        ⟨[⟨10, 8, 192, [false, false, false, false, true, true, false, true]⟩],
          [⟨0, 92, 80, [(92, 20), (112, 20), (152, 20)]⟩], [6], [], some [5, 5, 6, 8], false⟩,
        joinedDb) := rfl
  exact ⟨_, heval, sendSet_deepen_exact heval joined_saysKinds rfl (by decide)
    (by decide) rfl rfl rfl
    rfl rfl⟩

/-! ## Relative depth -/

section Relative

variable (objs : Objects) (a : FetchArgs)

/-- A boundary of the client that the wants reach. -/
def Boundary (b : Oid) : Prop :=
  b ∈ a.client_shallow ∧ Reach.From objs.ParentOf (Asked objs a.wants) b

/-- The commit lies `k` parent steps below a boundary. -/
def Below (k : ℕ) (x : Oid) : Prop := ∃ b, Boundary objs a b ∧ Reach.In objs.ParentOf (· = b) k x

/-- The label of a way one step further: the steps since the boundary that it passed last, and `true`;
or its steps in all, and `false`, if it has passed none. -/
def stepLabel (x : Oid) (l : ℕ × Bool) : ℕ × Bool :=
  if x ∈ a.client_shallow then (1, true) else (l.1 + 1, l.2)

/-- A way of so many parent steps from a want, past no commit of `Z`. -/
def WayPast (Z : Oid → Prop) : ℕ → Oid → ℕ × Bool → Prop :=
  Levels.Way objs.ParentOf (Asked objs a.wants) Z (1, false) (stepLabel a)

/-- A shortest such way; of those, one that has passed a boundary, and as late as there is one. -/
def FirstPast (Z : Oid → Prop) : ℕ → Oid → ℕ × Bool → Prop :=
  Levels.FirstWay objs.ParentOf (Asked objs a.wants) Z (1, false) (stepLabel a) BetterLabel

/-- The commits of `Z` are the stops of a depth: those outside the client's shallow set to which a
shortest way past no stop comes `n` steps after its last boundary, and none fewer. -/
def Stops (n : ℕ) (Z : Oid → Prop) : Prop :=
  ∀ y, Z y ↔ y ∉ a.client_shallow ∧ ∃ k, FirstPast objs a Z k y (n, true)

/-- Some way past no commit of `Z` comes to the commit. -/
def ReachedPast (Z : Oid → Prop) (x : Oid) : Prop := ∃ k l, WayPast objs a Z k x l

/-- Every parent of the commit that is no boundary is reached by another way. -/
def Continues (Z : Oid → Prop) (x : Oid) : Prop :=
  ∀ p, objs.ParentOf x p → ReachedPast objs a Z p ∨ p ∈ a.client_shallow

/-- With the stops of the depth, nothing is lost below the boundaries that the stops hide, and below
the stops that lie nearer to a boundary than the depth. -/
structure ExtendsAll (n : ℕ) (Z : Oid → Prop) : Prop where
  stops : Stops objs a n Z
  hidden : ∀ b, Boundary objs a b → ¬ ReachedPast objs a Z b → Continues objs a Z b
  nearer : ∀ y, Z y → ∀ k, 1 ≤ k → k < n → Below objs a k y → Continues objs a Z y

/-- The search of a relative fetch with no haves. -/
def relativeSearch : Levels.Rules Oid (ℕ × Bool) := walkRules objs a [] [] (Asked objs a.wants)

variable {objs a}

/-- What a commit pushes under a relative depth. -/
theorem mem_pushes_relative (hdeep : a.deepen = some n) (hfin : n ≠ infiniteDepth)
    (hrel : a.deepen_relative = true) (hsince : a.deepen_since = none) {c : CommitData} :
    (⟨y, m.1, m.2⟩ : QueueItem) ∈ a.pushes [] [] ⟨x, l.1, l.2⟩ c ↔ y ∈ c.parents ∧
      if x ∈ a.client_shallow then m = (1, true)
      else (l.2 = true → l.1 < n) ∧ m = (l.1 + 1, l.2) := by
  have hdesc : a.descends ⟨x, l.1, l.2⟩ = decide (x ∈ a.client_shallow) := by
    simp [FetchArgs.descends, FetchArgs.shallowMode, hdeep, hrel]
  unfold FetchArgs.pushes
  rw [hdesc]
  by_cases hx : x ∈ a.client_shallow
  · simp only [hx, decide_true, if_true, hrel, Bool.true_or, List.mem_map, QueueItem.mk.injEq]
    constructor
    · rintro ⟨p, hp, rfl, hm₁, hm₂⟩
      exact ⟨hp, Prod.ext hm₁.symm hm₂.symm⟩
    · rintro ⟨hy, rfl⟩
      exact ⟨y, hy, rfl, rfl, rfl⟩
  · have hwall : a.walled [] [] ⟨x, l.1, l.2⟩ c = (l.2 && decide (n ≤ l.1)) := by
      simp [FetchArgs.walled, FetchArgs.before, FetchArgs.atDepth, hsince, hx, hdeep, hfin]
    rw [hwall]
    by_cases hd : (l.2 && decide (n ≤ l.1)) = true
    · rw [Bool.and_eq_true, decide_eq_true_eq] at hd
      simp [hx, hd.1, hd.2]
    · have hlt : l.2 = true → l.1 < n := by
        intro hl
        simp only [hl, Bool.true_and, decide_eq_true_eq] at hd
        omega
      simp only [hx, decide_false, Bool.false_eq_true, if_false, hd, List.mem_map, List.not_mem_nil,
        not_false_iff, decide_true, Bool.or_true, List.filter_true, QueueItem.mk.injEq]
      constructor
      · rintro ⟨p, hp, rfl, hm₁, hm₂⟩
        exact ⟨hp, hlt, Prod.ext hm₁.symm hm₂.symm⟩
      · rintro ⟨hy, -, rfl⟩
        exact ⟨y, hy, rfl, rfl, rfl⟩

section Search

variable (hdeep : a.deepen = some n) (hn : 1 ≤ n) (hfin : n ≠ infiniteDepth)
  (hrel : a.deepen_relative = true) (hsince : a.deepen_since = none)
include hdeep hn hfin hrel hsince

/-- No depth that counts is past the last one. -/
theorem counted_le (h : (relativeSearch objs a).Taken x l) (hl : l.2 = true) : l.1 ≤ n := by
  refine Levels.Rules.Taken.induction (P := fun _ l => l.2 = true → l.1 ≤ n) h (fun x l hx hl => ?_)
    (fun x l y m _ ih hxy hm => ?_) hl
  · rw [hx.2]
    exact hn
  · obtain ⟨c, -, hpush⟩ := hxy
    have hpush := ((mem_pushes_relative hdeep hfin hrel hsince).mp hpush).2
    split_ifs at hpush
    · rw [hpush]
      exact hn
    · obtain ⟨hlt, rfl⟩ := hpush
      exact hlt hm

/-- What a commit offers, when its label says whether it is a stop. -/
theorem relative_offers (hx : (relativeSearch objs a).Taken x l)
    (hz : Z x ↔ x ∉ a.client_shallow ∧ l = (n, true)) :
    (relativeSearch objs a).offers x l y m ↔
      objs.ParentOf x y ∧ ¬ Z x ∧ m = stepLabel a x l := by
  have hpushes : (relativeSearch objs a).offers x l y m ↔ objs.ParentOf x y ∧
      if x ∈ a.client_shallow then m = (1, true)
      else (l.2 = true → l.1 < n) ∧ m = (l.1 + 1, l.2) := by
    change (∃ c, _) ↔ (∃ c, _) ∧ _
    simp only [mem_pushes_relative hdeep hfin hrel hsince, ← and_assoc, exists_and_right]
  rw [hpushes, hz]
  refine and_congr_right fun _ => ?_
  by_cases hcs : x ∈ a.client_shallow
  · simp [stepLabel, hcs]
  · have hlast : (l.2 = true → l.1 < n) ↔ l ≠ (n, true) := by
      constructor
      · rintro hlt rfl
        exact lt_irrefl _ (hlt rfl)
      · intro hne hl
        have hle := counted_le hdeep hn hfin hrel hsince hx hl
        exact lt_of_le_of_ne hle fun heq => hne (Prod.ext heq hl)
    simp [stepLabel, hcs, hlast]

/-- The search takes a commit in the round of its shortest ways past no stop, with the best of their
labels, if the label says whether the commit is a stop. -/
theorem taken_iff_firstPast
    (hz : ∀ k x l, (relativeSearch objs a).takes ((relativeSearch objs a).stage k) x l →
      FirstPast objs a Z k x l → (Z x ↔ x ∉ a.client_shallow ∧ l = (n, true))) :
    (relativeSearch objs a).takes ((relativeSearch objs a).stage k) x l ↔
      FirstPast objs a Z k x l := by
  refine Levels.takes_iff_firstWay (fun x l => ?_) (fun k x l y m hx hfirst => ?_) fun x l m h => ?_
  · simp [relativeSearch, walkRules, hrel]
  · exact relative_offers hdeep hn hfin hrel hsince ⟨k, hx⟩ (hz k x l hx hfirst)
  · -- A better label stays better.
    change BetterLabel _ _ at h ⊢
    unfold stepLabel BetterLabel at *
    split_ifs
    · exact .inr ⟨rfl, le_refl _⟩
    · exact h.imp id fun h => ⟨h.1, Nat.succ_le_succ h.2⟩

/-- The stops are the commits that are taken at the last depth. -/
theorem exists_stops : ∃ Z, Stops objs a n Z := by
  refine ⟨fun y => y ∉ a.client_shallow ∧ (relativeSearch objs a).Taken y (n, true), fun y => ?_⟩
  refine and_congr_right fun _ => exists_congr fun k =>
    taken_iff_firstPast hdeep hn hfin hrel hsince fun k x l hx _ => and_congr_right fun _ => ?_
  exact ⟨fun ⟨j, hj⟩ => (Levels.takes_unique hx hj).2, fun hl => ⟨k, hl ▸ hx⟩⟩

theorem Stops.taken_iff (h : Stops objs a n Z) :
    (relativeSearch objs a).takes ((relativeSearch objs a).stage k) x l ↔
      FirstPast objs a Z k x l := by
  refine taken_iff_firstPast hdeep hn hfin hrel hsince fun k x l _ hfirst => ?_
  rw [h x]
  refine and_congr_right fun _ => ⟨fun ⟨j, hj⟩ => ?_, fun hl => ⟨k, hl ▸ hfirst⟩⟩
  exact (Levels.FirstWay.unique (R := relativeSearch objs a) hfirst hj).2

/-- What the search takes are the commits with a way past no stop. -/
theorem Stops.seen_iff (h : Stops objs a n Z) :
    (relativeSearch objs a).Seen x ↔ ReachedPast objs a Z x := by
  constructor
  · rintro ⟨l, k, hk⟩
    exact ⟨k, l, ((h.taken_iff hdeep hn hfin hrel hsince).mp hk).1⟩
  · rintro ⟨k, l, hway⟩
    obtain ⟨j, -, m, hm⟩ := Levels.exists_firstWay (relativeSearch objs a) hway
    exact ⟨m, j, (h.taken_iff hdeep hn hfin hrel hsince).mpr hm⟩

omit hdeep hfin hrel hsince in
/-- All commits within the depth of a boundary have a way past no stop, or are boundaries, exactly
when the ways go on where they have to. -/
theorem extendsAll_iff (h : Stops objs a n Z) : ExtendsAll objs a n Z ↔
    ∀ k, 1 ≤ k → k ≤ n → ∀ x, Below objs a k x →
      ReachedPast objs a Z x ∨ x ∈ a.client_shallow := by
  constructor
  · intro h k hk
    -- A boundary is no stop, so the ways that come to it go on.
    have hboundary : ∀ b, Boundary objs a b → Continues objs a Z b := by
      intro b hb p hp
      by_cases hreached : ReachedPast objs a Z b
      · obtain ⟨j, l, hway⟩ := hreached
        exact .inl ⟨j + 1, _, .step hway (fun hz => ((h.stops b).mp hz).1 hb.1) hp⟩
      · exact h.hidden b hb hreached p hp
    -- By the number of steps below the boundary.
    induction k, hk using Nat.le_induction with
    | base =>
      rintro - x ⟨b, hb, y, rfl, hyx⟩
      exact hboundary y hb x hyx
    | succ k hk ih =>
      rintro hkn x ⟨b, hb, y, hy, hyx⟩
      by_cases hcs : y ∈ a.client_shallow
      · -- The commit before it is a boundary itself.
        have hreach : Reach.From objs.ParentOf (Asked objs a.wants) y :=
          Reach.From.of_from hy.from fun _ hc => hc ▸ hb.2
        exact hboundary y ⟨hcs, hreach⟩ x hyx
      · obtain ⟨j, l, hway⟩ := (ih (by omega) y ⟨b, hb, hy⟩).resolve_right hcs
        by_cases hstop : Z y
        · exact h.nearer y hstop k hk (by omega) ⟨b, hb, hy⟩ x hyx
        · exact .inl ⟨j + 1, _, .step hway hstop hyx⟩
  · intro hall
    refine ⟨h, fun b hb _ p hp => hall 1 le_rfl hn p ⟨b, hb, b, rfl, hp⟩, ?_⟩
    rintro y - k hk hkn ⟨b, hb, hy⟩ p hp
    exact hall (k + 1) (by omega) hkn p ⟨b, hb, y, hy, hp⟩

end Search

end Relative

/-- A relative depth extends every boundary that the wants reach exactly when the commits below the
boundaries that the stops hide, and below the stops that lie nearer to a boundary than the depth,
are reached from the wants by other ways. -/
theorem sendSet_relative_iff
    (h : (sendSet objs pick a left plan).evalAmong s resumed = some (.ok set, t))
    (hkinds : SaysKinds (fun u => u = s ∨ u ∈ resumed.map (·.1)) objs a)
    (hcs : ∀ x ∈ a.client_shallow, objs.kind x = .commit) (hdeep : a.deepen = some n) (hn : 1 ≤ n)
    (hfin : n ≠ infiniteDepth) (hrel : a.deepen_relative = true) (hsince : a.deepen_since = none)
    (hnot : a.deepen_not = []) (hhaves : a.haves = []) :
    (∀ k, 1 ≤ k → k ≤ n → ∀ x, Below objs a k x → set.Commits objs x ∨ x ∈ a.client_shallow) ↔
      ∃ Z, ExtendsAll objs a n Z := by
  have hmet : ∀ x ∈ resumed, x.1 = s ∨ x.1 ∈ resumed.map (·.1) :=
    fun x hx => .inr (List.mem_map_of_mem hx)
  obtain ⟨-, nots, known, w, hans⟩ :=
    (sendSet_answers hkinds hcs (.inl rfl) left plan).of_evalAmong hmet h
  have hacks : a.acks pick s = [] := by simp [FetchArgs.acks, hhaves]
  have hnots : nots = [] := hans.nots_nil hnot
  have hstarts : (fun x => Asked objs a.wants x ∨ known x) = Asked objs a.wants := by
    funext x
    have hknown : ¬ known x := by
      intro hx
      have hinf := (hans.of_known x hx).1
      rw [hdeep, Option.some.injEq] at hinf
      exact hfin hinf
    simp [hknown]
  rw [hacks, hnots] at hans
  -- A commit that is taken is sent, unless it is a boundary.
  have hsent : ∀ x, set.Commits objs x ∨ x ∈ a.client_shallow ↔
      (relativeSearch objs a).Seen x ∨ x ∈ a.client_shallow := by
    intro x
    unfold relativeSearch
    rw [hans.sent, ← hstarts]
    constructor
    · exact Or.imp_left hans.seen_of_sent
    · intro hx
      by_cases hxcs : x ∈ a.client_shallow
      · exact .inr hxcs
      · have hx := hx.resolve_right hxcs
        obtain ⟨c, hc⟩ := hans.commit_of_seen hx
        obtain ⟨l, hl⟩ := hx
        refine .inl (hans.mem_sent.mpr (.inr ⟨l, c, hl, hc, ?_⟩))
        simp [FetchArgs.sends, FetchArgs.descends, FetchArgs.before, hsince, hxcs]
  have hways : ∀ {Z}, Stops objs a n Z → ∀ x, ReachedPast objs a Z x ∨ x ∈ a.client_shallow ↔
      set.Commits objs x ∨ x ∈ a.client_shallow := fun hZ x => by
    rw [← hZ.seen_iff hdeep hn hfin hrel hsince, hsent]
  constructor
  · intro hall
    obtain ⟨Z, hZ⟩ : ∃ Z, Stops objs a n Z := exists_stops hdeep hn hfin hrel hsince
    refine ⟨Z, (extendsAll_iff hn hZ).mpr fun k hk hkn x hx => ?_⟩
    exact (hways hZ x).mpr (hall k hk hkn x hx)
  · rintro ⟨Z, hext⟩ k hk hkn x hx
    exact (hways hext.stops x).mp
      ((extendsAll_iff hn hext.stops).mp hext k hk hkn x hx)

/-- The boundary `7` has the commit `4` two steps below it, but the longer way from the boundary `1`
comes to the commit `3` first, at the last depth: `4` is not sent. -/
theorem deepenByTwo_stops : Below joined deepenByTwo 2 4 ∧
    (sendSet joined Pick.first deepenByTwo 6 6).evalAmong joinedDb joinedResumed =
      some (.ok deepenedByTwo, joinedDb) ∧
    ¬ (deepenedByTwo.Commits joined 4 ∨ 4 ∈ deepenByTwo.client_shallow) := by
  have h56 : joined.ParentOf 5 6 := ⟨_, rfl, by simp⟩
  have h67 : joined.ParentOf 6 7 := ⟨_, rfl, by simp⟩
  have h73 : joined.ParentOf 7 3 := ⟨_, rfl, by simp⟩
  have h34 : joined.ParentOf 3 4 := ⟨_, rfl, by simp⟩
  have hasked : Asked joined deepenByTwo.wants 5 := .inl (by decide)
  refine ⟨⟨7, ⟨by decide, ?_⟩, 3, ⟨7, rfl, h73⟩, h34⟩, sendSet_deepenByTwo, ?_⟩
  · exact ((Reach.From.start hasked).tail h56).tail h67
  · unfold SendSet.Commits
    decide

/-- A fetch of the second branch that deepens the client's boundary `6` by two. -/
def deepenBranch : FetchArgs := ⟨[5], [], none, some 2, none, [], true, false, [6]⟩

/-- It sends `5`, and below the boundary `7` and `3`. -/
def deepenedBranch : SendSet :=
  ⟨[⟨10, 8, 192, [false, false, true, false, true, false, true, true]⟩],
    [⟨0, 52, 120, [(52, 20), (92, 20), (132, 20), (152, 20)]⟩], [3], [6], some [5, 5, 7, 3, 8],
    false⟩

theorem sendSet_deepenBranch :
    (sendSet joined Pick.first deepenBranch 6 6).evalAmong joinedDb joinedResumed =
      some (.ok deepenedBranch, joinedDb) := rfl

/-- The ways of that fetch when `3` is the stop. -/
theorem deepenBranch_ways (h : WayPast joined deepenBranch (· = 3) k x l) :
    (k, x, l) ∈ [(0, 5, (1, false)), (1, 6, (2, false)), (2, 7, (1, true)), (3, 3, (2, true))] := by
  induction h with
  | @start x hx =>
    rcases hx with ⟨hx, -⟩ | ⟨t, ht, htag, -⟩
    · obtain rfl : x = 5 := by simpa [deepenBranch] using hx
      decide
    · obtain rfl : t = 5 := by simpa [deepenBranch] using ht
      exact absurd htag (by decide)
  | step h hz hr ih =>
    obtain ⟨c, hc, hp⟩ := hr
    simp only [List.mem_cons, Prod.mk.injEq, List.not_mem_nil, or_false] at ih
    rcases ih with ⟨rfl, rfl, rfl⟩ | ⟨rfl, rfl, rfl⟩ | ⟨rfl, rfl, rfl⟩ | ⟨rfl, rfl, rfl⟩
    · cases hc
      obtain rfl := List.mem_singleton.mp hp
      decide
    · cases hc
      obtain rfl := List.mem_singleton.mp hp
      decide
    · cases hc
      obtain rfl := List.mem_singleton.mp hp
      decide
    · exact absurd rfl hz

/-- The boundary `6` is extended to the commit `3`, two steps below it. -/
theorem deepenBranch_extends : ExtendsAll joined deepenBranch 2 (· = 3) ∧
    ∀ k, 1 ≤ k → k ≤ 2 → ∀ x, Below joined deepenBranch k x →
      deepenedBranch.Commits joined x ∨ x ∈ deepenBranch.client_shallow := by
  have h5 : WayPast joined deepenBranch (· = 3) 0 5 (1, false) := .start (.inl (by decide))
  have h6 : WayPast joined deepenBranch (· = 3) 1 6 (2, false) :=
    .step h5 (by decide) ⟨_, rfl, by simp⟩
  have h7 : WayPast joined deepenBranch (· = 3) 2 7 (1, true) :=
    .step h6 (by decide) ⟨_, rfl, by simp⟩
  have h3 : WayPast joined deepenBranch (· = 3) 3 3 (2, true) :=
    .step h7 (by decide) ⟨_, rfl, by simp⟩
  have hext : ExtendsAll joined deepenBranch 2 (· = 3) := by
    refine ⟨fun y => ⟨?_, ?_⟩, ?_, ?_⟩
    · rintro rfl
      refine ⟨by decide, 3, h3, fun j m hm => .inr ?_⟩
      have hway := deepenBranch_ways hm
      simp at hway
      obtain ⟨rfl, rfl⟩ := hway
      exact ⟨rfl, .inr ⟨rfl, le_rfl⟩⟩
    · rintro ⟨-, k, hk, -⟩
      have hway := deepenBranch_ways hk
      simp at hway
      exact hway.2
    · rintro b ⟨hb, -⟩ hhidden
      obtain rfl : b = 6 := by simpa [deepenBranch] using hb
      exact absurd ⟨1, _, h6⟩ hhidden
    · rintro y rfl k hk hkn ⟨b, ⟨hb, -⟩, hbelow⟩
      obtain rfl : b = 6 := by simpa [deepenBranch] using hb
      obtain rfl : k = 1 := by omega
      obtain ⟨z, rfl, c, hc, hp⟩ := hbelow
      cases hc
      exact absurd hp (by decide)
  exact ⟨hext, (sendSet_relative_iff sendSet_deepenBranch joined_saysKinds (by decide) rfl
    (by decide) (by decide) rfl rfl rfl rfl).mpr ⟨_, hext⟩⟩

end GitEdge
