import GitEdge.Pack.CommitWalk
import GitEdge.Pack.TreeWalk

/-!
# Which fetches are complete

A fetch is complete when it sends every live object that its wants reach, other than what the client
reaches from its haves and what the filter leaves out. On a graph whose links have the kinds that
they say, the only objects that `send_set` can miss are tags: a tag under a tag is peeled, and not
marked, so it is sent only when it is a want itself or rides along (`sendSet_complete_iff`).
-/

namespace GitEdge

open Sql Process

variable {set : SendSet} {w₀ : WantWalk} {peeled : List Oid} {w : CommitWalk}

section

variable (objs : Objects) (pick : Pick) (db : Db) (a : FetchArgs)

/-- The fetch is complete. -/
def Complete (set : SendSet) : Prop :=
  ∀ x, db.Live x → Reach.From objs.Link (· ∈ a.wants) x →
    set.Sends db x ∨ Had objs pick db a x ∨ Excluded objs a x

/-- The tag rides along with a commit that the client will hold. -/
def Rides (t : Oid) : Prop :=
  a.include_tag = true ∧ ∃ p ∈ db.tagPairs, p.1 = t ∧
    (SentCommit objs pick db a p.2 ∨ p.2 ∈ a.acks pick db)

/-- Every tag that the wants reach is a want itself, or the client has it, or it rides along. -/
def TagsCovered : Prop :=
  ∀ t, objs.kind t = .tag → db.Live t → Reach.From objs.Link (· ∈ a.wants) t →
    t ∈ a.wants ∨ Had objs pick db a t ∨ Rides objs pick db a t

end

section

variable {objs : Objects} {pick : Pick} {db : Db} {a : FetchArgs}

/-! ## Tags that ride along -/

/-- The loop of `include-tag` marks the tags of the commits that the client will hold. -/
theorem rideAlong_spec (hcs : a.client_shallow = []) {acks sent : List Oid} {set' : SendSet}
    (hf : Faithful db set) (h : rideAlong pick db a acks sent set = .ok set') :
    Faithful db set' ∧ set.ids ⊆ set'.ids ∧ ∀ t, db.Live t → (t ∈ set'.ids ↔ t ∈ set.ids ∨
      a.include_tag = true ∧ ∃ p ∈ db.tagPairs, p.1 = t ∧ (p.2 ∈ sent ∨ p.2 ∈ acks)) := by
  unfold rideAlong at h
  by_cases hinc : a.include_tag = true
  · rw [if_pos hinc] at h
    have key := FoldM.inv (I := fun todo v => Faithful db v ∧ set.ids ⊆ v.ids ∧
      ∀ t, db.Live t → ((t ∈ v.ids ∨ ∃ p ∈ todo, p.1 = t ∧ (p.2 ∈ sent ∨ p.2 ∈ acks)) ↔
        t ∈ set.ids ∨ ∃ p ∈ db.tagPairs, p.1 = t ∧ (p.2 ∈ sent ∨ p.2 ∈ acks))) h
      ⟨hf, fun _ => id, fun t _ => Iff.rfl⟩ ?_
    · obtain ⟨h₁, h₂, h₃⟩ := key
      exact ⟨h₁, h₂, fun t ht => by simpa [hinc] using h₃ t ht⟩
    · rintro p todo v v' ⟨hv, hsub, hiff⟩ hvp
      rw [hcs] at hvp
      simp only [List.not_mem_nil, decide_false, Bool.or_false, Bool.or_eq_true,
        decide_eq_true_eq] at hvp
      split_ifs at hvp with hp
      · cases hrow : pick.row db p.1 with
        | none =>
          simp only [hrow, Except.ok.injEq] at hvp
          subst hvp
          refine ⟨hv, hsub, fun t ht => ?_⟩
          have hne : p.1 ≠ t := by
            rintro rfl
            obtain ⟨r, hr⟩ := pick.some_of_live ht
            rw [hrow] at hr
            cases hr
          rw [← hiff t ht]
          simp [hne]
        | some loc =>
          simp only [hrow] at hvp
          obtain ⟨hv', hids⟩ := hv.mark hrow hvp
          refine ⟨hv', fun x hx => by simp [hids, hsub hx], fun t ht => ?_⟩
          rw [← hiff t ht, hids]
          simp only [List.mem_append, List.mem_singleton, List.exists_mem_cons_iff, hp, and_true]
          rw [or_assoc, eq_comm]
      · cases hvp
        refine ⟨hv, hsub, fun t ht => ?_⟩
        rw [← hiff t ht]
        simp [hp]
  · rw [if_neg hinc] at h
    cases h
    exact ⟨hf, fun _ => id, fun t _ => by simp [hinc]⟩

/-! ## The four loops together -/

/-- The commits that were sent are those that the walk reaches. -/
theorem CommitInv.mem_sent (h₀ : WantInv objs pick db a a.wants peeled w₀) (htags : w₀.tags = [])
    (h : CommitInv objs pick db a w₀ [] w) (hnext : w.next = []) {c : Oid} :
    c ∈ w.sent ↔ SentCommit objs pick db a c := by
  refine ⟨h.sent c, fun hc => ?_⟩
  obtain ⟨hk, hw | ⟨hack, hreach⟩⟩ := hc
  · exact h.want_sent (h₀.want_sent c hw hk)
  have hmet : ∀ x, w.Met [] x → x ∈ w.visited := by
    intro x hx
    simpa [CommitWalk.Met, hnext] using hx
  -- The tags on the way were peeled, and the commits visited.
  have hplaced : ∀ x, Placed objs db peeled w₀ x →
      (objs.kind x = .tag → x ∈ peeled) ∧ (objs.kind x = .commit → x ∈ w.visited) := by
    intro x hx
    unfold Placed at hx
    constructor <;> intro hxk <;> rw [hxk] at hx
    · simpa [htags] using hx
    · exact hmet x (h.starts x hx)
  have key := Reach.From.induction (P := fun x => (objs.kind x = .tag → x ∈ peeled) ∧
    (objs.kind x = .commit → x ∈ w.visited)) hreach (fun x hx => hplaced x (h₀.wants x hx).2)
    fun x y hx hxy => ?_
  · exact (h.visited c (key.2 hk) hack).2.1
  · obtain ⟨hlink, hxk | ⟨hxk, hxa, hya, hyk⟩⟩ := hxy
    · exact hplaced y (h₀.targets x (hx.1 hxk) y hlink)
    · refine ⟨fun hyt => absurd (hyk.symm.trans hyt) (by simp), fun _ => ?_⟩
      rcases (h.visited x (hx.2 hxk) hxa).2.2 y hlink with hy | hy | hy
      · exact absurd (hyk.symm.trans hy.1) (by simp)
      · exact absurd hy hya
      · exact hmet y hy

/-- Whatever the wants reach was taken care of by the loop for its kind. -/
theorem reached_cases {expanded : List Oid} {t : TreeWalk}
    (h₀ : WantInv objs pick db a a.wants peeled w₀) (htags : w₀.tags = [])
    (h : CommitInv objs pick db a w₀ [] w) (hnext : w.next = [])
    (ht : TreeInv objs pick db a w.set.ids w.trees expanded [] { t with blobs := [] })
    (htnext : t.next = []) (htyped : db.WellTyped objs) {x : Oid}
    (hx : Reach.From objs.Link (· ∈ a.wants) x) :
    Had objs pick db a x ∨
      match objs.kind x with
      | .commit => x ∈ w.visited
      | .tree => x ∈ expanded
      | .blob => db.Live x → x ∈ t.set.ids ∨ Excluded objs a x
      | .tag => x ∈ peeled := by
  have hmet : ∀ y, w.Met [] y → y ∈ w.visited := by
    intro y hy
    simpa [CommitWalk.Met, hnext] using hy
  have htree : ∀ y, objs.kind y = .tree → y ∈ w.trees → y ∈ expanded := by
    intro y hy hyt
    have := ht.starts y hyt
    unfold TreeWalk.Met at this
    rw [hy] at this
    simpa [htnext] using this
  have hplaced : ∀ y, Placed objs db peeled w₀ y → Had objs pick db a y ∨
      match objs.kind y with
      | .commit => y ∈ w.visited
      | .tree => y ∈ expanded
      | .blob => db.Live y → y ∈ t.set.ids ∨ Excluded objs a y
      | .tag => y ∈ peeled := by
    intro y hy
    refine .inr ?_
    unfold Placed at hy
    cases hk : objs.kind y with
    | commit =>
      rw [hk] at hy
      exact hmet y (h.starts y hy)
    | tree =>
      rw [hk] at hy
      exact htree y hk (h.want_trees hy)
    | blob =>
      rw [hk] at hy
      exact fun hl => .inl (ht.ids (h.ids (hy hl)))
    | tag =>
      rw [hk] at hy
      simpa [htags] using hy
  refine hx.induction (fun y hy => hplaced y (h₀.wants y hy).2) fun y z hy hyz => ?_
  rcases hy with hy | hy
  · exact .inl (hy.tail hyz)
  -- One case for each kind: what the object links to was met when the object was.
  cases hk : objs.kind y with
  | commit =>
    rw [hk] at hy
    by_cases hya : y ∈ a.acks pick db
    · exact .inl ((Reach.From.start hya).tail hyz)
    · rcases (h.visited y hy hya).2.2 z hyz with ⟨hzk, hz⟩ | hz | hz
      · refine .inr ?_
        rw [hzk]
        exact htree z hzk hz
      · exact .inl (.start hz)
      · refine .inr ?_
        rw [(h.met z hz).1]
        exact hmet z hz
  | tree =>
    rw [hk] at hy
    obtain ⟨-, hids, hlinks⟩ := ht.expanded y hy
    rcases hlinks z hyz with hz | hz
    · exact .inl hz
    obtain ⟨r, _, rfl, hr⟩ := ht.faithful.tracked.looked hids
    obtain ⟨es, hes, e, he, hm, rfl⟩ := (link_tree hk).mp hyz
    have hek := typed_tree htyped ⟨r, hr⟩ hk hes e he
    refine .inr ?_
    unfold TreeWalk.Met at hz
    cases hmode : e.mode with
    | commit => exact absurd hmode hm
    | tree =>
      rw [hek, hmode] at hz ⊢
      simpa [Mode.kind, htnext] using hz
    | other =>
      rw [hek, hmode] at hz ⊢
      exact fun _ => by simpa [Mode.kind] using hz
  | blob =>
    unfold Objects.Link Objects.links at hyz
    rw [hk] at hyz
    cases hyz
  | tag =>
    rw [hk] at hy
    exact hplaced z (h₀.targets y hy z hyz)

/-- The walk over the commits starts with what the first loops left. -/
theorem WantInv.start_commits (h : WantInv objs pick db a a.wants peeled w₀) :
    CommitInv objs pick db a w₀ [] ⟨w₀.set, w₀.sent, [], [], [], [], w₀.trees, [],
      w₀.commits.map fun c => ⟨c, 1, !a.deepen_relative⟩⟩ := by
  have hmet : ∀ x, CommitWalk.Met ⟨w₀.set, w₀.sent, [], [], [], [], w₀.trees, [],
      w₀.commits.map fun c => ⟨c, 1, !a.deepen_relative⟩⟩ [] x ↔ x ∈ w₀.commits := by
    intro x
    simp [CommitWalk.Met, CommitWalk.visited]
  exact
    { faithful := h.faithful, ids := fun _ => id, ids_tag := h.ids_tag
      want_sent := fun _ => id
      sent := fun x hx => ⟨(h.sent x hx).2, .inl (h.sent x hx).1⟩
      want_trees := fun _ => id, trees := h.trees
      starts := fun x hx => (hmet x).mpr hx
      met := fun x hx => h.commits x ((hmet x).mp hx)
      visited := fun x hx => absurd hx (by simp [CommitWalk.visited])
      bases := by simp, edge := by simp }

/-- The trees of the haves at the edge of the walk are the client's. -/
theorem CommitInv.edge_trees (htyped : db.WellTyped objs) (h : CommitInv objs pick db a w₀ [] w)
    {edge edges : List Oid} (hedge : edge ⊆ w.edge) (hlive : ∀ e ∈ edge, db.Live e)
    (hedges : edge.mapM (fun e => (objs.commit e).elim (.error (.storage "commit"))
      fun d => .ok d.tree) = (.ok edges : Except Error (List Oid))) :
    ∀ b ∈ edges, objs.kind b = .tree ∧ Had objs pick db a b := by
  intro b hb
  obtain ⟨e, he, heb⟩ := FoldM.mem_mapM hedges hb
  obtain ⟨hek, hea⟩ := h.edge e (hedge he)
  cases hc : objs.commit e with
  | none => simp [hc] at heb
  | some c =>
    simp only [hc, Option.elim_some, Except.ok.injEq] at heb
    subst heb
    exact ⟨(typed_commit htyped (hlive e he) hek hc).1,
      (Reach.From.start hea).tail ((link_commit hek).mpr ⟨c, hc, .inl rfl⟩)⟩

/-- The trees of the sent commits start the last loop, with the client's trees as bases. -/
theorem CommitInv.start_trees (h₀ : WantInv objs pick db a a.wants peeled w₀)
    (h : CommitInv objs pick db a w₀ [] w) {bases : List Oid}
    (hbases : ∀ b ∈ bases, objs.kind b = .tree ∧ Had objs pick db a b) :
    TreeInv objs pick db a w.set.ids w.trees [] []
      ⟨w.set, w₀.seen, (sortDedup w.trees).map fun t => (t, bases), []⟩ := by
  have htree : ∀ x ∈ w.trees, TreeWalk.Met objs a
      ⟨w.set, w₀.seen, (sortDedup w.trees).map fun t => (t, bases), []⟩ [] [] x := by
    intro x hx
    unfold TreeWalk.Met
    rw [h.trees x hx]
    simpa [mem_sortDedup] using hx
  refine
    { faithful := h.faithful, ids := fun _ => id, ids_tag := h.ids_tag, items := fun i hi => ?_
      blobs := by simp, starts := htree, seen := fun x hx => ?_, expanded := by simp }
  · simp only [List.nil_append, List.mem_map, mem_sortDedup] at hi
    obtain ⟨x, hx, rfl⟩ := hi
    exact ⟨h.trees x hx, hbases⟩
  · -- What was seen before is a want, or a blob that is marked.
    have hmarked : objs.kind x = .blob → x ∈ w₀.set.ids → TreeWalk.Met objs a
        ⟨w.set, w₀.seen, (sortDedup w.trees).map fun t => (t, bases), []⟩ [] [] x := by
      intro hk hx
      unfold TreeWalk.Met
      rw [hk]
      exact .inl (h.ids hx)
    rcases h₀.seen x hx with hx | ⟨hk, hx⟩
    · obtain ⟨hids, hplaced⟩ := h₀.wants x hx
      unfold Placed at hplaced
      cases hk : objs.kind x with
      | tree =>
        rw [hk] at hplaced
        exact htree x (h.want_trees hplaced)
      | blob => exact hmarked hk hids
      | commit =>
        unfold TreeWalk.Met
        rw [hk]
        trivial
      | tag =>
        unfold TreeWalk.Met
        rw [hk]
        trivial
    · exact hmarked hk hx

/-- What a fetch marks: every object that the wants reach, but for tags, and the tags that are wants
or ride along. -/
structure MarksReached (objs : Objects) (pick : Pick) (db : Db) (a : FetchArgs) (set : SendSet) :
    Prop where
  faithful : Faithful db set
  rest : ∀ x, db.Live x → Reach.From objs.Link (· ∈ a.wants) x → objs.kind x ≠ .tag →
    x ∈ set.ids ∨ Had objs pick db a x ∨ Excluded objs a x
  tags : ∀ t, db.Live t → objs.kind t = .tag →
    (t ∈ set.ids ↔ t ∈ a.wants ∨ Rides objs pick db a t)

/-- The marks of the four loops, with the tags that ride along. -/
theorem marksReached {expanded : List Oid} {t : TreeWalk} (htyped : db.WellTyped objs)
    (h₀ : WantInv objs pick db a a.wants peeled w₀) (htags : w₀.tags = [])
    (h : CommitInv objs pick db a w₀ [] w) (hnext : w.next = [])
    (ht : TreeInv objs pick db a w.set.ids w.trees expanded [] { t with blobs := [] })
    (htnext : t.next = []) (hf : Faithful db set) (hsub : t.set.ids ⊆ set.ids)
    (hrides : ∀ x, db.Live x → (x ∈ set.ids ↔ x ∈ t.set.ids ∨ Rides objs pick db a x)) :
    MarksReached objs pick db a set := by
  refine ⟨hf, fun x hl hx hk => ?_, fun x hl hk => ?_⟩
  · rcases reached_cases h₀ htags h hnext ht htnext htyped hx with hx | hx
    · exact .inr (.inl hx)
    cases hkx : objs.kind x with
    | commit =>
      rw [hkx] at hx
      by_cases hxa : x ∈ a.acks pick db
      · exact .inr (.inl (.start hxa))
      · exact .inl (hsub (ht.ids (h.visited x hx hxa).1))
    | tree =>
      rw [hkx] at hx
      exact .inl (hsub (ht.expanded x hx).2.1)
    | blob =>
      rw [hkx] at hx
      exact (hx hl).imp (hsub ·) .inr
    | tag => exact absurd hkx hk
  · rw [hrides x hl]
    refine or_congr_left ⟨fun hx => ht.ids_tag x hx hk, fun hx => ?_⟩
    exact ht.ids (h.ids (h₀.wants x hx).1)

theorem sendSet_marks (hns : a.shallowMode = false) (hcs : a.client_shallow = [])
    (hdesc : db.Describes objs) (htyped : db.WellTyped objs) (left plan : ℕ) :
    Among (· = db) db (sendSet objs pick a left plan) fun _ set =>
      MarksReached objs pick db a set := by
  obtain ⟨hdeep, -, hnot⟩ := FetchArgs.of_not_shallow hns
  unfold sendSet
  refine among_read_bind.mpr ?_
  refine (among_ofExcept (V := (· = db)) rfl (P := fun _ w => WantInv objs pick db a a.wants [] w)
    fun w hw => takeWants_inv hdesc hw).bind fun u w hu hw => ?_
  subst u
  refine (peelTags_inv htyped left hw).bind fun u w₀ hu hw₀ => ?_
  subst u
  obtain ⟨⟨peeled, h₀⟩, htags⟩ := hw₀
  -- No commit is excluded, and no client-shallow commit is known.
  have hexcluded : Among (· = db) db (excluded objs pick (maxCommits + 2) [] a.deepen_not)
      fun _ nots => nots = [] := by
    rw [hnot]
    unfold excluded
    exact among_pure (V := (· = db)) (P := fun _ nots => nots = []) rfl rfl
  refine hexcluded.bind fun u nots hu hnots => ?_
  subst u nots
  refine among_read_bind.mpr ?_
  simp only [hdeep, reduceCtorEq, if_false, List.append_nil]
  refine (walkCommits_inv hns hcs htyped _ h₀.start_commits).bind fun u w hu hw => ?_
  subst u
  obtain ⟨hw, hnext⟩ := hw
  have hset : boundaries a (a.haves.filter fun h => (pick.row db h).isSome) w = w.set := by
    simp [boundaries, hns]
  rw [hset]
  refine (load_among (V := (· = db)) rfl _).bind fun u rows hu hrows => ?_
  subst u
  refine (among_ofExcept (V := (· = db)) rfl (P := fun _ edges => ∀ b ∈ edges,
    objs.kind b = .tree ∧ Had objs pick db a b) fun edges hedges =>
    hw.edge_trees htyped (fun e he => ?_) (fun e he => ?_) hedges).bind fun u edges hu hedges => ?_
  · exact mem_sortDedup.mp (List.mem_of_mem_take he)
  · obtain ⟨_, rfl, hlive⟩ := met_of_rows hrows he
    exact hlive
  subst u
  have hbases : ∀ b ∈ (sortDedup (w.bases ++ edges)).take 64,
      objs.kind b = .tree ∧ Had objs pick db a b := by
    intro b hb
    rcases List.mem_append.mp (mem_sortDedup.mp (List.mem_of_mem_take hb)) with hb | hb
    · exact hw.bases b hb
    · exact hedges b hb
  refine (walkTrees_inv htyped hdesc _ (hw.start_trees h₀ hbases)).bind fun u t hu ht => ?_
  subst u
  obtain ⟨⟨expanded, ht⟩, htnext⟩ := ht
  refine among_read_bind.mpr ?_
  refine (among_ofExcept (V := (· = db)) rfl (P := fun _ set => MarksReached objs pick db a set)
    fun set hride => ?_).bind fun u set hu hset => ?_
  · obtain ⟨hf, hsub, hrides⟩ := rideAlong_spec hcs ht.faithful hride
    refine marksReached htyped h₀ htags hw hnext ht htnext hf hsub fun x hx =>
      (hrides x hx).trans (or_congr_right ?_)
    unfold Rides
    simp only [hw.mem_sent h₀ htags hnext]
    rfl
  · subst u
    refine among_ofExcept (V := (· = db)) rfl fun set' hplan => ?_
    obtain ⟨hf, hids⟩ := hset.faithful.planReads hplan
    exact ⟨hf, hids ▸ hset.rest, hids ▸ hset.tags⟩

/-- A fetch with no shallow arguments, in which no pack changes, is complete exactly when every tag
that the wants reach is a want, or the client has it, or it rides along. -/
theorem sendSet_complete_iff (hns : a.shallowMode = false) (hcs : a.client_shallow = [])
    (hdesc : db.Describes objs) (htyped : db.WellTyped objs) (hidx : db.Indexed) {left plan : ℕ}
    {replies : List Reply} (h : (sendSet objs pick a left plan).eval db replies = some (.ok set)) :
    Complete objs pick db a set ↔ TagsCovered objs pick db a := by
  obtain ⟨hf, hrest, htag⟩ := (sendSet_marks hns hcs hdesc htyped left plan).of_eval h
  constructor
  · intro hc t hk hl ht
    rcases hc t hl ht with hs | hs | hs
    · rw [hf.sends_iff hidx, htag t hl hk] at hs
      exact hs.elim .inl fun hr => .inr (.inr hr)
    · exact .inr (.inl hs)
    · exact absurd (hk.symm.trans hs.1) (by simp)
  · intro hc x hl hx
    rw [hf.sends_iff hidx]
    by_cases hk : objs.kind x = .tag
    · rcases hc x hk hl hx with ht | ht | ht
      · exact .inl ((htag x hl hk).mpr (.inl ht))
      · exact .inr (.inl ht)
      · exact .inl ((htag x hl hk).mpr (.inr ht))
    · exact hrest x hl hx hk

end

/-! ## A tag of a tag -/

/-- The tag `1` names the tag `2`, which names the commit `3` with the empty tree `4`. -/
def tagOfTag : Objects where
  kind x :=
    match x with
    | 1 | 2 => .tag
    | 3 => .commit
    | _ => .tree
  size _ := 10
  commit _ := some ⟨4, [], none⟩
  tree _ := some []
  tag x :=
    match x with
    | 1 => some ⟨.tag, 2⟩
    | _ => some ⟨.commit, 3⟩

/-- A repository with the four objects in one pack. -/
def onePack : Db :=
  { Db.fresh with
    packs := ⟨[⟨10, .live, 4, 112, none, 0, none⟩], by decide⟩
    objects := ⟨[⟨1, 10, 0, 12, 20, .tag, 10⟩, ⟨2, 10, 1, 32, 20, .tag, 10⟩,
      ⟨3, 10, 2, 52, 20, .commit, 10⟩, ⟨4, 10, 3, 72, 20, .tree, 10⟩], by decide⟩ }

/-- A fetch of the wants with no further arguments. -/
def fetchOf (wants : List Oid) : FetchArgs := ⟨wants, [], none, none, none, [], false, false, []⟩

/-- Replies of a bucket that answers. -/
def answers : List Reply := List.replicate 6 ⟨0, false, 0, none⟩

theorem mem_onePack {r : ObjRow} (h : r ∈ onePack.objects) :
    r = ⟨1, 10, 0, 12, 20, .tag, 10⟩ ∨ r = ⟨2, 10, 1, 32, 20, .tag, 10⟩ ∨
      r = ⟨3, 10, 2, 52, 20, .commit, 10⟩ ∨ r = ⟨4, 10, 3, 72, 20, .tree, 10⟩ := by
  simpa [onePack, Table.mem_def] using h

/-- A fetch of the outer tag does not send the inner one. -/
theorem sendSet_misses_tag :
    ∃ set, (sendSet tagOfTag Pick.first (fetchOf [1]) 6 6).eval onePack answers = some (.ok set) ∧
      ¬ Complete tagOfTag Pick.first onePack (fetchOf [1]) set := by
  refine ⟨⟨[⟨10, 4, 112, [true, false, true, true, false, false, false, false]⟩],
    [⟨0, 12, 80, [(12, 20), (52, 20), (72, 20)]⟩], [], [], some [1, 3, 4], false⟩, rfl, ?_⟩
  intro h
  have hlink : tagOfTag.Link 1 2 := by simp [Objects.Link, Objects.links, tagOfTag]
  have hlive : onePack.Live 2 :=
    ⟨⟨2, 10, 1, 32, 20, .tag, 10⟩, by simp [onePack, Table.mem_def], rfl, rfl⟩
  rcases h 2 hlive ((Reach.From.start (by decide)).tail hlink) with hs | hs | hs
  · obtain ⟨p, hp, r, hr, hsha⟩ := hs
    revert hsha r hr p hp
    decide
  · obtain ⟨x, hx, -⟩ := hs
    cases hx
  · exact absurd hs.1 (by decide)

/-- A fetch of both tags is complete. -/
theorem sendSet_complete_both :
    ∃ set, (sendSet tagOfTag Pick.first (fetchOf [1, 2]) 6 6).eval onePack answers =
        some (.ok set) ∧ Complete tagOfTag Pick.first onePack (fetchOf [1, 2]) set := by
  have heval : (sendSet tagOfTag Pick.first (fetchOf [1, 2]) 6 6).eval onePack answers =
      some (.ok ⟨[⟨10, 4, 112, [true, true, true, true, false, false, false, false]⟩],
        [⟨0, 12, 80, [(12, 20), (32, 20), (52, 20), (72, 20)]⟩], [], [], some [1, 2, 3, 4],
        false⟩) := rfl
  refine ⟨_, heval, (sendSet_complete_iff rfl rfl ?_ ?_ ?_ heval).mpr ?_⟩
  · intro r hr
    rcases mem_onePack hr with rfl | rfl | rfl | rfl <;> exact ⟨rfl, rfl⟩
  · rintro x ⟨r, hr, rfl, -⟩
    rcases mem_onePack hr with rfl | rfl | rfl | rfl <;> simp [Objects.TypedAt, tagOfTag]
  · intro r hr r' hr'
    rcases mem_onePack hr with rfl | rfl | rfl | rfl <;>
      rcases mem_onePack hr' with rfl | rfl | rfl | rfl <;> simp
  · rintro t hk ⟨r, hr, rfl, -⟩ -
    refine .inl ?_
    rcases mem_onePack hr with rfl | rfl | rfl | rfl
    · decide
    · decide
    · cases hk
    · cases hk

end GitEdge
