import GitEdge.Pack.Marks

/-!
# The loops of `send_set`

One rule for each of the loops that wait: what its steps keep, the loop keeps, in whatever states it
is resumed. The steps over wants and tags have a lemma each that says what they do
(`takeWant_ok`, `peelTag_ok`). The invariants of the walk, in the modules that follow, are shown by
these rules.
-/

namespace GitEdge

open Sql Process

variable {x : Oid} {w : WantWalk}

section

variable {V : Db → Prop} {objs : Objects} {pick : Pick} {a : FetchArgs} {s : Db}

/-! ## Reading objects -/

/-- The row was taken for the object in a state that the walk met. -/
def Found (V : Db → Prop) (pick : Pick) (x : Oid) (r : ObjRow) : Prop :=
  ∃ s, V s ∧ pick.row s x = some r

theorem Found.looked {r : ObjRow} (h : Found V pick x r) : Looked V x r := by
  obtain ⟨s, hs, hrow⟩ := h
  exact looked_of_row hs hrow

/-- The object was live in a state that the walk met. -/
def MetObject (V : Db → Prop) (x : Oid) : Prop := ∃ s, V s ∧ s.Live x

theorem Found.met {r : ObjRow} (h : Found V pick x r) : MetObject V x := by
  obtain ⟨s, hs, hrow⟩ := h
  exact ⟨s, hs, Choice.live hrow⟩

theorem liveRows_ok {db : Db} {ids : List Oid} {rows : List (Oid × ObjRow)}
    (h : liveRows pick db ids = .ok rows) :
    rows.map (·.1) = ids ∧ ∀ p ∈ rows, pick.row db p.1 = some p.2 := by
  induction ids generalizing rows with
  | nil =>
    cases h
    simp
  | cons id ids ih =>
    unfold liveRows at h
    cases hrow : pick.row db id with
    | none => simp [hrow] at h
    | some r =>
      simp only [hrow] at h
      cases hrest : liveRows pick db ids with
      | error e => simp [hrest, Except.map] at h
      | ok rest =>
        simp only [hrest, Except.map, Except.ok.injEq] at h
        subst h
        obtain ⟨hmap, hrows⟩ := ih hrest
        refine ⟨by simp [hmap], fun p hp => ?_⟩
        rcases List.mem_cons.mp hp with rfl | hp
        · exact hrow
        · exact hrows p hp

theorem among_request (hs : V s) {P : Db → Reply → Prop} (h : ∀ t r, V t → P t r) :
    Among V s request P := by
  unfold request
  refine (among_ask hs (P := fun _ _ => True) fun _ _ _ => trivial).bind fun t r ht _ => ?_
  cases r.err with
  | none => exact among_pure ht (h t r ht)
  | some e => exact among_fail ht e

/-- The rows of a load were looked up before it waited. -/
theorem load_among (hs : V s) (ids : List Oid) :
    Among V s (load pick ids) fun _ rows =>
      rows.map (·.1) = ids ∧ ∀ p ∈ rows, Found V pick p.1 p.2 := by
  unfold load
  refine among_read_bind.mpr ?_
  cases hrows : liveRows pick s ids with
  | error e => exact among_fail hs e
  | ok rows =>
    obtain ⟨hids, hpick⟩ := liveRows_ok hrows
    have hok : rows.map (·.1) = ids ∧ ∀ p ∈ rows, Found V pick p.1 p.2 :=
      ⟨hids, fun p hp => ⟨s, hs, hpick p hp⟩⟩
    dsimp only
    split_ifs
    · refine (among_request hs (P := fun _ _ => True) fun _ _ _ => trivial).bind fun u _ hu _ => ?_
      exact among_pure hu hok
    · exact among_pure hs hok

/-- What a load reads was live. -/
theorem met_of_rows {ids : List Oid} {rows : List (Oid × ObjRow)}
    (h : rows.map (·.1) = ids ∧ ∀ p ∈ rows, Found V pick p.1 p.2) (hx : x ∈ ids) :
    MetObject V x := by
  rw [← h.1] at hx
  obtain ⟨p, hp, rfl⟩ := List.mem_map.mp hx
  exact (h.2 p hp).met

/-! ## Wants and tags -/

/-- An object of some kind goes to the loop for its kind; a blob has none. -/
structure Goes (w : WantWalk) (k : Kind) (x : Oid) (w' : WantWalk) : Prop where
  commits : ∀ y, y ∈ w'.commits ↔ y ∈ w.commits ∨ y = x ∧ k = .commit
  trees : ∀ y, y ∈ w'.trees ↔ y ∈ w.trees ∨ y = x ∧ k = .tree
  tags : ∀ y, y ∈ w'.tags ↔ y ∈ w.tags ∨ y = x ∧ k = .tag

/-- What is done with a want: it is marked, and goes to the loop for its kind. -/
structure Takes (db : Db) (w : WantWalk) (x : Oid) (loc : ObjRow) (w' : WantWalk) : Prop where
  set : w.set.mark db x loc = .ok w'.set
  goes : Goes w loc.kind x w'
  sent : ∀ y, y ∈ w'.sent ↔ y ∈ w.sent ∨ y = x ∧ loc.kind = .commit
  seen : ∀ y, y ∈ w'.seen ↔ y ∈ w.seen ∨ y = x

theorem takeWant_ok {w' : WantWalk} (h : takeWant pick s w x = .ok w') :
    ∃ loc, pick.row s x = some loc ∧ Takes s w x loc w' := by
  unfold takeWant at h
  cases hrow : pick.row s x with
  | none => simp [hrow] at h
  | some loc =>
    simp only [hrow] at h
    obtain ⟨set, hset, h⟩ := FoldM.bind_eq_ok.mp h
    refine ⟨loc, rfl, ?_⟩
    cases hk : loc.kind <;> simp only [hk] at h <;> cases h <;>
      exact ⟨hset, ⟨by simp [hk], by simp [hk], by simp [hk]⟩,
        by simp [hk, List.mem_insert_iff, or_comm], by simp [List.mem_insert_iff, or_comm]⟩

/-- What is done with a tag: its target goes to the loop for the kind that the tag says; one that is
a live blob is marked. -/
structure Peels (pick : Pick) (db : Db) (w : WantWalk) (d : TagData) (w' : WantWalk) : Prop where
  goes : Goes w d.target_kind d.target w'
  sent : w'.sent = w.sent
  set : w'.set = w.set ∧ w'.seen = w.seen ∧
      (d.target_kind = .blob → pick.row db d.target = none) ∨
    d.target_kind = .blob ∧ (∀ y, y ∈ w'.seen ↔ y ∈ w.seen ∨ y = d.target) ∧
      ∃ loc, pick.row db d.target = some loc ∧ w.set.mark db d.target loc = .ok w'.set

theorem peelTag_ok {w' : WantWalk} {t : Oid} (h : peelTag objs pick s w t = .ok w') :
    ∃ d, objs.tag t = some d ∧ Peels pick s w d w' := by
  unfold peelTag at h
  cases hd : objs.tag t with
  | none => simp [hd] at h
  | some d =>
    refine ⟨d, rfl, ?_⟩
    obtain ⟨k, x⟩ := d
    cases k with
    | commit =>
      simp only [hd] at h
      cases h
      exact ⟨⟨by simp, by simp, by simp⟩, rfl, .inl ⟨rfl, rfl, by simp⟩⟩
    | tree =>
      simp only [hd] at h
      cases h
      exact ⟨⟨by simp, by simp, by simp⟩, rfl, .inl ⟨rfl, rfl, by simp⟩⟩
    | tag =>
      simp only [hd] at h
      cases h
      exact ⟨⟨by simp, by simp, by simp⟩, rfl, .inl ⟨rfl, rfl, by simp⟩⟩
    | blob =>
      simp only [hd] at h
      cases hrow : pick.row s x with
      | none =>
        simp only [hrow] at h
        cases h
        exact ⟨⟨by simp, by simp, by simp⟩, rfl, .inl ⟨rfl, rfl, fun _ => hrow⟩⟩
      | some loc =>
        simp only [hrow] at h
        obtain ⟨set, hset, h⟩ := FoldM.bind_eq_ok.mp h
        cases h
        exact ⟨⟨by simp, by simp, by simp⟩, rfl,
          .inr ⟨rfl, by simp [List.mem_insert_iff, or_comm], loc, hrow, hset⟩⟩

/-- The loop over the tags, which ends with no tag left. The invariant is told which tags of the
round are still to be peeled. -/
theorem peelTags_among {I : List Oid → WantWalk → Prop}
    (hround : ∀ w, I [] w → I w.tags { w with tags := [] })
    (hpeel : ∀ u t rest w d w', V u → MetObject V t → I (t :: rest) w → objs.tag t = some d →
      Peels pick u w d w' → I rest w') (hs : V s) (n : ℕ) (h : I [] w) :
    Among V s (peelTags objs pick n w) fun _ w => I [] w ∧ w.tags = [] := by
  induction n generalizing s w with
  | zero =>
    unfold peelTags
    split_ifs with he
    · exact among_pure hs ⟨h, List.isEmpty_iff.mp he⟩
    · exact among_fail hs _
  | succ n ih =>
    unfold peelTags
    split_ifs with he
    · exact among_pure hs ⟨h, List.isEmpty_iff.mp he⟩
    · refine (load_among hs w.tags).bind fun u rows hu hrows => among_read_bind.mpr ?_
      refine (among_ofExcept hu (P := fun _ w => I [] w) fun w' hw' => ?_).bind
        fun t w' ht hw' => ih ht hw'
      refine (FoldM.inv (I := fun rest v => (∀ t ∈ rest, MetObject V t) ∧ I rest v) hw'
        ⟨fun t ht => met_of_rows hrows ht, hround w h⟩ ?_).2
      rintro t rest v v' ⟨hrest, hv⟩ hv'
      obtain ⟨d, hd, hpeels⟩ := peelTag_ok hv'
      exact ⟨fun x hx => hrest x (by simp [hx]),
        hpeel u t rest v d v' hu (hrest t (by simp)) hv hd hpeels⟩

/-! ## Commits -/

/-- The queue of a round: the best entry of each commit that was not visited. -/
def CommitWalk.queue (w : CommitWalk) : List QueueItem :=
  (firstOfEach (w.next.insertionSort (QueueItem.le · ·))).filter fun q => q.id ∉ w.depth.map (·.1)

/-- The loop over the commits, which ends with an empty queue. -/
theorem walkCommits_among {acks nots : List Oid} {I : List QueueItem → CommitWalk → Prop}
    (hround : ∀ w, I [] w → I w.queue { w with next := [] })
    (hvisit : ∀ u q rest loc w w', V u → Found V pick q.id loc → I (q :: rest) w →
      visitCommit objs u a acks nots w q loc = .ok w' → I rest w')
    (hs : V s) (n : ℕ) {w : CommitWalk} (h : I [] w) :
    Among V s (walkCommits objs pick a acks nots n w) fun _ w => I [] w ∧ w.next = [] := by
  induction n generalizing s w with
  | zero => exact among_fail hs _
  | succ n ih =>
    unfold walkCommits
    split_ifs with he
    · exact among_pure hs ⟨h, List.isEmpty_iff.mp he⟩
    · dsimp only
      split_ifs
      · exact among_fail hs _
      change Among V s (load pick (w.queue.map (·.id)) >>= fun rows => do
        let db ← (Span.read : Span Db Error Db)
        let w ← ofResult ((w.queue.zip rows).foldlM
          (fun w p => visitCommit objs db a acks nots w p.1 p.2.2) { w with next := [] })
        walkCommits objs pick a acks nots n w) _
      refine (load_among hs (w.queue.map (·.id))).bind fun u rows hu hrows =>
        among_read_bind.mpr ?_
      refine (among_ofExcept hu (P := fun _ w => I [] w) fun w' hw' => ?_).bind
        fun t w' ht hw' => ih ht hw'
      -- The rows stand beside the commits that they are of.
      have hlen : w.queue.length = rows.length := by
        simpa using (congrArg List.length hrows.1).symm
      have hpairs : ∀ p ∈ w.queue.zip rows, Found V pick p.1.id p.2.2 := by
        intro p hp
        obtain ⟨i, hi, rfl⟩ := List.getElem_of_mem hp
        have hi' : i < w.queue.length ∧ i < rows.length := by simpa using hi
        have hid := congrArg (·[i]?) hrows.1
        simp only [List.getElem?_map, hi'.1, hi'.2, List.getElem?_eq_getElem, Option.map_some,
          Option.some.injEq] at hid
        simp only [List.getElem_zip]
        exact hid ▸ hrows.2 _ (List.getElem_mem hi'.2)
      refine (FoldM.inv (I := fun rest v => (∀ p ∈ rest, Found V pick p.1.id p.2.2) ∧
        I (rest.map (·.1)) v) hw' ⟨hpairs, ?_⟩ ?_).2
      · rw [List.map_fst_zip hlen.le]
        exact hround w h
      · rintro p rest v v' ⟨hrest, hv⟩ hv'
        exact ⟨fun q hq => hrest q (by simp [hq]),
          hvisit u p.1 _ p.2.2 v v' hu (hrest p (by simp)) hv hv'⟩

/-! ## Trees -/

theorem mem_sortDedup {l : List Oid} : x ∈ sortDedup l ↔ x ∈ l := by
  unfold sortDedup
  rw [List.mem_dedup, (List.perm_insertionSort _ _).mem_iff]

/-- The chunks of a round. The invariant is told which trees of the round are still to be
expanded. -/
theorem treeChunks_among {filter : Option Filter} {I : List (Oid × List Oid) → TreeWalk → Prop}
    (hchunk : ∀ u chunk rest rows w set w', V u → rows.map (·.1) = chunk.map (·.1) →
      (∀ p ∈ rows, Found V pick p.1 p.2) → (∀ i ∈ chunk, ∀ b ∈ i.2, MetObject V b) →
      I (chunk ++ rest) w → w.set.markAll u rows = .ok set →
      chunk.foldlM (expandTree objs filter) { w with set := set } = .ok w' → I rest w')
    (hs : V s) (cs : List (List (Oid × List Oid))) {w : TreeWalk} (h : I cs.flatten w) :
    Among V s (treeChunks objs pick filter cs w) fun _ w => I [] w := by
  induction cs generalizing s w with
  | nil => exact among_pure hs h
  | cons chunk cs ih =>
    unfold treeChunks
    refine (load_among hs _).bind fun u rows hu hrows => among_read_bind.mpr ?_
    refine (among_ofExcept hu (P := fun _ set => w.set.markAll u rows = .ok set)
      fun set hset => hset).bind fun t set ht hset => ?_
    refine (load_among ht _).bind fun t bases ht hbases => ?_
    refine (among_ofExcept ht (P := fun _ w => I cs.flatten w) fun w' hw' => ?_).bind
      fun t w' ht hw' => ih ht hw'
    refine hchunk u chunk _ rows w set w' hu hrows.1 hrows.2 (fun i hi b hb => ?_) h hset hw'
    exact met_of_rows hbases (mem_sortDedup.mpr (List.mem_flatMap.mpr ⟨i, hi, hb⟩))

/-- The loop over the trees, which ends with no tree left. -/
theorem walkTrees_among {filter : Option Filter} {I : List (Oid × List Oid) → TreeWalk → Prop}
    {K : TreeWalk → Prop} (hround : ∀ w, K w → I w.next { w with next := [], blobs := [] })
    (hchunk : ∀ u chunk rest rows w set w', V u → rows.map (·.1) = chunk.map (·.1) →
      (∀ p ∈ rows, Found V pick p.1 p.2) → (∀ i ∈ chunk, ∀ b ∈ i.2, MetObject V b) →
      I (chunk ++ rest) w → w.set.markAll u rows = .ok set →
      chunk.foldlM (expandTree objs filter) { w with set := set } = .ok w' → I rest w')
    (hblobs : ∀ u w set, V u → I [] w → markBlobs pick u filter w.set w.blobs = .ok set →
      K { w with set := set })
    (hs : V s) (n : ℕ) {w : TreeWalk} (h : K w) :
    Among V s (walkTrees objs pick filter n w) fun _ w => K w ∧ w.next = [] := by
  induction n generalizing s w with
  | zero => exact among_fail hs _
  | succ n ih =>
    unfold walkTrees
    split_ifs with he
    · exact among_pure hs ⟨h, List.isEmpty_iff.mp he⟩
    · have hnext : I (chunks walkChunk w.next).flatten { w with next := [], blobs := [] } := by
        rw [flatten_chunks (by decide)]
        exact hround w h
      refine (treeChunks_among hchunk hs _ hnext).bind fun u w' hu hw' => among_read_bind.mpr ?_
      exact (among_ofExcept hu (P := fun _ set => K { w' with set := set }) fun set hset =>
        hblobs u w' set hu hw' hset).bind fun t set ht hset => ih ht hset

end

end GitEdge
