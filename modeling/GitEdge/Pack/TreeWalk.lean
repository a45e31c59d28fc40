import GitEdge.Pack.TagWalk

/-!
# The walk over the trees

The fourth loop of `send_set`: each tree is expanded against the client's trees at its place. An
entry is dropped when the client's trees hold it, when it was seen before, or when the filter leaves
it out; at the end every tree that was met is marked and expanded, and what it holds is the
client's, marked, or left out by the filter (`walkTrees_inv`).
-/

namespace GitEdge

open Sql Process

variable {w w' : TreeWalk} {expanded : List Oid} {rest : List (Oid × List Oid)} {set : SendSet}
  {had : List TreeEntry} {e : TreeEntry}

section

variable (objs : Objects) (pick : Pick) (db : Db) (a : FetchArgs)

/-- The filter excludes the object. -/
def Excluded (x : Oid) : Prop :=
  objs.kind x = .blob ∧
    match a.filter with
    | none => False
    | some .blobNone => True
    | some (.blobLimit n) => n < objs.size x

/-- The object is taken care of: a tree is expanded or waits, a blob is marked, excluded or
waits. -/
def TreeWalk.Met (w : TreeWalk) (expanded : List Oid) (rest : List (Oid × List Oid)) (x : Oid) :
    Prop :=
  match objs.kind x with
  | .tree => x ∈ expanded ∨ x ∈ (rest ++ w.next).map (·.1)
  | .blob => x ∈ w.set.ids ∨ Excluded objs a x ∨ x ∈ w.blobs
  | _ => True

/-- What holds of the expansion: `ids₀` are the marks before it, `starts` the trees it begins with,
`expanded` the trees expanded so far, `rest` what is left of the round. -/
structure TreeInv (ids₀ starts expanded : List Oid) (rest : List (Oid × List Oid)) (w : TreeWalk) :
    Prop where
  faithful : Faithful db w.set
  ids : ids₀ ⊆ w.set.ids
  ids_tag : ∀ x ∈ w.set.ids, objs.kind x = .tag → x ∈ a.wants
  items : ∀ i ∈ rest ++ w.next, objs.kind i.1 = .tree ∧
    ∀ b ∈ i.2, objs.kind b = .tree ∧ Had objs pick db a b
  blobs : ∀ b ∈ w.blobs, objs.kind b = .blob
  starts : ∀ t ∈ starts, w.Met objs a expanded rest t
  seen : ∀ x ∈ w.seen, w.Met objs a expanded rest x
  expanded : ∀ t ∈ expanded, objs.kind t = .tree ∧ t ∈ w.set.ids ∧
    ∀ y, objs.Link t y → Had objs pick db a y ∨ w.Met objs a expanded rest y

end

section

variable {objs : Objects} {pick : Pick} {db : Db} {a : FetchArgs} {ids₀ starts : List Oid}

theorem link_tree {t x : Oid} (hk : objs.kind t = .tree) :
    objs.Link t x ↔ ∃ es, objs.tree t = some es ∧ ∃ e ∈ es, e.mode ≠ .commit ∧ e.oid = x := by
  unfold Objects.Link Objects.links
  rw [hk]
  cases objs.tree t <;> simp [and_assoc]

theorem typed_tree (htyped : db.WellTyped objs) {t : Oid} {es : List TreeEntry} (hl : db.Live t)
    (hk : objs.kind t = .tree) (hes : objs.tree t = some es) :
    ∀ e ∈ es, objs.kind e.oid = e.mode.kind := by
  have := htyped t hl
  unfold Objects.TypedAt at this
  rw [hk] at this
  exact this es hes

theorem TreeWalk.Met.mono {expanded' : List Oid} {rest' : List (Oid × List Oid)} {x : Oid}
    (h : w.Met objs a expanded rest x) (htree : ∀ t, t ∈ expanded ∨ t ∈ (rest ++ w.next).map (·.1) →
      t ∈ expanded' ∨ t ∈ (rest' ++ w'.next).map (·.1))
    (hblob : ∀ b, b ∈ w.set.ids ∨ Excluded objs a b ∨ b ∈ w.blobs →
      b ∈ w'.set.ids ∨ Excluded objs a b ∨ b ∈ w'.blobs) : w'.Met objs a expanded' rest' x := by
  unfold TreeWalk.Met at h ⊢
  cases hk : objs.kind x with
  | tree =>
    rw [hk] at h
    exact htree x h
  | blob =>
    rw [hk] at h
    exact hblob x h
  | commit => trivial
  | tag => trivial

/-- The invariant moves to a state in which no more waits, and no less is taken care of. -/
theorem TreeInv.mono {rest' : List (Oid × List Oid)}
    (h : TreeInv objs pick db a ids₀ starts expanded rest w) (hset : w'.set = w.set)
    (hseen : w'.seen = w.seen) (hitems : ∀ i, i ∈ rest' ++ w'.next ↔ i ∈ rest ++ w.next)
    (hblobs : ∀ b ∈ w'.blobs, b ∈ w.blobs)
    (hblob : ∀ b ∈ w.blobs, b ∈ w.set.ids ∨ Excluded objs a b ∨ b ∈ w'.blobs) :
    TreeInv objs pick db a ids₀ starts expanded rest' w' := by
  have hmet : ∀ x, w.Met objs a expanded rest x → w'.Met objs a expanded rest' x := by
    intro x hx
    refine hx.mono (fun t => ?_) fun b => ?_
    · refine Or.imp_right fun ht => ?_
      obtain ⟨i, hi, rfl⟩ := List.mem_map.mp ht
      exact List.mem_map_of_mem ((hitems i).mpr hi)
    · rw [hset]
      rintro (hb | hb | hb)
      · exact .inl hb
      · exact .inr (.inl hb)
      · exact hblob b hb
  exact
    { faithful := hset ▸ h.faithful, ids := hset ▸ h.ids, ids_tag := hset ▸ h.ids_tag
      items := fun i hi => h.items i ((hitems i).mp hi)
      blobs := fun b hb => h.blobs b (hblobs b hb)
      starts := fun t ht => hmet t (h.starts t ht)
      seen := fun x hx => hmet x (h.seen x (hseen ▸ hx))
      expanded := fun t ht => ⟨(h.expanded t ht).1, hset ▸ (h.expanded t ht).2.1,
        fun y hy => ((h.expanded t ht).2.2 y hy).imp_right (hmet y)⟩ }

/-- More marks keep the invariant, when no tag is marked. -/
theorem TreeInv.mark {new : List Oid} (h : TreeInv objs pick db a ids₀ starts expanded rest w)
    (hf : Faithful db set) (hids : set.ids = w.set.ids ++ new)
    (hnew : ∀ x ∈ new, objs.kind x ≠ .tag) :
    TreeInv objs pick db a ids₀ starts expanded rest { w with set := set } := by
  have hsub : w.set.ids ⊆ set.ids := by
    rw [hids]
    exact List.subset_append_left _ _
  have hmet : ∀ x, w.Met objs a expanded rest x →
      TreeWalk.Met objs a { w with set := set } expanded rest x :=
    fun x hx => hx.mono (fun _ => id) fun b hb => hb.imp_left (hsub ·)
  refine
    { faithful := hf, ids := fun x hx => hsub (h.ids hx), ids_tag := ?_
      items := h.items, blobs := h.blobs
      starts := fun t ht => hmet t (h.starts t ht)
      seen := fun x hx => hmet x (h.seen x hx)
      expanded := fun t ht => ⟨(h.expanded t ht).1, hsub (h.expanded t ht).2.1,
        fun y hy => ((h.expanded t ht).2.2 y hy).imp_right (hmet y)⟩ }
  intro x hx hk
  change x ∈ set.ids at hx
  rw [hids] at hx
  rcases List.mem_append.mp hx with hx | hx
  · exact h.ids_tag x hx hk
  · exact absurd hk (hnew x hx)

theorem mem_byName {name : String} {b : Oid} (h : b ∈ byName had name) :
    ∃ e ∈ had, e.mode = .tree ∧ e.oid = b := by
  unfold byName at h
  rw [Option.mem_toList, Option.map_eq_some_iff] at h
  obtain ⟨e, he, rfl⟩ := h
  have hmem := List.mem_filter.mp (List.mem_of_getLast? he)
  simp only [Bool.and_eq_true, decide_eq_true_eq] at hmem
  exact ⟨e, hmem.1, hmem.2.1, rfl⟩

/-- An entry that was not seen: it waits in one of the lists, or is excluded. -/
theorem TreeInv.add {v : TreeWalk} (h : TreeInv objs pick db a ids₀ starts expanded rest w)
    (hhad : ∀ b ∈ had, objs.kind b.oid = b.mode.kind ∧
      (b.mode ≠ .commit → Had objs pick db a b.oid)) (hkind : objs.kind e.oid = e.mode.kind)
    (hset : v.set = w.set) (hseen : v.seen = e.oid :: w.seen) (hnext : ∀ i ∈ w.next, i ∈ v.next)
    (hblobs : ∀ b ∈ w.blobs, b ∈ v.blobs)
    (hnext' : ∀ i ∈ v.next, i ∈ w.next ∨ i = (e.oid, byName had e.filename) ∧ e.mode = .tree)
    (hblobs' : ∀ b ∈ v.blobs, b ∈ w.blobs ∨ b = e.oid ∧ e.mode = .other)
    (he : v.Met objs a expanded rest e.oid) :
    TreeInv objs pick db a ids₀ starts expanded rest v ∧
      ∀ x, w.Met objs a expanded rest x → v.Met objs a expanded rest x := by
  have hmet : ∀ x, w.Met objs a expanded rest x → v.Met objs a expanded rest x := by
    intro x hx
    refine hx.mono (fun t => Or.imp_right fun ht => ?_) fun b => ?_
    · obtain ⟨i, hi, rfl⟩ := List.mem_map.mp ht
      refine List.mem_map_of_mem (List.mem_append.mpr ?_)
      exact (List.mem_append.mp hi).imp_right (hnext i)
    · rw [hset]
      exact Or.imp_right (Or.imp_right (hblobs b))
  refine ⟨?_, hmet⟩
  refine
    { faithful := hset ▸ h.faithful, ids := hset ▸ h.ids, ids_tag := hset ▸ h.ids_tag
      items := ?_, blobs := ?_
      starts := fun t ht => hmet t (h.starts t ht), seen := ?_
      expanded := fun t ht => ⟨(h.expanded t ht).1, hset ▸ (h.expanded t ht).2.1,
        fun y hy => ((h.expanded t ht).2.2 y hy).imp_right (hmet y)⟩ }
  · intro i hi
    rcases List.mem_append.mp hi with hi | hi
    · exact h.items i (List.mem_append_left _ hi)
    · rcases hnext' i hi with hi | ⟨rfl, hm⟩
      · exact h.items i (List.mem_append_right _ hi)
      · refine ⟨by rw [hkind, hm]; rfl, fun b hb => ?_⟩
        obtain ⟨f, hf, hfm, rfl⟩ := mem_byName hb
        refine ⟨by rw [(hhad f hf).1, hfm]; rfl, (hhad f hf).2 ?_⟩
        rw [hfm]
        simp
  · intro b hb
    rcases hblobs' b hb with hb | ⟨rfl, hm⟩
    · exact h.blobs b hb
    · rw [hkind, hm]
      rfl
  · intro x hx
    rw [hseen] at hx
    rcases List.mem_cons.mp hx with rfl | hx
    · exact he
    · exact hmet x (h.seen x hx)

/-- One entry of a tree: it is taken care of, and the invariant is kept. -/
theorem TreeInv.entry (h : TreeInv objs pick db a ids₀ starts expanded rest w)
    (hhad : ∀ b ∈ had, objs.kind b.oid = b.mode.kind ∧
      (b.mode ≠ .commit → Had objs pick db a b.oid)) (hkind : objs.kind e.oid = e.mode.kind)
    (hw : expandEntry had a.filter w e = .ok w') :
    TreeInv objs pick db a ids₀ starts expanded rest w' ∧ w'.set = w.set ∧
      (∀ x, w.Met objs a expanded rest x → w'.Met objs a expanded rest x) ∧
      (e.mode ≠ .commit → Had objs pick db a e.oid ∨ w'.Met objs a expanded rest e.oid) := by
  unfold expandEntry at hw
  by_cases hskip : e.mode = .commit || e.oid ∈ had.map (·.oid) || e.oid ∈ w.seen
  · rw [if_pos hskip] at hw
    cases hw
    refine ⟨h, rfl, fun _ => id, fun hmode => ?_⟩
    simp only [Bool.or_eq_true, decide_eq_true_eq] at hskip
    rcases hskip with (hskip | hskip) | hskip
    · exact absurd hskip hmode
    · -- An entry that is no gitlink is none in the client's tree, by its kind.
      obtain ⟨b, hb, hbe⟩ := List.mem_map.mp hskip
      obtain ⟨hbk, hbh⟩ := hhad b hb
      refine .inl (hbe ▸ hbh fun hbm => hmode ?_)
      rw [hbe, hbm, hkind] at hbk
      cases hm : e.mode with
      | commit => rfl
      | tree =>
        rw [hm] at hbk
        cases hbk
      | other =>
        rw [hm] at hbk
        cases hbk
    · exact .inr (h.seen _ hskip)
  · rw [if_neg hskip] at hw
    dsimp only at hw
    simp only [Bool.or_eq_true, decide_eq_true_eq, not_or] at hskip
    obtain ⟨⟨hmode, -⟩, -⟩ := hskip
    -- The entry is new: where it goes depends on its mode and on the filter.
    have hother : e.mode ≠ .tree → e.mode = .other := by
      cases hm : e.mode <;> simp_all
    split_ifs at hw with hmax htree hnone
    · cases hw
      have hadd := h.add (v := ⟨w.set, e.oid :: w.seen, w.next ++ [(e.oid, byName had e.filename)],
        w.blobs⟩) hhad hkind rfl rfl (by simp +contextual) (by simp)
        (by simp +contextual [htree, or_comm]) (by simp +contextual)
        (by simp [TreeWalk.Met, hkind, htree, Mode.kind])
      exact ⟨hadd.1, rfl, hadd.2, fun _ => .inr (hadd.1.seen _ (by simp))⟩
    · cases hw
      have hadd := h.add (v := ⟨w.set, e.oid :: w.seen, w.next, w.blobs⟩) hhad hkind rfl rfl
        (by simp) (by simp) (by simp +contextual) (by simp +contextual)
        (by simp [TreeWalk.Met, hkind, hother htree, Mode.kind, Excluded, hnone])
      exact ⟨hadd.1, rfl, hadd.2, fun _ => .inr (hadd.1.seen _ (by simp))⟩
    · cases hw
      have hadd := h.add (v := ⟨w.set, e.oid :: w.seen, w.next, w.blobs ++ [e.oid]⟩) hhad hkind rfl
        rfl (by simp) (by simp +contextual) (by simp +contextual)
        (by simp +contextual [hother htree, or_comm])
        (by simp [TreeWalk.Met, hkind, hother htree, Mode.kind])
      exact ⟨hadd.1, rfl, hadd.2, fun _ => .inr (hadd.1.seen _ (by simp))⟩

theorem mem_baseEntries {bases : List Oid} (h : baseEntries objs bases = .ok had) (he : e ∈ had) :
    ∃ b ∈ bases, ∃ es, objs.tree b = some es ∧ e ∈ es := by
  unfold baseEntries at h
  obtain ⟨l, hl, hpure⟩ := FoldM.bind_eq_ok.mp h
  cases hpure
  obtain ⟨es, hes, he⟩ := List.mem_flatten.mp he
  obtain ⟨b, hb, hbes⟩ := FoldM.mem_mapM hl hes
  cases htree : objs.tree b with
  | none => simp [htree] at hbes
  | some es' =>
    simp only [htree, Option.elim_some, Except.ok.injEq] at hbes
    exact ⟨b, hb, es', htree, hbes ▸ he⟩

/-- The expansion of a tree. -/
theorem TreeInv.expand (htyped : db.WellTyped objs) {item : Oid × List Oid}
    (h : TreeInv objs pick db a ids₀ starts expanded (item :: rest) w) (hids : item.1 ∈ w.set.ids)
    (hlive : db.Live item.1) (hbases : ∀ b ∈ item.2, db.Live b)
    (hw : expandTree objs a.filter w item = .ok w') :
    TreeInv objs pick db a ids₀ starts (item.1 :: expanded) rest w' ∧ w'.set = w.set := by
  obtain ⟨hkind, hitem⟩ := h.items item (by simp)
  unfold expandTree at hw
  obtain ⟨had, hhad, hw⟩ := FoldM.bind_eq_ok.mp hw
  have hhad' : ∀ e ∈ had, objs.kind e.oid = e.mode.kind ∧
      (e.mode ≠ .commit → Had objs pick db a e.oid) := by
    intro e he
    obtain ⟨b, hb, es, hes, hee⟩ := mem_baseEntries hhad he
    obtain ⟨hbk, hbh⟩ := hitem b hb
    refine ⟨typed_tree htyped (hbases b hb) hbk hes e hee, fun hm => hbh.tail ?_⟩
    exact (link_tree hbk).mpr ⟨es, hes, e, hee, hm, rfl⟩
  cases hes : objs.tree item.1 with
  | none => simp [hes] at hw
  | some es =>
    simp only [hes] at hw
    have hkinds := typed_tree htyped hlive hkind hes
    -- The tree waits until its last entry is taken care of.
    have key : TreeInv objs pick db a ids₀ starts expanded (item :: rest) w' ∧ w'.set = w.set ∧
        ∀ e ∈ es, e ∈ ([] : List TreeEntry) ∨ e.mode = .commit ∨ Had objs pick db a e.oid ∨
          w'.Met objs a expanded (item :: rest) e.oid := by
      have := FoldM.inv (I := fun todo v => (∀ e ∈ todo, e ∈ es) ∧
        TreeInv objs pick db a ids₀ starts expanded (item :: rest) v ∧ v.set = w.set ∧
        ∀ e ∈ es, e ∈ todo ∨ e.mode = .commit ∨ Had objs pick db a e.oid ∨
          v.Met objs a expanded (item :: rest) e.oid) hw
        ⟨fun _ => id, h, rfl, fun _ he => .inl he⟩ ?_
      · exact this.2
      · rintro e todo v v' ⟨htodo, hv, hset, hdone⟩ hve
        obtain ⟨hv', hset', hmono, hmet⟩ := hv.entry hhad' (hkinds e (htodo e (by simp))) hve
        refine ⟨fun f hf => htodo f (by simp [hf]), hv', hset'.trans hset, fun f hf => ?_⟩
        rcases hdone f hf with hf | hf | hf | hf
        · rcases List.mem_cons.mp hf with rfl | hf
          · exact .inr (or_iff_not_imp_left.mpr hmet)
          · exact .inl hf
        · exact .inr (.inl hf)
        · exact .inr (.inr (.inl hf))
        · exact .inr (.inr (.inr (hmono _ hf)))
    obtain ⟨hinv, hset, hall⟩ := key
    have hmet : ∀ x, w'.Met objs a expanded (item :: rest) x →
        w'.Met objs a (item.1 :: expanded) rest x := by
      intro x hx
      refine hx.mono (fun t => ?_) fun _ => id
      simp only [List.cons_append, List.map_cons, List.mem_cons]
      tauto
    refine ⟨?_, hset⟩
    refine
      { faithful := hinv.faithful, ids := hinv.ids, ids_tag := hinv.ids_tag
        items := fun i hi => hinv.items i (List.mem_cons_of_mem _ hi), blobs := hinv.blobs
        starts := fun t ht => hmet t (hinv.starts t ht)
        seen := fun x hx => hmet x (hinv.seen x hx), expanded := ?_ }
    intro t ht
    rcases List.mem_cons.mp ht with rfl | ht
    · refine ⟨hkind, hset ▸ hids, fun y hy => ?_⟩
      obtain ⟨es', hes', e, he, hm, rfl⟩ := (link_tree hkind).mp hy
      cases hes.symm.trans hes'
      rcases hall e he with hf | hf | hf | hf
      · cases hf
      · exact absurd hf hm
      · exact .inl hf
      · exact .inr (hmet _ hf)
    · obtain ⟨h₁, h₂, h₃⟩ := hinv.expanded t ht
      exact ⟨h₁, h₂, fun y hy => (h₃ y hy).imp_right (hmet y)⟩

/-- The trees of a chunk are marked, then expanded one after the other. -/
theorem TreeInv.chunk (htyped : db.WellTyped objs) {chunk : List (Oid × List Oid)}
    {rows : List (Oid × ObjRow)} (hfst : rows.map (·.1) = chunk.map (·.1))
    (hrows : ∀ p ∈ rows, pick.row db p.1 = some p.2) (hbases : ∀ i ∈ chunk, ∀ b ∈ i.2, db.Live b)
    (h : TreeInv objs pick db a ids₀ starts expanded (chunk ++ rest) w)
    (hset : w.set.markAll db rows = .ok set)
    (hw : chunk.foldlM (expandTree objs a.filter) { w with set := set } = .ok w') :
    ∃ expanded, TreeInv objs pick db a ids₀ starts expanded rest w' := by
  obtain ⟨hf, hids⟩ := h.faithful.markAll hrows hset
  rw [hfst] at hids
  have hmarked : TreeInv objs pick db a ids₀ starts expanded (chunk ++ rest)
      { w with set := set } := by
    refine TreeInv.mark h hf hids fun x hx => ?_
    obtain ⟨i, hi, rfl⟩ := List.mem_map.mp hx
    rw [(h.items i (by simp [hi])).1]
    simp
  have hlive : ∀ i ∈ chunk, db.Live i.1 := by
    intro i hi
    have hi := List.mem_map_of_mem (f := (·.1)) hi
    rw [← hfst] at hi
    obtain ⟨p, hp, hid⟩ := List.mem_map.mp hi
    exact hid ▸ Choice.live (hrows p hp)
  refine (FoldM.inv (I := fun todo v => v.set = set ∧ (∀ i ∈ todo, i ∈ chunk) ∧
    ∃ expanded, TreeInv objs pick db a ids₀ starts expanded (todo ++ rest) v) hw
    ⟨rfl, fun _ => id, expanded, hmarked⟩ ?_).2.2
  rintro item todo v v' ⟨hset, htodo, expanded, hv⟩ hvi
  have hmem := htodo item (by simp)
  have hexp := hv.expand htyped
    (by rw [hset, hids]; exact List.mem_append_right _ (List.mem_map_of_mem hmem))
    (hlive item hmem) (hbases item hmem) hvi
  exact ⟨hexp.2.trans hset, fun i hi => htodo i (by simp [hi]), _, hexp.1⟩

/-- The blobs of a round are marked, but for those that the filter excludes. -/
theorem TreeInv.markBlobs (hdesc : db.Describes objs)
    (h : TreeInv objs pick db a ids₀ starts expanded [] w)
    (hset : markBlobs pick db a.filter w.set w.blobs = .ok set) :
    TreeInv objs pick db a ids₀ starts expanded [] { w with set := set, blobs := [] } := by
  refine FoldM.inv (I := fun todo set => TreeInv objs pick db a ids₀ starts expanded []
    { w with set := set, blobs := todo }) hset h ?_
  intro b todo v v' hv hvb
  have hb := hv.blobs b (by simp)
  cases hrow : pick.row db b with
  | none => simp [hrow] at hvb
  | some loc =>
    simp only [hrow] at hvb
    -- Once the blob is marked or excluded it no longer has to wait.
    have hdrop : ∀ v', TreeInv objs pick db a ids₀ starts expanded []
        { w with set := v', blobs := b :: todo } → (b ∈ v'.ids ∨ Excluded objs a b) →
        TreeInv objs pick db a ids₀ starts expanded [] { w with set := v', blobs := todo } := by
      intro v' hv' hor
      refine hv'.mono rfl rfl (fun _ => Iff.rfl) (fun c hc => by simp [show c ∈ todo from hc])
        fun c hc => ?_
      rcases List.mem_cons.mp hc with rfl | hc
      · exact hor.imp_right .inl
      · exact .inr (.inr hc)
    have hmark : v.mark db b loc = .ok v' → TreeInv objs pick db a ids₀ starts expanded []
        { w with set := v', blobs := todo } := by
      intro hm
      obtain ⟨hf, hids⟩ := hv.faithful.mark hrow hm
      have hids : v'.ids = v.ids ++ [b] := hids
      refine hdrop v' (TreeInv.mark hv hf hids fun x hx => ?_) ?_
      · rw [List.mem_singleton.mp hx, hb]
        simp
      · exact .inl (by simp [hids])
    cases hfil : a.filter with
    | none =>
      simp only [hfil] at hvb
      exact hmark hvb
    | some f =>
      cases f with
      | blobNone =>
        simp only [hfil] at hvb
        exact hmark hvb
      | blobLimit n =>
        simp only [hfil] at hvb
        split_ifs at hvb with hn
        · cases hvb
          obtain ⟨hmem, hsha, -⟩ := pick.mem hrow
          have hsize : loc.size = objs.size b := hsha ▸ (hdesc loc hmem).2
          refine hdrop v hv (.inr ⟨hb, ?_⟩)
          rw [hfil]
          exact hsize ▸ hn
        · exact hmark hvb

/-- The walk ends with every tree that was met expanded. -/
theorem walkTrees_inv (htyped : db.WellTyped objs) (hdesc : db.Describes objs) (n : ℕ)
    (h : TreeInv objs pick db a ids₀ starts expanded [] { w with blobs := [] }) :
    Among (· = db) db (walkTrees objs pick a.filter n w) fun _ w =>
      (∃ expanded, TreeInv objs pick db a ids₀ starts expanded [] { w with blobs := [] }) ∧
        w.next = [] := by
  refine walkTrees_among (V := (· = db)) (I := fun rest w => ∃ expanded,
    TreeInv objs pick db a ids₀ starts expanded rest w) (K := fun w => ∃ expanded,
    TreeInv objs pick db a ids₀ starts expanded [] { w with blobs := [] }) ?_ ?_ ?_ rfl n
    ⟨expanded, h⟩
  · rintro w ⟨expanded, hw⟩
    exact ⟨expanded, hw.mono rfl rfl (by simp) (fun _ => id) fun _ hb => absurd hb (by simp)⟩
  · rintro u chunk rest rows w set w' rfl hfst hrows hbases ⟨expanded, hw⟩ hset hw'
    refine hw.chunk htyped hfst (fun p hp => ?_) (fun i hi b hb => ?_) hset hw'
    · obtain ⟨_, rfl, hrow⟩ := hrows p hp
      exact hrow
    · obtain ⟨_, rfl, hlive⟩ := hbases i hi b hb
      exact hlive
  · rintro u w set rfl ⟨expanded, hw⟩ hset
    have hmarked := hw.markBlobs hdesc hset
    exact ⟨expanded, hmarked⟩

end

end GitEdge
