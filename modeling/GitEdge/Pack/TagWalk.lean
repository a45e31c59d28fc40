import GitEdge.Pack.Loops

/-!
# The walk over the tags

The first two loops of `send_set`: every want is marked and goes to the loop for its kind, and so
does the target of every tag, which is marked only when it is a blob. At the end every tag that was
met is peeled (`peelTags_inv`).

The links are taken to have the kinds that they say (`Db.WellTyped`), since the loops go by the kind
that a link claims.
-/

namespace GitEdge

open Sql Process

variable {peeled : List Oid} {w w' : WantWalk} {x t : Oid} {d : TagData}

/-! ## What is asked -/

/-- The kind of object that an entry with this mode names. -/
def Mode.kind : Mode → Kind
  | .tree => .tree
  | .commit => .commit
  | .other => .blob

/-- The links of the object have the kinds that they say. -/
def Objects.TypedAt (objs : Objects) (x : Oid) : Prop :=
  match objs.kind x with
  | .commit => ∀ c, objs.commit x = some c →
      objs.kind c.tree = .tree ∧ ∀ p ∈ c.parents, objs.kind p = .commit
  | .tree => ∀ es, objs.tree x = some es → ∀ e ∈ es, objs.kind e.oid = e.mode.kind
  | .blob => True
  | .tag => ∀ t, objs.tag x = some t → objs.kind t.target = t.target_kind

/-- Every live object is typed. -/
def Db.WellTyped (db : Db) (objs : Objects) : Prop := ∀ x, db.Live x → objs.TypedAt x

/-- The haves that the server holds. -/
def FetchArgs.acks (a : FetchArgs) (pick : Pick) (db : Db) : List Oid :=
  a.haves.filter fun h => (pick.row db h).isSome

section

variable (objs : Objects) (pick : Pick) (db : Db) (a : FetchArgs)

/-- The client has the object: one of its haves that the server holds reaches it. -/
def Had (x : Oid) : Prop := Reach.From objs.Link (· ∈ a.acks pick db) x

/-- A link that the walk over tags and commits follows: any link of a tag, and the parents of a
commit that the client does not have, unless the client has the parent. -/
def WalkLink (x y : Oid) : Prop :=
  objs.Link x y ∧ (objs.kind x = .tag ∨
    objs.kind x = .commit ∧ x ∉ a.acks pick db ∧ y ∉ a.acks pick db ∧ objs.kind y = .commit)

/-! ## Wants and tags -/

/-- The object went to the loop for its kind; a blob, which has none, is marked. -/
def Placed (peeled : List Oid) (w : WantWalk) (x : Oid) : Prop :=
  match objs.kind x with
  | .commit => x ∈ w.commits
  | .tree => x ∈ w.trees
  | .blob => db.Live x → x ∈ w.set.ids
  | .tag => x ∈ w.tags ∨ x ∈ peeled

/-- What holds of the first two loops: `done` are the wants taken so far, `peeled` the tags. -/
structure WantInv (done peeled : List Oid) (w : WantWalk) : Prop where
  faithful : Faithful db w.set
  wants : ∀ x ∈ done, x ∈ w.set.ids ∧ Placed objs db peeled w x
  targets : ∀ t ∈ peeled, ∀ x, objs.Link t x → Placed objs db peeled w x
  peeled_kind : ∀ t ∈ peeled, objs.kind t = .tag
  ids_tag : ∀ x ∈ w.set.ids, objs.kind x = .tag → x ∈ a.wants
  commits : ∀ c ∈ w.commits,
    objs.kind c = .commit ∧ Reach.From (WalkLink objs pick db a) (· ∈ a.wants) c
  trees : ∀ t ∈ w.trees, objs.kind t = .tree
  tags : ∀ t ∈ w.tags, objs.kind t = .tag ∧ Reach.From (WalkLink objs pick db a) (· ∈ a.wants) t
  sent : ∀ x ∈ w.sent, x ∈ a.wants ∧ objs.kind x = .commit
  want_sent : ∀ x ∈ done, objs.kind x = .commit → x ∈ w.sent
  seen : ∀ x ∈ w.seen, x ∈ done ∨ objs.kind x = .blob ∧ x ∈ w.set.ids

end

section

variable {objs : Objects} {pick : Pick} {db : Db} {a : FetchArgs}

theorem Placed.mono {peeled' : List Oid} (h : Placed objs db peeled w x)
    (hcommits : w.commits ⊆ w'.commits) (htrees : w.trees ⊆ w'.trees)
    (hids : w.set.ids ⊆ w'.set.ids)
    (htags : ∀ t, t ∈ w.tags ∨ t ∈ peeled → t ∈ w'.tags ∨ t ∈ peeled') :
    Placed objs db peeled' w' x := by
  unfold Placed at h ⊢
  cases hk : objs.kind x with
  | commit =>
    rw [hk] at h
    exact hcommits h
  | tree =>
    rw [hk] at h
    exact htrees h
  | blob =>
    rw [hk] at h
    exact fun hl => hids (h hl)
  | tag =>
    rw [hk] at h
    exact htags x h

/-- What goes to the loop for its kind is placed, if it is marked when it is a live blob. -/
theorem Goes.placed (h : Goes w (objs.kind x) x w')
    (hblob : objs.kind x = .blob → db.Live x → x ∈ w'.set.ids) : Placed objs db peeled w' x := by
  unfold Placed
  cases hk : objs.kind x with
  | commit => exact (h.commits x).mpr (.inr ⟨rfl, hk⟩)
  | tree => exact (h.trees x).mpr (.inr ⟨rfl, hk⟩)
  | blob => exact hblob hk
  | tag => exact .inl ((h.tags x).mpr (.inr ⟨rfl, hk⟩))

/-- A want goes to the loop for its kind. -/
theorem WantInv.take (hdesc : db.Describes objs) {done : List Oid} {id : Oid} {loc : ObjRow}
    (hid : id ∈ a.wants) (h : WantInv objs pick db a done [] w) (hrow : pick.row db id = some loc)
    (hw : Takes db w id loc w') : WantInv objs pick db a (id :: done) [] w' := by
  obtain ⟨hf, hids⟩ := h.faithful.mark hrow hw.set
  obtain ⟨hmem, hsha, -⟩ := pick.mem hrow
  have hkind : loc.kind = objs.kind id := hsha ▸ (hdesc loc hmem).1
  obtain ⟨hset, hgoes, hsent, hseen⟩ := hw
  rw [hkind] at hgoes hsent
  have hsub : w.set.ids ⊆ w'.set.ids := by
    rw [hids]
    exact List.subset_append_left _ _
  have hidmem : id ∈ w'.set.ids := by simp [hids]
  refine
    { faithful := hf, wants := fun x hx => ?_, targets := by simp, peeled_kind := by simp
      ids_tag := fun x hx hk => ?_, commits := fun c hc => ?_, trees := fun t ht => ?_
      tags := fun t ht => ?_, sent := fun x hx => ?_, want_sent := fun x hx hk => ?_
      seen := fun x hx => ?_ }
  · rcases List.mem_cons.mp hx with rfl | hx
    · exact ⟨hidmem, hgoes.placed fun _ _ => hidmem⟩
    · obtain ⟨hx, hplaced⟩ := h.wants x hx
      exact ⟨hsub hx, hplaced.mono (fun y hy => (hgoes.commits y).mpr (.inl hy))
        (fun y hy => (hgoes.trees y).mpr (.inl hy)) hsub
        fun t ht => ht.imp_left fun ht => (hgoes.tags t).mpr (.inl ht)⟩
  · rw [hids] at hx
    rcases List.mem_append.mp hx with hx | hx
    · exact h.ids_tag x hx hk
    · exact List.mem_singleton.mp hx ▸ hid
  · rcases (hgoes.commits c).mp hc with hc | ⟨rfl, hk⟩
    · exact h.commits c hc
    · exact ⟨hk, .start hid⟩
  · rcases (hgoes.trees t).mp ht with ht | ⟨rfl, hk⟩
    · exact h.trees t ht
    · exact hk
  · rcases (hgoes.tags t).mp ht with ht | ⟨rfl, hk⟩
    · exact h.tags t ht
    · exact ⟨hk, .start hid⟩
  · rcases (hsent x).mp hx with hx | ⟨rfl, hk⟩
    · exact h.sent x hx
    · exact ⟨hid, hk⟩
  · rcases List.mem_cons.mp hx with rfl | hx
    · exact (hsent x).mpr (.inr ⟨rfl, hk⟩)
    · exact (hsent x).mpr (.inl (h.want_sent x hx hk))
  · rcases (hseen x).mp hx with hx | rfl
    · exact (h.seen x hx).imp (fun hx => by simp [hx]) fun hx => ⟨hx.1, hsub hx.2⟩
    · exact .inl (by simp)

/-- The wants that are taken go to the loops for their kinds. -/
theorem takeWants_inv (hdesc : db.Describes objs)
    (hw : a.wants.foldlM (takeWant pick db) ⟨.walk, [], [], [], [], []⟩ = .ok w) :
    WantInv objs pick db a a.wants [] w := by
  have hempty : WantInv objs pick db a [] [] ⟨.walk, [], [], [], [], []⟩ := by
    refine ⟨faithful_walk db, ?_, ?_, ?_, ?_, ?_, ?_, ?_, ?_, ?_, ?_⟩ <;>
      simp [SendSet.walk, SendSet.ids]
  have key := FoldM.inv (I := fun rest w => ∃ done, (∀ x, x ∈ a.wants ↔ x ∈ done ∨ x ∈ rest) ∧
    WantInv objs pick db a done [] w) hw ⟨[], by simp, hempty⟩ ?_
  · obtain ⟨done, hdone, h⟩ := key
    have hsub : ∀ x, x ∈ a.wants ↔ x ∈ done := fun x => by simpa using hdone x
    exact { h with
      wants := fun x hx => h.wants x ((hsub x).mp hx)
      want_sent := fun x hx => h.want_sent x ((hsub x).mp hx)
      seen := fun x hx => (h.seen x hx).imp_left (hsub x).mpr }
  · rintro id rest w w' ⟨done, hdone, h⟩ hid
    obtain ⟨loc, hrow, htakes⟩ := takeWant_ok hid
    refine ⟨id :: done, fun x => ?_, h.take hdesc ((hdone id).mpr (by simp)) hrow htakes⟩
    rw [hdone x]
    simp only [List.mem_cons]
    tauto

theorem link_tag (hk : objs.kind t = .tag) :
    objs.Link t x ↔ ∃ d, objs.tag t = some d ∧ x = d.target := by
  unfold Objects.Link Objects.links
  rw [hk]
  cases objs.tag t <;> simp

theorem typed_tag (htyped : db.WellTyped objs) (hl : db.Live t) (hk : objs.kind t = .tag)
    (hd : objs.tag t = some d) : objs.kind d.target = d.target_kind := by
  have := htyped t hl
  unfold Objects.TypedAt at this
  rw [hk] at this
  exact this d hd

/-- The marks after a tag: those before it, and its target when that is a live blob. -/
theorem Peels.marks (h : Peels pick db w d w') (hf : Faithful db w.set) :
    Faithful db w'.set ∧ w.set.ids ⊆ w'.set.ids ∧
      (∀ y ∈ w'.set.ids, y ∈ w.set.ids ∨ y = d.target ∧ d.target_kind = .blob) ∧
      (d.target_kind = .blob → db.Live d.target → d.target ∈ w'.set.ids) ∧
      ∀ y ∈ w'.seen, y ∈ w.seen ∨ y = d.target ∧ d.target_kind = .blob ∧ y ∈ w'.set.ids := by
  rcases h.set with ⟨hset, hseen, hnone⟩ | ⟨hk, hseen, loc, hrow, hset⟩
  · rw [hset, hseen]
    refine ⟨hf, fun _ => id, fun _ => .inl, fun hk hl => ?_, fun _ => .inl⟩
    obtain ⟨r, hr⟩ := pick.some_of_live hl
    rw [hnone hk] at hr
    cases hr
  · obtain ⟨hf', hids⟩ := hf.mark hrow hset
    rw [hids]
    refine ⟨hf', List.subset_append_left _ _, fun y hy => ?_, fun _ _ => by simp, fun y hy => ?_⟩
    · exact (List.mem_append.mp hy).imp_right fun hy => ⟨List.mem_singleton.mp hy, hk⟩
    · exact ((hseen y).mp hy).imp_right fun hy => ⟨hy, hk, by simp [hy]⟩

/-- A tag that is peeled: its target goes to the loop for its kind. -/
theorem WantInv.peel (htyped : db.WellTyped objs) {rest : List Oid}
    (h : WantInv objs pick db a a.wants peeled { w with tags := w.tags ++ t :: rest })
    (hlive : db.Live t) (hd : objs.tag t = some d) (hw : Peels pick db w d w') :
    WantInv objs pick db a a.wants (t :: peeled) { w' with tags := w'.tags ++ rest } := by
  obtain ⟨htk, hreach⟩ := h.tags t (by simp)
  have htarget := typed_tag htyped hlive htk hd
  have hlink : ∀ x, objs.Link t x ↔ x = d.target := by
    intro x
    rw [link_tag htk, hd]
    simp
  have hwalk : Reach.From (WalkLink objs pick db a) (· ∈ a.wants) d.target :=
    hreach.tail ⟨(hlink _).mpr rfl, .inl htk⟩
  obtain ⟨hf, hsub, hids, hblob, hseen⟩ := hw.marks h.faithful
  obtain ⟨hgoes, hsent, -⟩ := hw
  rw [← htarget] at hgoes hids hblob hseen
  have hmono : ∀ x, Placed objs db peeled { w with tags := w.tags ++ t :: rest } x →
      Placed objs db (t :: peeled) { w' with tags := w'.tags ++ rest } x := by
    intro x hx
    refine hx.mono (fun y hy => (hgoes.commits y).mpr (.inl hy))
      (fun y hy => (hgoes.trees y).mpr (.inl hy)) hsub fun y hy => ?_
    simp only [List.mem_append, List.mem_cons, hgoes.tags] at hy ⊢
    tauto
  have hplaced : Placed objs db (t :: peeled) { w' with tags := w'.tags ++ rest } d.target :=
    Placed.mono (hgoes.placed hblob) (fun _ => id) (fun _ => id) (fun _ => id)
      fun y hy => hy.imp_left fun hy => List.mem_append_left _ hy
  refine
    { faithful := hf, wants := fun x hx => ⟨hsub (h.wants x hx).1, hmono x (h.wants x hx).2⟩
      targets := fun t' ht' x hx => ?_, peeled_kind := fun t' ht' => ?_
      ids_tag := fun x hx hk => ?_, commits := fun c hc => ?_, trees := fun x hx => ?_
      tags := fun x hx => ?_, sent := hsent ▸ h.sent, want_sent := hsent ▸ h.want_sent
      seen := fun x hx => ?_ }
  · rcases List.mem_cons.mp ht' with rfl | ht'
    · exact (hlink x).mp hx ▸ hplaced
    · exact hmono x (h.targets t' ht' x hx)
  · rcases List.mem_cons.mp ht' with rfl | ht'
    · exact htk
    · exact h.peeled_kind t' ht'
  · rcases hids x hx with hx | ⟨rfl, hblob⟩
    · exact h.ids_tag x hx hk
    · rw [hk] at hblob
      cases hblob
  · rcases (hgoes.commits c).mp hc with hc | ⟨rfl, hk⟩
    · exact h.commits c hc
    · exact ⟨hk, hwalk⟩
  · rcases (hgoes.trees x).mp hx with hx | ⟨rfl, hk⟩
    · exact h.trees x hx
    · exact hk
  · rcases List.mem_append.mp hx with hx | hx
    · rcases (hgoes.tags x).mp hx with hx | ⟨rfl, hk⟩
      · exact h.tags x (by simp [hx])
      · exact ⟨hk, hwalk⟩
    · exact h.tags x (by simp [hx])
  · rcases hseen x hx with hx | ⟨rfl, hk, hx⟩
    · exact (h.seen x hx).imp_right fun hx => ⟨hx.1, hsub hx.2⟩
    · exact .inr ⟨hk, hx⟩

/-- The loop over the tags ends with no tag left. -/
theorem peelTags_inv (htyped : db.WellTyped objs) (n : ℕ)
    (h : WantInv objs pick db a a.wants [] w) :
    Among (· = db) db (peelTags objs pick n w) fun _ w =>
      (∃ peeled, WantInv objs pick db a a.wants peeled w) ∧ w.tags = [] := by
  refine (peelTags_among (V := (· = db)) (I := fun rest w => ∃ peeled,
    WantInv objs pick db a a.wants peeled { w with tags := w.tags ++ rest })
    (fun w hw => by simpa using hw) ?_ rfl n ⟨[], by simpa using h⟩).mono
    fun t w _ hw => by simpa using hw
  rintro u t rest v d v' rfl ⟨_, rfl, hlive⟩ ⟨peeled, hv⟩ hd hpeels
  exact ⟨t :: peeled, hv.peel htyped hlive hd hpeels⟩

end

end GitEdge
