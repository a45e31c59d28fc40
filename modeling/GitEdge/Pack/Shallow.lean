import GitEdge.Pack.Rounds

/-!
# Shallow fetches

What `send_set` tells a client about the commits: which it sends, which become shallow, and which
are no longer so. The commits are what the search of `walkRules` takes, from the wanted commits and
from those that a wanted chain of tags peels to (`sendSet_answers`), in whatever states the walk is
resumed.
-/

namespace GitEdge

open Sql Process

variable {objs : Objects} {x id : Oid} {done acks : List Oid} {w : WantWalk}
  {set set' set'' : SendSet} {loc : ObjRow} {filter : Option Filter}

/-! ## The objects -/

/-- The rows and the links of the states that a fetch meets say the kinds of the objects. For a fetch
with `include-tag`, a ref with a peeled id names a tag besides; the server takes the peeled id from
the client. -/
structure SaysKinds (V : Db → Prop) (objs : Objects) (a : FetchArgs) : Prop where
  describes : ∀ s, V s → s.Describes objs
  typed : ∀ s, V s → s.WellTyped objs
  tags : a.include_tag = true → ∀ s, V s → ∀ p ∈ s.tagPairs, objs.kind p.1 = .tag

/-- `p` is a parent of the commit `x`. -/
def Objects.ParentOf (objs : Objects) (x p : Oid) : Prop := ∃ c, objs.commit x = some c ∧
    p ∈ c.parents

/-- The chain of tags from `t` peels to the commit `x`. -/
inductive PeelsTo (objs : Objects) : Oid → Oid → Prop
  | commit {t x : Oid} (h : objs.tag t = some ⟨.commit, x⟩) : PeelsTo objs t x
  | tag {t u x : Oid} (h : objs.tag t = some ⟨.tag, u⟩) (hu : PeelsTo objs u x) : PeelsTo objs t x

/-- The commits that are asked for: those of `wants`, and those that its tags peel to. -/
def Asked (objs : Objects) (wants : List Oid) (x : Oid) : Prop :=
  (x ∈ wants ∧ objs.kind x = .commit) ∨ ∃ t ∈ wants, objs.kind t = .tag ∧ PeelsTo objs t x

/-- The commits that a set sends. -/
def SendSet.Commits (objs : Objects) (set : SendSet) (x : Oid) : Prop :=
  x ∈ set.ids ∧ objs.kind x = .commit

theorem peelsTo_iff {t : Oid} {d : TagData} (h : objs.tag t = some d) :
    PeelsTo objs t x ↔
      (d.target_kind = .commit ∧ d.target = x) ∨
      (d.target_kind = .tag ∧ PeelsTo objs d.target x) := by
  constructor
  · rintro (h' | ⟨h', hu⟩)
    · rw [h] at h'
      cases h'
      exact .inl ⟨rfl, rfl⟩
    · rw [h] at h'
      cases h'
      exact .inr ⟨rfl, hu⟩
  · obtain ⟨k, y⟩ := d
    rintro (⟨rfl, rfl⟩ | ⟨rfl, hu⟩)
    · exact .commit h
    · exact .tag h hu

/-! ## Wants and tags -/

section Wants

variable {V : Db → Prop} {pick : Pick} {a : FetchArgs} {s : Db}

variable (objs) in
/-- What the first two loops have collected: `done` are the wants taken so far, and `pending` the
tags that are still to be peeled in this round. -/
structure Wanted (done pending : List Oid) (w : WantWalk) : Prop where
  walk : w.set.shas.isSome = true
  shallow : w.set.shallow = [] ∧ w.set.unshallow = []
  sent : ∀ x, x ∈ w.sent ↔ x ∈ done ∧ objs.kind x = .commit
  asked : ∀ x, (x ∈ w.commits ∨ ∃ t ∈ w.tags ++ pending, PeelsTo objs t x) ↔ Asked objs done x
  commits : ∀ x ∈ w.commits, objs.kind x = .commit
  trees : ∀ x ∈ w.trees, objs.kind x = .tree
  tags : ∀ t ∈ w.tags ++ pending, objs.kind t = .tag
  ids : ∀ x ∈ w.set.ids, objs.kind x = .commit → x ∈ w.sent
  marked : ∀ x ∈ w.sent, x ∈ w.set.ids

theorem asked_snoc : Asked objs (done ++ [id]) x ↔
    Asked objs done x ∨ (x = id ∧ objs.kind x = .commit) ∨
    (objs.kind id = .tag ∧ PeelsTo objs id x) := by
  simp only [Asked, List.mem_append, List.mem_singleton, or_and_right, exists_or, exists_eq_left]
  rw [or_or_or_comm]

/-- A mark on an object: the commits that are marked are those that are sent, if the object is sent
when it is a commit. -/
theorem Wanted.mark {pending : List Oid} (h : Wanted objs done pending w)
    (hset : w.set.mark s id loc = .ok set) {sent : List Oid} (hsub : ∀ x ∈ w.sent, x ∈ sent)
    (hsent : ∀ x ∈ sent, x ∈ w.sent ∨ x = id) (hid : objs.kind id = .commit → id ∈ sent) :
    (set.shas.isSome = true ∧ set.shallow = [] ∧ set.unshallow = []) ∧
      (∀ x ∈ set.ids, objs.kind x = .commit → x ∈ sent) ∧ ∀ x ∈ sent, x ∈ set.ids := by
  obtain ⟨hwalk, hids, hsh, hun⟩ := SendSet.mark_ids h.walk hset
  rw [hids]
  refine ⟨⟨hwalk, hsh.trans h.shallow.1, hun.trans h.shallow.2⟩, fun x hx hk => ?_, fun x hx => ?_⟩
  · rcases List.mem_append.mp hx with hx | hx
    · exact hsub x (h.ids x hx hk)
    · obtain rfl := List.mem_singleton.mp hx
      exact hid hk
  · rcases hsent x hx with hx | rfl
    · exact List.mem_append_left _ (h.marked x hx)
    · simp

/-- A want is marked, and goes to the loop for its kind. -/
theorem Wanted.take (hdesc : s.Describes objs) {w' : WantWalk} (h : Wanted objs done [] w)
    (hrow : pick.row s id = some loc) (hw : Takes s w id loc w') :
    Wanted objs (done ++ [id]) [] w' := by
  obtain ⟨hmem, hsha, -⟩ := pick.mem hrow
  have hkind : loc.kind = objs.kind id := hsha ▸ (hdesc loc hmem).1
  obtain ⟨hset, hgoes, hsent, -⟩ := hw
  rw [hkind] at hgoes hsent
  obtain ⟨⟨hwalk, hbounds⟩, hids, hmarked⟩ := h.mark hset
    (fun x hx => (hsent x).mpr (.inl hx)) (fun x hx => ((hsent x).mp hx).imp_right And.left)
    fun hk => (hsent id).mpr (.inr ⟨rfl, hk⟩)
  have hasked := h.asked
  simp only [List.append_nil] at hasked
  refine
    { walk := hwalk, shallow := hbounds, sent := fun x => ?_, asked := fun x => ?_
      commits := fun x hx => ?_, trees := fun x hx => ?_, tags := fun x hx => ?_, ids := hids
      marked := hmarked }
  · rw [hsent, h.sent, List.mem_append, List.mem_singleton, or_and_right]
    refine or_congr_right (and_congr_right fun hx => ?_)
    rw [hx]
  · -- The want is asked for as a commit, or as a tag.
    rw [asked_snoc, ← hasked]
    simp only [List.append_nil, hgoes.commits, hgoes.tags, or_and_right, exists_or, and_assoc,
      exists_eq_left]
    have hcommit : x = id ∧ objs.kind id = .commit ↔ x = id ∧ objs.kind x = .commit :=
      and_congr_right fun hx => by rw [hx]
    rw [hcommit]
    exact or_or_or_comm
  · rcases (hgoes.commits x).mp hx with hx | ⟨rfl, hk⟩
    · exact h.commits x hx
    · exact hk
  · rcases (hgoes.trees x).mp hx with hx | ⟨rfl, hk⟩
    · exact h.trees x hx
    · exact hk
  · rw [List.append_nil] at hx
    rcases (hgoes.tags x).mp hx with hx | ⟨rfl, hk⟩
    · exact h.tags x (by simpa using hx)
    · exact hk

theorem takeWants_wanted (hdesc : s.Describes objs)
    (hw : a.wants.foldlM (takeWant pick s) ⟨.walk, [], [], [], [], []⟩ = .ok w) :
    Wanted objs a.wants [] w := by
  have hempty : Wanted objs [] [] ⟨.walk, [], [], [], [], []⟩ := by
    constructor <;> simp [SendSet.walk, SendSet.ids, Asked]
  have key := FoldM.inv (I := fun rest w => ∃ done, done ++ rest = a.wants ∧ Wanted objs done [] w)
    hw ⟨[], rfl, hempty⟩ ?_
  · obtain ⟨done, hdone, h⟩ := key
    rw [List.append_nil] at hdone
    exact hdone ▸ h
  · rintro id rest v v' ⟨done, hdone, h⟩ hv
    obtain ⟨loc, hrow, htakes⟩ := takeWant_ok hv
    exact ⟨done ++ [id], by simp [hdone], h.take hdesc hrow htakes⟩

/-- A tag that is peeled: its target goes to the loop for its kind, and a blob is marked. -/
theorem Wanted.peel {rest : List Oid} {w' : WantWalk} {t : Oid} {d : TagData}
    (h : Wanted objs done (t :: rest) w) (hd : objs.tag t = some d)
    (htarget : objs.kind d.target = d.target_kind) (hw : Peels pick s w d w') :
    Wanted objs done rest w' := by
  obtain ⟨hgoes, hsent, hset⟩ := hw
  have hmarks : (w'.set.shas.isSome = true ∧ w'.set.shallow = [] ∧ w'.set.unshallow = []) ∧
      (∀ x ∈ w'.set.ids, objs.kind x = .commit → x ∈ w.sent) ∧ ∀ x ∈ w.sent, x ∈ w'.set.ids := by
    rcases hset with ⟨hset, -⟩ | ⟨hblob, -, loc, -, hset⟩
    · rw [hset]
      exact ⟨⟨h.walk, h.shallow⟩, h.ids, h.marked⟩
    · exact h.mark hset (fun _ => id) (fun _ => .inl) fun hk =>
        absurd (hk.symm.trans (htarget.trans hblob)) (by simp)
  refine
    { walk := hmarks.1.1, shallow := hmarks.1.2, sent := hsent ▸ h.sent, asked := fun x => ?_
      commits := fun x hx => ?_, trees := fun x hx => ?_, tags := fun x hx => ?_
      ids := hsent ▸ hmarks.2.1, marked := hsent ▸ hmarks.2.2 }
  · -- What is asked for comes from the tags that are left, or from the target of this one.
    rw [← h.asked]
    simp only [List.mem_append, List.mem_cons, hgoes.commits, hgoes.tags, or_and_right, exists_or,
      and_assoc, exists_eq_left, peelsTo_iff hd]
    rw [eq_comm (a := x), and_comm (a := d.target = x), or_assoc]
    simp only [or_assoc, or_left_comm]
  · rcases (hgoes.commits x).mp hx with hx | ⟨rfl, hk⟩
    · exact h.commits x hx
    · exact htarget.trans hk
  · rcases (hgoes.trees x).mp hx with hx | ⟨rfl, hk⟩
    · exact h.trees x hx
    · exact htarget.trans hk
  · rcases List.mem_append.mp hx with hx | hx
    · rcases (hgoes.tags x).mp hx with hx | ⟨rfl, hk⟩
      · exact h.tags x (by simp [hx])
      · exact htarget.trans hk
    · exact h.tags x (by simp [hx])

/-- The loop over the tags ends with no tag left. -/
theorem peelTags_wanted (hkinds : SaysKinds V objs a) (hs : V s) (n : ℕ)
    (h : Wanted objs done [] w) :
    Among V s (peelTags objs pick n w) fun _ w => Wanted objs done [] w ∧ w.tags = [] := by
  refine peelTags_among (fun w hw => ?_) ?_ hs n h
  · exact { hw with
      asked := fun x => by simpa using hw.asked x
      tags := fun t ht => hw.tags t (by simpa using ht) }
  · rintro u t rest v d v' - ⟨u', hu', hlive⟩ hv hd hpeels
    have hk : objs.kind t = .tag := hv.tags t (by simp)
    exact hv.peel hd (typed_tag (hkinds.typed u' hu') hlive hk hd) hpeels

end Wants

/-! ## The answer -/

section Answer

variable {V : Db → Prop} {pick : Pick} {a : FetchArgs} {s : Db}

/-- What the loops after the commits leave: no commit is marked, and the boundaries stay. -/
structure SameCommits (objs : Objects) (set set' : SendSet) : Prop where
  walk : set'.shas.isSome = true
  shallow : set'.shallow = set.shallow
  unshallow : set'.unshallow = set.unshallow
  ids : ∀ x, x ∈ set.ids → x ∈ set'.ids
  commits : ∀ x, x ∈ set'.ids → objs.kind x = .commit → x ∈ set.ids

theorem SameCommits.refl (h : set.shas.isSome = true) : SameCommits objs set set :=
  ⟨h, rfl, rfl, fun _ => id, fun _ hx _ => hx⟩

theorem SameCommits.mark {db : Db} (h : SameCommits objs set set') (hx : objs.kind x ≠ .commit)
    (hm : set'.mark db x loc = .ok set'') : SameCommits objs set set'' := by
  obtain ⟨hwalk, hids, hsh, hun⟩ := SendSet.mark_ids h.walk hm
  refine ⟨hwalk, hsh.trans h.shallow, hun.trans h.unshallow, fun y hy => ?_, fun y hy hk => ?_⟩
  · rw [hids]
    exact List.mem_append_left _ (h.ids y hy)
  · rw [hids, List.mem_append, List.mem_singleton] at hy
    rcases hy with hy | rfl
    · exact h.commits y hy hk
    · exact absurd hk hx

theorem SameCommits.markAll {db : Db} {rows : List (Oid × ObjRow)} (h : SameCommits objs set set')
    (hrows : ∀ p ∈ rows, objs.kind p.1 ≠ .commit) (hm : set'.markAll db rows = .ok set'') :
    SameCommits objs set set'' := by
  refine (FoldM.inv (I := fun rest v => (∀ p ∈ rest, objs.kind p.1 ≠ .commit) ∧
    SameCommits objs set v) hm
    ⟨hrows, h⟩ ?_).2
  rintro p rest v v' ⟨hrest, hv⟩ hv'
  exact ⟨fun q hq => hrest q (by simp [hq]), hv.mark (hrest p (by simp)) hv'⟩

/-- What waits in the expansion of the trees is trees and blobs. -/
structure TreeKinds (objs : Objects) (set : SendSet) (w : TreeWalk) : Prop where
  kept : SameCommits objs set w.set
  next : ∀ i ∈ w.next, objs.kind i.1 = .tree
  blobs : ∀ b ∈ w.blobs, objs.kind b = .blob

theorem expandTree_kinds {w w' : TreeWalk} {item : Oid × List Oid} (h : TreeKinds objs set w)
    (hk : objs.kind item.1 = .tree) (htyped : objs.TypedAt item.1)
    (hw : expandTree objs filter w item = .ok w') : TreeKinds objs set w' := by
  unfold expandTree at hw
  obtain ⟨had, -, hw⟩ := FoldM.bind_eq_ok.mp hw
  unfold Objects.TypedAt at htyped
  rw [hk] at htyped
  cases hes : objs.tree item.1 with
  | none => simp [hes] at hw
  | some es =>
    simp only [hes] at hw
    have hentries : ∀ e ∈ es, objs.kind e.oid = e.mode.kind := htyped es hes
    refine (FoldM.inv (I := fun rest v => (∀ e ∈ rest, objs.kind e.oid = e.mode.kind) ∧
      TreeKinds objs set v) hw ⟨hentries, h⟩ ?_).2
    rintro e rest v v' ⟨hrest, hv⟩ hv'
    refine ⟨fun e he => hrest e (by simp [he]), ?_⟩
    have he : objs.kind e.oid = e.mode.kind := hrest e (by simp)
    unfold expandEntry at hv'
    dsimp only at hv'
    split_ifs at hv' with hskip hmax htree hnone
    · cases hv'
      exact hv
    · cases hv'
      refine ⟨hv.kept, fun i hi => ?_, hv.blobs⟩
      rcases List.mem_append.mp hi with hi | hi
      · exact hv.next i hi
      · rw [List.mem_singleton.mp hi, he, htree]
        rfl
    · cases hv'
      exact ⟨hv.kept, hv.next, hv.blobs⟩
    · cases hv'
      refine ⟨hv.kept, hv.next, fun b hb => ?_⟩
      rcases List.mem_append.mp hb with hb | hb
      · exact hv.blobs b hb
      · -- An entry that is no tree and no gitlink is a blob.
        rw [List.mem_singleton.mp hb, he]
        cases hmode : e.mode with
        | tree => exact absurd hmode htree
        | commit => simp [hmode] at hskip
        | other => rfl

/-- The trees of a chunk were live when they were read. -/
theorem TreeKinds.chunk (hkinds : SaysKinds V objs a) {chunk : List (Oid × List Oid)}
    {rows : List (Oid × ObjRow)} {w w' : TreeWalk} (h : TreeKinds objs set w)
    (hk : ∀ i ∈ chunk, objs.kind i.1 = .tree) (hfst : rows.map (·.1) = chunk.map (·.1))
    (hrows : ∀ p ∈ rows, Found V pick p.1 p.2) (hset : w.set.markAll s rows = .ok set')
    (hw : chunk.foldlM (expandTree objs filter) { w with set := set' } = .ok w') :
    TreeKinds objs set w' := by
  have hrowkind : ∀ p ∈ rows, objs.kind p.1 ≠ .commit := by
    intro p hp
    have hmem : p.1 ∈ chunk.map (·.1) := hfst ▸ List.mem_map_of_mem hp
    obtain ⟨i, hi, hid⟩ := List.mem_map.mp hmem
    rw [← hid, hk i hi]
    simp
  have htyped : ∀ i ∈ chunk, objs.kind i.1 = .tree ∧ objs.TypedAt i.1 := by
    intro i hi
    obtain ⟨u, hu, hlive⟩ := met_of_rows ⟨hfst, hrows⟩ (List.mem_map_of_mem hi)
    exact ⟨hk i hi, hkinds.typed u hu i.1 hlive⟩
  refine (FoldM.inv (I := fun rest v =>
    (∀ i ∈ rest, objs.kind i.1 = .tree ∧ objs.TypedAt i.1) ∧ TreeKinds objs set v) hw
    ⟨htyped, h.kept.markAll hrowkind hset, h.next, h.blobs⟩ ?_).2
  rintro i rest v v' ⟨hrest, hv⟩ hv'
  obtain ⟨hi, hit⟩ := hrest i (by simp)
  exact ⟨fun j hj => hrest j (by simp [hj]), expandTree_kinds hv hi hit hv'⟩

theorem markBlobs_kept {blobs : List Oid} (h : SameCommits objs set set')
    (hblobs : ∀ b ∈ blobs, objs.kind b = .blob)
    (hm : markBlobs pick s filter set' blobs = .ok set'') : SameCommits objs set set'' := by
  unfold markBlobs at hm
  refine (FoldM.inv (I := fun rest v => (∀ b ∈ rest, objs.kind b = .blob) ∧ SameCommits objs set v)
    hm
    ⟨hblobs, h⟩ ?_).2
  rintro b rest v v' ⟨hrest, hv⟩ hv'
  refine ⟨fun c hc => hrest c (by simp [hc]), ?_⟩
  have hb : objs.kind b ≠ .commit := by simp [hrest b]
  cases hrow : pick.row s b with
  | none => simp [hrow] at hv'
  | some loc =>
    simp only [hrow] at hv'
    split at hv'
    · split_ifs at hv'
      · cases hv'
        exact hv
      · exact hv.mark hb hv'
    · exact hv.mark hb hv'

theorem walkTrees_kept (hkinds : SaysKinds V objs a) (hs : V s) (n : ℕ) {w : TreeWalk}
    (h : TreeKinds objs set w) :
    Among V s (walkTrees objs pick filter n w) fun _ w => SameCommits objs set w.set := by
  refine (walkTrees_among (I := fun rest w => (∀ i ∈ rest, objs.kind i.1 = .tree) ∧
    TreeKinds objs set w) (K := TreeKinds objs set) ?_ ?_ ?_ hs n h).mono fun _ _ _ hw => hw.1.kept
  · exact fun w hw => ⟨hw.next, hw.kept, by simp, by simp⟩
  · rintro u chunk rest rows w set' w' - hfst hrows - ⟨hk, hw⟩ hset hw'
    exact ⟨fun i hi => hk i (by simp [hi]),
      hw.chunk hkinds (fun i hi => hk i (by simp [hi])) hfst hrows hset hw'⟩
  · rintro u w set' - ⟨-, hw⟩ hset
    exact ⟨markBlobs_kept hw.kept hw.blobs hset, hw.next, hw.blobs⟩

theorem rideAlong_kept (htags : a.include_tag = true → ∀ p ∈ s.tagPairs, objs.kind p.1 = .tag)
    {sent : List Oid} (h : SameCommits objs set set')
    (hr : rideAlong pick s a acks sent set' = .ok set'') : SameCommits objs set set'' := by
  unfold rideAlong at hr
  split_ifs at hr with htag
  · refine (FoldM.inv (I := fun rest v => (∀ p ∈ rest, objs.kind p.1 = .tag) ∧
      SameCommits objs set v) hr ⟨htags htag, h⟩ ?_).2
    rintro p rest v v' ⟨hrest, hv⟩ hv'
    refine ⟨fun q hq => hrest q (by simp [hq]), ?_⟩
    split_ifs at hv'
    · cases hrow : pick.row s p.1 with
      | none =>
        simp only [hrow, Except.ok.injEq] at hv'
        exact hv' ▸ hv
      | some loc =>
        simp only [hrow] at hv'
        exact hv.mark (by simp [hrest p]) hv'
    · cases hv'
      exact hv
  · cases hr
    exact h

theorem planReads_kept {left : ℕ} (h : SameCommits objs set set')
    (hp : planReads pick s left set' = .ok set'') : SameCommits objs set set'' := by
  obtain ⟨hshas, hsh, hun⟩ := planReads_keeps hp
  have hids : set''.ids = set'.ids := by
    unfold SendSet.ids
    rw [hshas]
  refine ⟨hshas ▸ h.walk, hsh.trans h.shallow, hun.trans h.unshallow, ?_, ?_⟩
  · rw [hids]
    exact h.ids
  · rw [hids]
    exact h.commits

/-- What a fetch answers about the commits. The walk `w` started from the commits asked for, and
from `known`, the client-shallow commits that an infinite depth adds; `nots` is the excluded
side. -/
structure Answer (V : Db → Prop) (objs : Objects) (a : FetchArgs) (acks nots : List Oid)
    (known : Oid → Prop) (w : CommitWalk) (set : SendSet) : Prop where
  nots_nil : a.deepen_not = [] → nots = []
  of_known : ∀ x, known x → a.deepen = some infiniteDepth ∧ x ∈ a.client_shallow
  walked : ∃ w₀ : WantWalk, (∀ x, x ∈ w₀.sent ↔ x ∈ a.wants ∧ objs.kind x = .commit) ∧
    w₀.set.shallow = [] ∧ w₀.set.unshallow = [] ∧
    Walked V objs a acks nots
      (walkRules objs a acks nots fun x => Asked objs a.wants x ∨ known x).Taken w₀ w
  shallow : set.shallow = (boundaries a acks w).shallow
  unshallow : set.unshallow = (boundaries a acks w).unshallow
  sent : ∀ x, set.Commits objs x ↔ x ∈ w.sent

/-- What is pushed are parents. -/
theorem parent_of_pushes {nots : List Oid} {q p : QueueItem} {c : CommitData}
    (h : p ∈ a.pushes acks nots q c) : p.id ∈ c.parents := by
  unfold FetchArgs.pushes at h
  split at h
  · obtain ⟨x, hx, rfl⟩ := List.mem_map.mp h
    exact hx
  · split at h
    · cases h
    · obtain ⟨x, hx, rfl⟩ := List.mem_map.mp h
      exact (List.mem_filter.mp hx).1

/-- What the walk takes are commits. -/
theorem Walked.kind {nots : List Oid} {starts : Oid → Prop} {w₀ : WantWalk} {w : CommitWalk}
    (hkinds : SaysKinds V objs a) (hstarts : ∀ x, starts x → objs.kind x = .commit)
    (h : Walked V objs a acks nots (walkRules objs a acks nots starts).Taken w₀ w) {l : ℕ × Bool}
    (hx : (walkRules objs a acks nots starts).Taken x l) : objs.kind x = .commit := by
  refine Levels.Rules.Taken.induction (P := fun x _ => objs.kind x = .commit) hx
    (fun y m hy => hstarts y hy.1) fun y m z m' hy hk hyz => ?_
  obtain ⟨c, hc, hpush⟩ := hyz
  obtain ⟨⟨s, hs, hlive⟩, -⟩ := h.live y m hy
  exact (typed_commit (hkinds.typed s hs) hlive hk hc).2 z (parent_of_pushes hpush)

/-- What `send_set` answers, in whatever states it is resumed. -/
theorem sendSet_answers (hkinds : SaysKinds V objs a)
    (hcs : ∀ x ∈ a.client_shallow, objs.kind x = .commit) (hs : V s) (left plan : ℕ) :
    Among V s (sendSet objs pick a left plan) fun _ set =>
      ∃ nots known w, Answer V objs a (a.acks pick s) nots known w set := by
  unfold sendSet
  refine among_read_bind.mpr ?_
  refine (among_ofExcept hs (P := fun _ w => Wanted objs a.wants [] w) fun w hw =>
    takeWants_wanted (hkinds.describes s hs) hw).bind fun t w₁ ht hw₁ => ?_
  refine (peelTags_wanted hkinds ht left hw₁).bind fun t w₀ ht hw₀ => ?_
  obtain ⟨hw₀, htags⟩ := hw₀
  have hasked : ∀ x, x ∈ w₀.commits ↔ Asked objs a.wants x := by
    intro x
    rw [← hw₀.asked, htags]
    simp
  have hexcluded : Among V t (excluded objs pick (maxCommits + 2) [] a.deepen_not)
      fun _ nots => a.deepen_not = [] → nots = [] := by
    cases hnot : a.deepen_not with
    | nil => exact among_pure ht fun _ => rfl
    | cons x xs => exact (excluded_among ht _ _ _).mono fun _ _ _ _ h => nomatch h
  refine hexcluded.bind fun t nots ht hnots => ?_
  refine among_read_bind.mpr ?_
  generalize hknown : (if a.deepen = some infiniteDepth then
    a.client_shallow.filter fun c => (pick.row t c).isSome else []) = known
  have hknown' : ∀ x ∈ known, a.deepen = some infiniteDepth ∧ x ∈ a.client_shallow := by
    intro x hx
    rw [← hknown] at hx
    split_ifs at hx with hinf
    · exact ⟨hinf, (List.mem_filter.mp hx).1⟩
    · cases hx
  have hcommits : ∀ x, x ∈ w₀.commits ++ known ↔ Asked objs a.wants x ∨ x ∈ known := by
    intro x
    rw [List.mem_append, hasked]
  refine (walkCommits_walked ht _ hcommits hw₀.walk).bind fun t w ht hw => ?_
  have hkind : ∀ {x l}, (walkRules objs a (a.acks pick s) nots fun x =>
      Asked objs a.wants x ∨ x ∈ known).Taken x l → objs.kind x = .commit := by
    refine fun hx => hw.kind hkinds (fun y hy => ?_) hx
    rcases hy with hy | hy
    · exact hw₀.commits y ((hasked y).mpr hy)
    · exact hcs y (hknown' y hy).2
  refine (load_among ht _).bind fun t _ ht _ => ?_
  refine (among_ofExcept ht (P := fun _ _ => True) fun _ _ => trivial).bind fun t edges ht _ => ?_
  -- The boundaries are set, and the rest of the walk marks no commit.
  have hbound : (boundaries a (a.acks pick s) w).shas = w.set.shas := by
    unfold boundaries
    dsimp only
    split_ifs <;> rfl
  have hids : (boundaries a (a.acks pick s) w).ids = w.set.ids := by
    unfold SendSet.ids
    rw [hbound]
  have htrees : ∀ x ∈ w.trees, objs.kind x = .tree := by
    intro x hx
    rcases hw.trees x hx with hx | ⟨y, l, c, hy, hc, rfl⟩
    · exact hw₀.trees x hx
    · obtain ⟨⟨u, hu, hlive⟩, -⟩ := hw.live y l hy
      exact (typed_commit (hkinds.typed u hu) hlive (hkind hy) hc).1
  refine (walkTrees_kept hkinds ht _
    ⟨SameCommits.refl (hbound ▸ hw.walk), fun i hi => ?_, by simp⟩).bind
    fun t v ht hv => ?_
  · obtain ⟨x, hx, rfl⟩ := List.mem_map.mp hi
    exact htrees x (mem_sortDedup.mp hx)
  refine among_read_bind.mpr ?_
  refine (among_ofExcept ht
    (P := fun _ set => SameCommits objs (boundaries a (a.acks pick s) w) set)
    fun set hset => rideAlong_kept (fun h => hkinds.tags h t ht) hv hset).bind fun t set ht hset => ?_
  refine among_ofExcept ht fun out hout => ?_
  have hout := planReads_kept hset hout
  refine ⟨nots, (· ∈ known), w, hnots, hknown', ⟨w₀, hw₀.sent, hw₀.shallow.1, hw₀.shallow.2, hw⟩,
    hout.shallow, hout.unshallow, fun x => ?_⟩
  unfold SendSet.Commits
  constructor
  · rintro ⟨hx, hk⟩
    have hx := hout.commits x hx hk
    rw [hids, hw.ids] at hx
    rw [hw.sent]
    exact hx.imp_left fun hx => hw₀.ids x hx hk
  · intro hx
    rw [hw.sent] at hx
    have hk : objs.kind x = .commit := by
      rcases hx with hx | ⟨l, c, hl, -⟩
      · exact ((hw₀.sent x).mp hx).2
      · exact hkind hl
    refine ⟨hout.ids x ?_, hk⟩
    rw [hids, hw.ids]
    exact hx.imp_left fun hx => hw₀.marked x hx

end Answer

end GitEdge
