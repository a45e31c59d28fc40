import GitEdge.Pack.Fetch
import GitEdge.Repo.History
import GitEdge.Repo.Memo
import GitEdge.Wire.Receive

/-!
# The peeled ids of the refs

Beside its target a ref keeps the object that a tag stands for. `commit_push` stores what it is
given, and who gives it depends on the path. A push gives what the tag in its own pack points to
(`Objects.packTags`); the id stands for the tag only if that is no tag again, and for a tag that the
repository had before it is missing (`packTags_right_iff`). An import gives what the client or the
remote said.

The targets are live whatever is given: a command lands only if its new id has a row in a live pack,
and pushes and imports end no live pack (`KeepsLive`). The peeled ids are right in every run in
which each step gives the right ones (`peeled_right`).
-/

namespace GitEdge

open Sql

variable {objs : Objects} {s t : Db}

/-! ## What a tag stands for -/

/-- The object at the end of the tags from `x` on. -/
inductive Objects.Peels (objs : Objects) : Oid → Oid → Prop
  | here {x : Oid} (h : objs.kind x ≠ .tag) : Objects.Peels objs x x
  | tag {x y : Oid} {t : TagData} (hk : objs.kind x = .tag) (ht : objs.tag x = some t)
      (h : Objects.Peels objs t.target y) : Objects.Peels objs x y

/-- The peeled id is right for the target: the object at the end of a tag, and none otherwise. -/
def Objects.PeeledRight (objs : Objects) (target : Oid) (peeled : Option PeeledText) : Prop :=
  if objs.kind target = .tag then ∃ y, peeled = some (.id y) ∧ objs.Peels target y
  else peeled = none

theorem Objects.Peels.not_tag {x y : Oid} (h : objs.Peels x y) : objs.kind y ≠ .tag := by
  induction h with
  | here h => exact h
  | tag _ _ _ ih => exact ih

/-- The id that `deepen-not` takes of a row with a right peeled id. -/
theorem Objects.PeeledRight.tip {r : RefRow} (h : objs.PeeledRight r.target r.peeled) :
    ∃ y, r.tip = .ok y ∧ objs.Peels r.target y := by
  unfold Objects.PeeledRight at h
  unfold RefRow.tip
  split_ifs at h with hk
  · obtain ⟨y, hy, hpeels⟩ := h
    exact ⟨y, by rw [hy], hpeels⟩
  · exact ⟨r.target, by rw [h], .here hk⟩

/-- The list has a row with a right peeled id, with that id. -/
theorem Objects.PeeledRight.view {r : RefRow} (h : objs.PeeledRight r.target r.peeled) :
    ∃ v, r.view = .ok v ∧ v.target = r.target ∧ v.peeled.map .id = r.peeled := by
  unfold Objects.PeeledRight at h
  unfold RefRow.view
  split_ifs at h with hk
  · obtain ⟨y, hy, -⟩ := h
    exact ⟨⟨r.name, r.target, some y⟩, by rw [hy], rfl, hy.symm⟩
  · exact ⟨⟨r.name, r.target, none⟩, by rw [h], rfl, h.symm⟩

/-- Rows with right peeled ids are all listed, with those ids. -/
theorem mapM_view {rows : List RefRow} (h : ∀ r ∈ rows, objs.PeeledRight r.target r.peeled) :
    ∃ refs, rows.mapM RefRow.view = .ok refs ∧
      ∀ v ∈ refs, objs.PeeledRight v.target (v.peeled.map .id) := by
  induction rows with
  | nil => exact ⟨[], rfl, fun v hv => absurd hv List.not_mem_nil⟩
  | cons r rows ih =>
    obtain ⟨hr, hrows⟩ := List.forall_mem_cons.mp h
    obtain ⟨refs, hlist, hviews⟩ := ih hrows
    obtain ⟨v, hv, htarget, hpeeled⟩ := hr.view
    refine ⟨v :: refs, ?_, List.forall_mem_cons.mpr ⟨?_, hviews⟩⟩
    · rw [List.mapM_cons, hv, hlist]
      rfl
    · rw [htarget, hpeeled]
      exact hr

/-- The map of `one_entry`: the tags among the entries of a pack, each with its first link. -/
def Objects.packTags (objs : Objects) (ids : List Oid) (x : Oid) : Option Oid :=
  if x ∈ ids ∧ objs.kind x = .tag then (objs.links x).head? else none

/-- A push gives the right id of an object exactly if that is no tag, or a tag in its pack that
points to no tag. -/
theorem packTags_right_iff (objs : Objects) (ids : List Oid) (x : Oid) :
    objs.PeeledRight x ((objs.packTags ids x).map .id) ↔ (objs.kind x = .tag →
      x ∈ ids ∧ ∃ t, objs.tag x = some t ∧ objs.kind t.target ≠ .tag) := by
  by_cases hk : objs.kind x = .tag
  swap
  · simp [Objects.PeeledRight, Objects.packTags, hk]
  have hlinks : (objs.links x).head? = (objs.tag x).map (·.target) := by
    rw [Objects.links, hk]
    cases objs.tag x <;> rfl
  simp only [Objects.PeeledRight, Objects.packTags, hk, if_true, and_true, forall_const, hlinks]
  constructor
  · rintro ⟨y, hy, hpeels⟩
    by_cases hx : x ∈ ids
    · rw [if_pos hx, Option.map_map] at hy
      obtain ⟨t, ht, h⟩ := Option.map_eq_some_iff.mp hy
      cases h
      exact ⟨hx, t, ht, hpeels.not_tag⟩
    · rw [if_neg hx] at hy
      cases hy
  · rintro ⟨hx, t, ht, hnot⟩
    exact ⟨t.target, by rw [if_pos hx, ht]; rfl, .tag hk ht (.here hnot)⟩

/-! ## Live objects stay live -/

/-- Live packs stay live, with their rows. -/
structure KeepsLive (s t : Db) : Prop where
  packs : ∀ p, s.packLive p = true → t.packLive p = true
  rows : ∀ r ∈ s.objects, s.packLive r.pack_id = true → r ∈ t.objects

theorem KeepsLive.of_eq (hpacks : t.packs = s.packs) (hobjects : t.objects = s.objects) :
    KeepsLive s t := by
  refine ⟨fun p hp => ?_, fun r hr _ => hobjects ▸ hr⟩
  rw [Db.packLive, hpacks]
  exact hp

theorem KeepsLive.trans {u : Db} (h : KeepsLive s t) (h' : KeepsLive t u) : KeepsLive s u :=
  ⟨fun p hp => h'.packs p (h.packs p hp),
    fun r hr hp => h'.rows r (h.rows r hr hp) (h.packs _ hp)⟩

theorem KeepsLive.live (h : KeepsLive s t) {x : Oid} (hx : s.Live x) : t.Live x := by
  obtain ⟨r, hr, hsha, hp⟩ := hx
  exact ⟨r, h.rows r hr hp, hsha, h.packs _ hp⟩

/-- A promotion ends no live pack. -/
theorem keepsLive_promote (push : PushId) (pack : PackId) (s : Db) :
    KeepsLive s (promote push pack s) :=
  ⟨fun _ hp => packLive_promote.mpr (.inl hp), fun _ hr _ => hr⟩

theorem keepsLive_withPending (barrier : Bool) (pack : PackId) (s : Db) :
    KeepsLive s (withPending barrier pack s) := by
  obtain ⟨_, _, _, h⟩ := withPending_eq barrier pack s
  rw [h]
  exact .of_eq rfl rfl

theorem Step3.keepsLive {req : CommitRequest} {P : Db} (h : Step3 req s P) : KeepsLive s P := by
  cases h with
  | noPack h => exact .of_eq rfl rfl
  | pack h one jobs seq =>
    exact ((keepsLive_withPending _ _ s).trans (keepsLive_promote _ _ _)).trans (.of_eq rfl rfl)

/-! ## The rows that a commit writes -/

/-- A ref after the writes was there before, or it is a command's whose new id is live. -/
theorem landCommands_rows (env : Env) (head : String) (push : PushId) (who : String) (now : ℤ)
    (barrier : Bool) (scopes : List (Option String)) (cs : List Cmd) (s : Db) :
    ∀ r ∈ (landCommands env head push who now barrier scopes cs s).2.refs, r ∈ s.refs ∨
      ∃ c ∈ cs, c.new ≠ 0 ∧ r.target = c.new ∧ r.peeled = c.peeled ∧ s.Live c.new := by
  induction cs generalizing s with
  | nil => exact fun r hr => .inl hr
  | cons c cs ih =>
    intro r hr
    simp only [landCommands] at hr
    by_cases hj : s.judge env head scopes c = none
    · rw [if_pos hj] at hr
      have hrefuse := (judge_eq_none.mp hj).1
      have hpass : Passes env s head scopes c := by
        rw [Db.refuse, Option.or_eq_none_iff] at hrefuse
        exact passes_of_breaksRule hrefuse.1
      have hrules := @landed_sameRules c barrier push who now s
      rcases ih _ r hr with hr | ⟨d, hd, hn, ht, hp, hlive⟩
      · rw [landed_refs] at hr
        rcases row_of_write hr with hr | ⟨hn, ht, hp⟩ | ⟨ho, hn, -⟩
        · exact .inl hr
        · exact .inr ⟨c, by simp, hn, ht, hp, Db.lookup_isSome_iff.mp (hpass.found hn)⟩
        · exact absurd ⟨ho, hn⟩ hpass.notNull
      · refine .inr ⟨d, by simp [hd], hn, ht, hp, ?_⟩
        rw [← Db.lookup_isSome_iff, ← hrules.lookup]
        exact Db.lookup_isSome_iff.mpr hlive
    · rw [if_neg hj] at hr
      rcases ih _ r hr with hr | ⟨d, hd, hrest⟩
      · exact .inl hr
      · exact .inr ⟨d, by simp [hd], hrest⟩

/-- What a commit does to the live objects and to the refs. -/
theorem commitPush_rows (env : Env) (now : ℤ) (req : CommitRequest) (s : Db) :
    let t := ((commitPush env now req).run s).state
    KeepsLive s t ∧ ∀ r ∈ t.refs, r ∈ s.refs ∨
      ∃ c ∈ req.commands, c.new ≠ 0 ∧ r.target = c.new ∧ r.peeled = c.peeled ∧ t.Live c.new := by
  intro t
  rcases commitPush_cases env now req s with ⟨m, -, hs⟩ | ⟨-, -, why, -, hs⟩ |
    ⟨m, -, hs⟩ | ⟨pack, m, -, -, -, hs⟩ | ⟨scopes, P, -, h3, -, hs⟩
  · rw [show t = s from hs]
    exact ⟨.of_eq rfl rfl, fun r hr => .inl hr⟩
  · rw [show t = _ from hs]
    exact ⟨.of_eq rfl rfl, fun r hr => .inl hr⟩
  · rw [show t = _ from hs]
    exact ⟨.of_eq rfl rfl, fun r hr => .inl hr⟩
  · obtain ⟨_, _, _, he⟩ := withPending_eq s.barrierActive pack s
    rw [show t = _ from hs]
    refine ⟨(keepsLive_withPending _ _ s).trans (keepsLive_promote _ _ _), fun r hr => ?_⟩
    rw [he] at hr
    exact .inl hr
  · rw [show t = _ from hs]
    rcases commitCommands_cases env now req s.barrierActive scopes P with
      ⟨rs, -, -, hst⟩ | ⟨-, jobs, seq, events, dropped, hst⟩
    · -- The dry run failed, and the packs are as they were.
      obtain ⟨hrefs, -, hpacks⟩ := rejectAtomic_nothing now h3
        (req.commands.map fun c => (c.name, P.judge env P.head scopes c))
      have hobjects : ((rejectAtomic req now s.barrierActive
          (req.commands.map fun c => (c.name, P.judge env P.head scopes c))).run P).state.objects =
            s.objects := by
        have hP : P.objects = s.objects := by
          have := h3.judged.1.objects
          rw [this]
          unfold CommitRequest.judged
          split <;> rfl
        rw [(rejectAtomic_eq req now _ _ P).2, ← hP]
        split
        · rfl
        · split_ifs <;> rfl
      rw [hst]
      exact ⟨.of_eq hpacks hobjects, fun r hr => .inl (hrefs ▸ hr)⟩
    · have hland := landCommands_rows env P.head req.push_id req.principal now
        s.barrierActive scopes
        req.commands P
      have hrules := landCommands_sameRules env P.head req.push_id req.principal now s.barrierActive
        scopes req.commands P
      rw [hst]
      generalize landCommands env P.head req.push_id req.principal now s.barrierActive scopes
        req.commands P = L at hland hrules ⊢
      obtain ⟨version, head, he⟩ := settled_eq (L.1.any fun r => r.2.isNone) req L.2
      have hkeeps : KeepsLive P L.2 := .of_eq hrules.packs hrules.objects
      rw [he]
      refine ⟨(h3.keepsLive.trans hkeeps).trans (.of_eq rfl rfl), fun r hr => ?_⟩
      rcases hland r hr with hr | ⟨c, hc, hn, ht, hp, hlive⟩
      · exact .inl (h3.judged.2.1 ▸ hr)
      · exact .inr ⟨c, hc, hn, ht, hp, hkeeps.live hlive⟩

/-- What the commit of an import does to the live objects and to the refs. -/
theorem commitMeta_rows (env : Env) (now : ℤ) (id : ℕ) (lease : Lease) (p : ImportPayload)
    (c : ImportCursor) (m : PackMeta) (s : Db) :
    let t := ((commitMeta env now id lease p c m).run s).state
    KeepsLive s t ∧ ∀ r ∈ t.refs, r ∈ s.refs ∨
      ∃ c ∈ p.commands, c.new ≠ 0 ∧ r.target = c.new ∧ r.peeled = c.peeled ∧ t.Live c.new := by
  intro t
  rcases commitMeta_cases env now id lease p c m s with ⟨-, ht⟩ |
    ⟨-, links, toc, parts, opens, tail, ht⟩
  · rcases ht with ht | ht
    · rw [show t = s from ht]
      exact ⟨.of_eq rfl rfl, fun r hr => .inl hr⟩
    · rw [show t = _ from ht]
      exact ⟨.of_eq rfl rfl, fun r hr => .inl hr⟩
  · obtain ⟨hkeeps, hrows⟩ := commitPush_rows env now p.request (prepared now id lease p m s)
    have hview := prepared_sameView now id lease p m s
    have hprep : KeepsLive s (prepared now id lease p m s) :=
      ⟨fun q hq => (hview.live q).trans hq, fun r hr _ => hr⟩
    rw [show t = _ from ht]
    exact ⟨(hprep.trans hkeeps).trans (.of_eq rfl rfl), hrows⟩

/-! ## The other routes of pushes and imports -/

/-- The rows of an index leave live packs and refs alone. -/
theorem keeps_keepsLive_insertObjects (s : Db) (pack : PackId) (rows : List PostedRow) :
    Span.Keeps (fun t : Db => KeepsLive s t ∧ t.refs = s.refs) (insertObjects pack rows) := by
  unfold insertObjects
  split
  · exact .fail _
  · refine .each fun r _ => .bind (.exec fun t ht => ?_) fun _ => .each fun q _ => .exec ?_
    · exact ⟨ht.1.trans ⟨fun _ hp => hp, fun o ho _ => Table.mem_insertIgnore.mpr (.inl ho)⟩, ht.2⟩
    · exact fun t ht => ⟨ht.1.trans (.of_eq rfl rfl), ht.2⟩

/-- The upsert of a pack row changes ingesting packs only. -/
theorem keepsLive_upsert (m : PackDto) (now : ℤ) (s : Db) : KeepsLive s (m.upsert now s) := by
  unfold PackDto.upsert
  split_ifs with hhas
  · refine ⟨fun p hp => ?_, fun r hr _ => hr⟩
    obtain ⟨row, hrow, hlive⟩ := packLive_iff.mp hp
    refine packLive_iff.mpr ⟨_, by rw [Table.find_updateWhere, hrow]; rfl, ?_⟩
    dsimp only
    split_ifs <;> exact hlive
  · refine ⟨fun p hp => ?_, fun r hr _ => hr⟩
    obtain ⟨row, hrow, hlive⟩ := packLive_iff.mp hp
    refine packLive_iff.mpr ⟨row, ?_, hlive⟩
    rw [Table.find_insertIgnore, if_neg, hrow]
    rintro ⟨-, rfl⟩
    rw [Table.has_eq_isSome, show s.packs.find m.id = some row from hrow] at hhas
    exact hhas rfl

/-- `push_index` leaves live packs and refs alone. -/
theorem keeps_keepsLive_pushIndex (s : Db) (now : ℤ) (m : PackDto) (rows : List PostedRow) :
    Span.Keeps (fun t : Db => KeepsLive s t ∧ t.refs = s.refs) (pushIndex now m rows) := by
  refine .bind .read fun db => ?_
  split
  · exact .fail _
  · split
    · exact .fail _
    · refine .bind (.exec fun t ht => ⟨ht.1.trans (keepsLive_upsert m now t), ?_⟩) fun _ => ?_
      · unfold PackDto.upsert
        split_ifs <;> exact ht.2
      · generalize (if db.packs.has m.id then db.packs.countWhere m.owns else 1) = changes
        split
        · exact .fail _
        · exact keeps_keepsLive_insertObjects s m.id rows

/-! ## Runs -/

/-- What a step is given: the header and the entries of the pack of a push, or the payload of an
import. -/
inductive PeelInput where
  | push (hdr : ReceiveHeader) (ids : List Oid)
  | importPack (p : ImportPayload)
  | other

/-- A step of a history of pushes and imports. Besides the commits and the rows of the index, this
code writes no ref, ends no live pack and deletes no row of one. -/
inductive PeelStep (env : Env) (objs : Objects) : Db → PeelInput → Db → Prop
  | push (now : ℤ) (hdr : ReceiveHeader) (ids : List Oid) (push : PushId) (pack : Option PackId)
      (principal : String) (s : Db) :
      PeelStep env objs s (.push hdr ids) ((commitPush env now
        (hdr.commitRequest push pack principal (objs.packTags ids))).run s).state
  | importPack (now : ℤ) (id : ℕ) (lease : Lease) (p : ImportPayload) (c : ImportCursor)
      (m : PackMeta) (s : Db) :
      PeelStep env objs s (.importPack p) ((commitMeta env now id lease p c m).run s).state
  | index (now : ℤ) (m : PackDto) (rows : List PostedRow) (s : Db) :
      PeelStep env objs s .other ((pushIndex now m rows).run s).state
  | importRows (pack : PackId) (rows : List PostedRow) (s : Db) :
      PeelStep env objs s .other ((insertObjects pack rows).run s).state
  | rest {s t : Db} (refs : t.refs = s.refs) (live : KeepsLive s t) : PeelStep env objs s .other t

/-- The states of the histories whose steps are all given what `meets` says. -/
inductive PeelReach (env : Env) (objs : Objects) (meets : PeelInput → Prop) : Db → Prop
  | boot (now : ℤ) : PeelReach env objs meets (boot now)
  | step {s t : Db} {i : PeelInput} (hs : PeelReach env objs meets s) (hi : meets i)
      (ht : PeelStep env objs s i t) : PeelReach env objs meets t

/-- The input gives right peeled ids: a push of a tag has it in its pack, and the tag points to no
tag; an import gives each id as it is. -/
def PeelInput.Right (objs : Objects) : PeelInput → Prop
  | .push hdr ids => ∀ c ∈ hdr.commands, c.new ≠ 0 → objs.kind c.new = .tag →
      c.new ∈ ids ∧ ∃ t, objs.tag c.new = some t ∧ objs.kind t.target ≠ .tag
  | .importPack p => ∀ c ∈ p.commands, c.new ≠ 0 → objs.PeeledRight c.new c.peeled
  | .other => True

section

variable {env : Env}

/-- A step keeps the live objects, and each ref that it writes has a live target and, if the input
is right, a right peeled id. -/
theorem PeelStep.rows {i : PeelInput} (ht : PeelStep env objs s i t) :
    KeepsLive s t ∧ ∀ r ∈ t.refs, r ∈ s.refs ∨
      (t.Live r.target ∧ (i.Right objs → objs.PeeledRight r.target r.peeled)) := by
  cases ht with
  | push now hdr ids push pack principal =>
    obtain ⟨hkeeps, hrows⟩ := commitPush_rows env now
      (hdr.commitRequest push pack principal (objs.packTags ids)) s
    refine ⟨hkeeps, fun r hr => ?_⟩
    rcases hrows r hr with hr | ⟨c, hc, hn, htarget, hpeeled, hlive⟩
    · exact .inl hr
    · obtain ⟨d, hd, rfl⟩ := List.mem_map.mp hc
      refine .inr ⟨htarget ▸ hlive, fun hright => ?_⟩
      rw [htarget, hpeeled]
      exact (packTags_right_iff objs ids d.new).mpr (hright d hd hn)
  | importPack now id lease p c m =>
    obtain ⟨hkeeps, hrows⟩ := commitMeta_rows env now id lease p c m s
    refine ⟨hkeeps, fun r hr => ?_⟩
    rcases hrows r hr with hr | ⟨d, hd, hn, htarget, hpeeled, hlive⟩
    · exact .inl hr
    · refine .inr ⟨htarget ▸ hlive, fun hright => ?_⟩
      rw [htarget, hpeeled]
      exact hright d hd hn
  | index now m rows =>
    obtain ⟨hkeeps, hrefs⟩ := (keeps_keepsLive_pushIndex s now m rows).state ⟨.of_eq rfl rfl, rfl⟩
    exact ⟨hkeeps, fun r hr => .inl (hrefs ▸ hr)⟩
  | importRows pack rows =>
    obtain ⟨hkeeps, hrefs⟩ :=
      (keeps_keepsLive_insertObjects s pack rows).state ⟨.of_eq rfl rfl, rfl⟩
    exact ⟨hkeeps, fun r hr => .inl (hrefs ▸ hr)⟩
  | rest refs live => exact ⟨live, fun r hr => .inl (refs ▸ hr)⟩

/-- In every history the targets of the refs are live. -/
theorem PeelReach.live {meets : PeelInput → Prop} (hs : PeelReach env objs meets s) :
    ∀ r ∈ s.refs, s.Live r.target := by
  induction hs with
  | boot now =>
    obtain ⟨jobs, seq, he⟩ := boot_eq now
    rw [he]
    exact fun r hr => absurd hr (Table.not_mem_empty r)
  | step _ _ ht ih =>
    obtain ⟨hkeeps, hrows⟩ := ht.rows
    intro r hr
    rcases hrows r hr with hr | ⟨hlive, -⟩
    · exact hkeeps.live (ih r hr)
    · exact hlive

/-- In a history of right inputs the peeled ids are right. -/
theorem PeelReach.right (hs : PeelReach env objs (PeelInput.Right objs) s) :
    ∀ r ∈ s.refs, objs.PeeledRight r.target r.peeled := by
  induction hs with
  | boot now =>
    obtain ⟨jobs, seq, he⟩ := boot_eq now
    rw [he]
    exact fun r hr => absurd hr (Table.not_mem_empty r)
  | step _ hi ht ih =>
    intro r hr
    rcases ht.rows.2 r hr with hr | ⟨-, hright⟩
    · exact ih r hr
    · exact hright hi

/-- In every history of pushes and imports whose inputs are all right, each ref has a live target
and a right peeled id. So `list_refs` does not fail and gives right ids, `include-tag` pairs each tag with the object
at its end, and `deepen-not` starts from the object at the end of the name. -/
theorem peeled_right (hs : PeelReach env objs (PeelInput.Right objs) s) :
    (∀ r ∈ s.refs, s.Live r.target ∧ objs.PeeledRight r.target r.peeled) ∧
      (∃ refs, s.listRefs = .ok (s.head, refs) ∧
        ∀ v ∈ refs, objs.PeeledRight v.target (v.peeled.map .id)) ∧
      (∀ p ∈ s.tagPairs, objs.kind p.1 = .tag ∧ objs.Peels p.1 p.2) ∧
      ∀ name r, s.refs.find name = some r → ∃ y, r.tip = .ok y ∧ objs.Peels r.target y := by
  have hright := hs.right
  refine ⟨fun r hr => ⟨hs.live r hr, hright r hr⟩, ?_, fun p hp => ?_,
    fun name r hr => (hright r (Table.find_eq_some.mp hr).1).tip⟩
  · have hrows : ∀ r ∈ s.refs.rows.insertionSort fun a b => a.name ≤ b.name,
        objs.PeeledRight r.target r.peeled := fun r hr =>
      hright r ((List.perm_insertionSort _ _).mem_iff.mp hr)
    obtain ⟨refs, hlist, hviews⟩ := mapM_view hrows
    exact ⟨refs, by rw [Db.listRefs, hlist]; rfl, hviews⟩
  · obtain ⟨r, hr, hpair⟩ := List.mem_filterMap.mp hp
    split_ifs at hpair
    obtain ⟨y, hy, rfl⟩ := Option.map_eq_some_iff.mp hpair
    -- A row with a peeled id is a tag's.
    have hrow := hright r hr
    unfold Objects.PeeledRight at hrow
    split_ifs at hrow with hk
    · obtain ⟨z, hz, hpeels⟩ := hrow
      rw [RefRow.peeledId, hz] at hy
      cases hy
      exact ⟨hk, hpeels⟩
    · rw [RefRow.peeledId, hrow] at hy
      cases hy

end

/-- A commit, a tag of it, and a tag of the tag. -/
def nestedTags : Objects where
  kind x := if x = 8 ∨ x = 9 then .tag else .commit
  size _ := 40
  commit x := if x = 7 then some ⟨5, [], none⟩ else none
  tree _ := none
  tag x := if x = 8 then some ⟨.commit, 7⟩ else if x = 9 then some ⟨.tag, 8⟩ else none

/-- A push of a tag: its header. -/
def tagHeader (tag : Oid) : ReceiveHeader :=
  ⟨[⟨0, tag, ascii "refs/tags/v"⟩], { ReceiveCaps.none with report_status := true }, []⟩

/-- The repository before the commit of the push, with the three objects in the push's pack. -/
def nestedReady : Db :=
  let env := Env.default fun _ => true
  let db := ((pushBegin env 1 .off ⟨1, "admin", "", true, none⟩).run (boot 0)).state
  ((pushIndex 2 ⟨10, 1, 3, 100⟩ [⟨⟨7, 10, 0, 12, 30, .commit, 40⟩, some []⟩,
    ⟨⟨8, 10, 1, 42, 30, .tag, 40⟩, none⟩, ⟨⟨9, 10, 2, 72, 30, .tag, 40⟩, none⟩]).run db).state

/-- The repository after the commit. -/
def tagPushed (tag : Oid) : Db :=
  ((commitPush (Env.default fun _ => true) 3 ((tagHeader tag).commitRequest 1 (some 10) "admin"
    (nestedTags.packTags [7, 8, 9]))).run nestedReady).state

theorem tagReady_reach (meets : PeelInput → Prop) (h : meets .other) :
    PeelReach (Env.default fun _ => true) nestedTags meets nestedReady := by
  have hbegin : PeelReach (Env.default fun _ => true) nestedTags meets
      ((pushBegin (Env.default fun _ => true) 1 .off ⟨1, "admin", "", true, none⟩).run
        (boot 0)).state := by
    obtain ⟨rate, hstate⟩ := pushBegin_state (Env.default fun _ => true) 1 .off
      ⟨1, "admin", "", true, none⟩ (boot 0)
    rw [hstate]
    dsimp only
    split <;> exact (PeelReach.boot 0).step h (.rest rfl (.of_eq rfl rfl))
  exact hbegin.step h (.index 2 _ _ _)

/-- A push of a tag of a commit stores the commit. -/
theorem peeled_right_tag :
    PeelReach (Env.default fun _ => true) nestedTags (PeelInput.Right nestedTags) (tagPushed 8) ∧
      (tagPushed 8).refs.find "refs/tags/v" = some ⟨"refs/tags/v", 8, some (.id 7), 3⟩ ∧
      nestedTags.Peels 8 7 := by
  have hright : (PeelInput.push (tagHeader 8) [7, 8, 9]).Right nestedTags := by
    intro c hc _ _
    obtain rfl : c = ⟨0, 8, ascii "refs/tags/v"⟩ := List.mem_singleton.mp hc
    exact ⟨by decide, ⟨.commit, 7⟩, rfl, by decide⟩
  have hreach : PeelReach (Env.default fun _ => true) nestedTags (PeelInput.Right nestedTags)
      (tagPushed 8) := (tagReady_reach _ trivial).step hright (.push 3 _ _ 1 (some 10) "admin" _)
  have hrow : (tagPushed 8).refs.find "refs/tags/v" = some ⟨"refs/tags/v", 8, some (.id 7), 3⟩ := by
    decide +kernel
  obtain ⟨y, hy, hpeels⟩ := (peeled_right hreach).2.2.2 _ _ hrow
  cases hy
  exact ⟨hreach, hrow, hpeels⟩

/-- A push of a tag of a tag stores the inner tag, and not the commit at the end. -/
theorem peeled_stops_at_tag :
    PeelReach (Env.default fun _ => true) nestedTags (fun _ => True) (tagPushed 9) ∧
      (tagPushed 9).refs.find "refs/tags/v" = some ⟨"refs/tags/v", 9, some (.id 8), 3⟩ ∧
      nestedTags.kind 8 = .tag ∧ nestedTags.Peels 9 7 := by
  refine ⟨(tagReady_reach _ trivial).step trivial (.push 3 _ _ 1 (some 10) "admin" _),
    by decide +kernel, by decide, ?_⟩
  have hcommit : nestedTags.Peels 7 7 := .here (by decide)
  have hinner : nestedTags.Peels 8 7 := .tag (by decide) (t := ⟨.commit, 7⟩) rfl hcommit
  exact .tag (by decide) (t := ⟨.tag, 8⟩) rfl hinner

end GitEdge
