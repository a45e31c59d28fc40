import GitEdge.Gc.Build
import GitEdge.Pack.Complete
import GitEdge.Pack.Visit

/-!
# What a walked fetch emits

The answer of `send_set` is a pack whose header counts the set bits, and whose entries are copied by
the planned reads. While the walk waits for its reads, packs are published and retired. A mark names
the row that a lookup took at some moment of the walk, and one object may be marked more than once:
as a want, and again when the walk comes to it.

What the marks keep whatever happens meanwhile (`Tracked`) says what the plan emits
(`sendSet_emits_once`): each marked object once, as long as no object that is marked more than once
has rows in two packs that the walk met alive.
-/

namespace GitEdge

open Sql Process

variable {pick : Pick} {left : ℕ} {set set' : SendSet} {acks : List Oid} {filter : Option Filter}

/-! ## The emitted entries -/

/-- `SendSet::count`: the count in the header of the pack. -/
def SendSet.count (set : SendSet) : ℕ := (set.packs.map fun p => Bits.popcount p.bitmap).sum

/-- The rows of the planned entries, in the order in which they are copied. -/
def SendSet.entries (db : Db) (set : SendSet) : List ObjRow := set.packs.flatMap db.entriesOf

/-- The bytes that a read copies: the place of the pack in the list, and the offset. -/
def ReadSpan.copied (r : ReadSpan) : List (ℕ × ℕ) :=
  r.ents.flatMap fun e => (List.range' e.1 e.2).map fun off => (r.pack, off)

/-- The bytes of the planned entries. -/
def SendSet.entryBytes (db : Db) (set : SendSet) : List (ℕ × ℕ) :=
  set.packs.zipIdx.flatMap fun p =>
    (db.entriesOf p.1).flatMap fun l => (List.range' l.offset l.len).map fun off => (p.2, off)

/-- The pack that is sent has the entries that its header counts, copied whole, and these are the
marked objects, each once. -/
structure EmitsOnce (db : Db) (set : SendSet) : Prop where
  count : set.count = (set.entries db).length
  bytes : set.reads.flatMap ReadSpan.copied = set.entryBytes db
  exact : ∀ x, x ∈ (set.entries db).map (·.sha) ↔ x ∈ set.ids
  once : ((set.entries db).map (·.sha)).Nodup

/-! ## The reads -/

/-- The fragments of an entry are the whole of it. -/
theorem copied_fragments (pack pos len : ℕ) :
    (fragments pack pos len).flatMap ReadSpan.copied =
      (List.range' pos len).map fun off => (pack, off) := by
  have hrun : ∀ i, ((List.range' pos len).drop (i * readWindow)).take readWindow =
      List.range' (pos + i * readWindow) (min readWindow (len - i * readWindow)) := by
    intro i
    apply List.ext_getElem
    · simp
    · intro k _ _
      simp [Nat.add_assoc]
  have hwhole := flatten_chunks (n := readWindow) (by decide) (List.range' pos len)
  unfold chunks at hwhole
  rw [List.length_range'] at hwhole
  simp only [hrun] at hwhole
  simp only [fragments, List.flatMap_map, ReadSpan.copied, List.flatMap_cons, List.flatMap_nil,
    List.append_nil]
  rw [← hwhole, List.map_flatten, List.map_map, List.flatMap_def]
  rfl

/-- The reads of `coalesce` are of the one pack, and copy the entries. -/
theorem copied_coalesce (pack gap : ℕ) (locs : List ObjRow) :
    (∀ r ∈ coalesce pack gap locs, r.pack = pack) ∧
      (coalesce pack gap locs).flatMap ReadSpan.copied =
        locs.flatMap fun l => (List.range' l.offset l.len).map fun off => (pack, off) := by
  induction locs using List.reverseRecOn with
  | nil => exact ⟨fun r hr => (by cases hr), rfl⟩
  | append_singleton locs l ih =>
    unfold coalesce at ih ⊢
    rw [List.foldl_append, List.foldl_cons, List.foldl_nil, List.flatMap_append]
    generalize List.foldl _ [] locs = out at ih ⊢
    obtain ⟨hpack, hcopied⟩ := ih
    -- An entry that starts a read adds its fragments.
    have hnew : (∀ r ∈ out ++ fragments pack l.offset l.len, r.pack = pack) ∧
        (out ++ fragments pack l.offset l.len).flatMap ReadSpan.copied =
          (locs.flatMap fun l => (List.range' l.offset l.len).map fun off => (pack, off)) ++
            [l].flatMap fun l => (List.range' l.offset l.len).map fun off => (pack, off) := by
      constructor
      · intro r hr
        rcases List.mem_append.mp hr with hr | hr
        · exact hpack r hr
        · obtain ⟨i, -, rfl⟩ := List.mem_map.mp hr
          rfl
      · rw [List.flatMap_append, copied_fragments, hcopied]
        simp
    cases hlast : out.getLast? with
    | none => exact hnew
    | some r =>
      dsimp only
      split_ifs
      · -- It joins the last read.
        obtain ⟨front, rfl⟩ := List.getLast?_eq_some_iff.mp hlast
        have hr : r.pack = pack := hpack r (by simp)
        rw [List.dropLast_concat]
        constructor
        · intro q hq
          rcases List.mem_append.mp hq with hq | hq
          · exact hpack q (by simp [hq])
          · rw [List.mem_singleton.mp hq]
            exact hr
        · rw [← hcopied]
          simp [ReadSpan.copied, hr]
      · exact hnew

theorem copied_planSlice (db : Db) (i : ℕ) (p : PackSlice) :
    (planSlice db i p).flatMap ReadSpan.copied =
      (db.entriesOf p).flatMap fun l => (List.range' l.offset l.len).map fun off => (i, off) := by
  unfold planSlice
  dsimp only
  split_ifs
  · exact (copied_coalesce i _ _).2
  · exact (copied_coalesce i _ _).2

/-- The plan keeps the ids and the boundaries. -/
theorem planReads_keeps {db : Db} (h : planReads pick db left set = .ok set') :
    set'.shas = set.shas ∧ set'.shallow = set.shallow ∧ set'.unshallow = set.unshallow := by
  obtain ⟨set₁, h₁, rfl⟩ := planReads_settle h
  rcases (settle_ok h₁).2 with ⟨rfl, -⟩ | ⟨-, hr⟩
  · exact ⟨rfl, rfl, rfl⟩
  · unfold SendSet.rebuild at hr
    split at hr
    · cases hr
    · obtain ⟨packs, -, hr⟩ := FoldM.bind_eq_ok.mp hr
      cases hr
      exact ⟨rfl, rfl, rfl⟩

/-- A plan that is made has as many rows as bits, and its reads copy the entries. -/
theorem planReads_ok {db : Db} (h : planReads pick db left set = .ok set') :
    ∃ set₁, set.settle pick db = .ok set₁ ∧ set'.packs = set₁.packs ∧ set'.intact db = true ∧
      set'.reads.flatMap ReadSpan.copied = set'.entryBytes db := by
  obtain ⟨set₁, h₁, rfl⟩ := planReads_settle h
  refine ⟨set₁, h₁, rfl, (settle_ok h₁).1, ?_⟩
  rw [← List.flatMap_def, List.flatMap_assoc]
  simp only [copied_planSlice]
  rfl

/-! ## The walk -/

section Walk

variable {V : Db → Prop} {objs : Objects} {a : FetchArgs} {s : Db}

/-! ### Wants and tags -/

theorem Takes.tracked (hs : V s) {w w' : WantWalk} {x : Oid} {loc : ObjRow} (h : Tracked V w.set)
    (hrow : pick.row s x = some loc) (hw : Takes s w x loc w') : Tracked V w'.set :=
  h.mark (looked_of_row hs hrow) hw.set

theorem Peels.tracked (hs : V s) {w w' : WantWalk} {d : TagData} (h : Tracked V w.set)
    (hw : Peels pick s w d w') : Tracked V w'.set := by
  rcases hw.set with ⟨hset, -⟩ | ⟨-, -, loc, hrow, hset⟩
  · exact hset ▸ h
  · exact h.mark (looked_of_row hs hrow) hset

/-! ### Commits -/

theorem excluded_among (hs : V s) (n : ℕ) (nots frontier : List Oid) :
    Among V s (excluded objs pick n nots frontier) fun _ _ => True := by
  induction n generalizing s nots frontier with
  | zero => exact among_pure hs trivial
  | succ n ih =>
    unfold excluded
    dsimp only
    split_ifs
    · exact among_pure hs trivial
    · exact among_fail hs _
    · refine among_read_bind.mpr ?_
      split_ifs
      · exact among_pure hs trivial
      · exact (load_among hs _).bind fun u rows hu _ => ih hu _ _

theorem visitCommit_tracked {nots : List Oid} {w w' : CommitWalk} {q : QueueItem} {loc : ObjRow}
    (hloc : Looked V q.id loc) (h : Tracked V w.set)
    (hw : visitCommit objs s a acks nots w q loc = .ok w') : Tracked V w'.set := by
  obtain ⟨c, -, hv⟩ := visitCommit_visit hw
  have hset := hv.set
  split_ifs at hset
  · exact h.mark hloc hset
  · rw [hset]
    exact h

theorem boundaries_tracked {w : CommitWalk} (h : Tracked V w.set) :
    Tracked V (boundaries a acks w) := by
  unfold boundaries
  dsimp only
  split_ifs
  · exact h.congr rfl rfl rfl
  · exact h

/-! ### Trees -/

theorem expandTree_set {w w' : TreeWalk} {item : Oid × List Oid}
    (h : expandTree objs filter w item = .ok w') : w'.set = w.set := by
  unfold expandTree at h
  obtain ⟨had, -, h⟩ := FoldM.bind_eq_ok.mp h
  cases hes : objs.tree item.1 with
  | none => simp [hes] at h
  | some es =>
    simp only [hes] at h
    refine FoldM.inv (I := fun _ v => v.set = w.set) h rfl fun e es v v' hv hv' => ?_
    rw [← hv]
    unfold expandEntry at hv'
    dsimp only at hv'
    split_ifs at hv' <;> (cases hv'; rfl)

theorem expandTrees_set {w w' : TreeWalk} {items : List (Oid × List Oid)}
    (h : items.foldlM (expandTree objs filter) w = .ok w') : w'.set = w.set :=
  FoldM.inv (I := fun _ v => v.set = w.set) h rfl fun _ _ _ _ hv hv' => (expandTree_set hv').trans hv

theorem markBlobs_tracked (hs : V s) {blobs : List Oid} (h : Tracked V set)
    (hm : markBlobs pick s filter set blobs = .ok set') : Tracked V set' := by
  unfold markBlobs at hm
  refine FoldM.inv (I := fun _ v => Tracked V v) hm h fun b bs v v' hv hv' => ?_
  cases hrow : pick.row s b with
  | none => simp [hrow] at hv'
  | some loc =>
    simp only [hrow] at hv'
    have hmark : ∀ u, v.mark s b loc = .ok u → Tracked V u :=
      fun u hu => hv.mark (looked_of_row hs hrow) hu
    split at hv'
    · split_ifs at hv'
      · cases hv'
        exact hv
      · exact hmark v' hv'
    · exact hmark v' hv'

theorem rideAlong_tracked (hs : V s) {sent : List Oid} (h : Tracked V set)
    (hr : rideAlong pick s a acks sent set = .ok set') : Tracked V set' := by
  unfold rideAlong at hr
  split_ifs at hr
  · refine FoldM.inv (I := fun _ v => Tracked V v) hr h fun p ps v v' hv hv' => ?_
    split_ifs at hv'
    · cases hrow : pick.row s p.1 with
      | none =>
        simp only [hrow, Except.ok.injEq] at hv'
        exact hv' ▸ hv
      | some loc =>
        simp only [hrow] at hv'
        exact hv.mark (looked_of_row hs hrow) hv'
    · cases hv'
      exact hv
  · cases hr
    exact h

/-- The set that a fetch plans: it tracks the marks, and is planned in the last state. -/
theorem sendSet_among (hs : V s) (left plan : ℕ) :
    Among V s (sendSet objs pick a left plan) fun t set => ∃ marks, Tracked V marks ∧
      planReads pick t plan marks = .ok set := by
  unfold sendSet
  refine among_read_bind.mpr ?_
  refine (among_ofExcept hs (P := fun _ w => Tracked V w.set) fun w hw =>
    FoldM.inv (I := fun _ w => Tracked V w.set) hw tracked_walk fun x xs v v' hv hv' => ?_).bind
    fun s w hs hw => ?_
  · obtain ⟨loc, hrow, htakes⟩ := takeWant_ok hv'
    exact htakes.tracked hs hv hrow
  refine (peelTags_among (I := fun _ w => Tracked V w.set) (fun _ => id)
    (fun u t rest v d v' hu _ hv _ hpeels => hpeels.tracked hu hv) hs left hw).bind
    fun s w hs hw => ?_
  refine (excluded_among hs _ _ _).bind fun s nots hs _ => among_read_bind.mpr ?_
  refine (walkCommits_among (I := fun _ w => Tracked V w.set) (fun _ => id)
    (fun u q rest loc v v' _ hloc hv hv' => visitCommit_tracked hloc.looked hv hv') hs _
    (w := ⟨w.set, w.sent, [], [], [], [], w.trees, [], _⟩) hw.1).bind fun s c hs hc => ?_
  refine (load_among hs _).bind fun s _ hs _ => ?_
  refine (among_ofExcept hs (P := fun _ _ => True) fun _ _ => trivial).bind fun s edges hs _ => ?_
  refine (walkTrees_among (I := fun _ w => Tracked V w.set) (K := fun w => Tracked V w.set)
    (fun _ => id) ?_ (fun u w set hu hw hset => markBlobs_tracked hu hw hset) hs _
    (w := ⟨_, w.seen, _, []⟩) (boundaries_tracked hc.1)).bind fun s t hs ht =>
    among_read_bind.mpr ?_
  · intro u chunk rest rows v set v' _ _ hrows _ hv hset hv'
    rw [expandTrees_set hv']
    exact hv.markAll (fun p hp => (hrows p hp).looked) hset
  refine (among_ofExcept hs (P := fun u set => u = s ∧ Tracked V set) fun set hset =>
    ⟨rfl, rideAlong_tracked hs ht.1 hset⟩).bind fun u set hu hset => ?_
  obtain ⟨rfl, hset⟩ := hset
  exact among_ofExcept hu fun out hout => ⟨set, hset, hout⟩

end Walk

/-! ## The plan -/

/-- The pack was live in a state that the walk met. -/
def MetLive (V : Db → Prop) (pack : PackId) : Prop := ∃ s, V s ∧ s.packLive pack = true

/-- What the index guarantees over the states that the walk met, up to the last. -/
structure Steady (V : Db → Prop) (t : Db) : Prop where
  /-- An entry of a live pack has one row. -/
  indexed : ∀ s, V s → ∀ r ∈ s.objects, ∀ r' ∈ s.objects, s.packLive r.pack_id = true →
    r.pack_id = r'.pack_id → r.idx = r'.idx → r = r'
  /-- A pack that was live gets no other rows. -/
  kept : ∀ s, V s → ∀ r ∈ t.objects, s.packLive r.pack_id = true → r ∈ s.objects

/-- What a walk that marks some ids needs of the states that it met, up to the last, in which it
plans. -/
structure Undisturbed (V : Db → Prop) (t : Db) (ids : List Oid) : Prop extends Steady V t where
  /-- No object that is marked twice has rows in two packs that were live. -/
  once : ∀ r ∈ t.objects, ∀ r' ∈ t.objects, MetLive V r.pack_id → MetLive V r'.pack_id →
    r.sha = r'.sha → 2 ≤ ids.count r.sha → r.pack_id = r'.pack_id

section Plan

variable {V : Db → Prop} {t : Db} {marks : SendSet}

/-- What a set needs to send each of its objects once: the rows of its bits are those of its ids. -/
structure Exact (t : Db) (set : SendSet) : Prop where
  packs : (set.packs.map (·.pack)).Nodup
  intact : set.intact t = true
  /-- An entry that is sent has one row. -/
  indexed : ∀ p ∈ set.packs, ∀ r ∈ t.objects, ∀ r' ∈ t.objects, r.pack_id = p.pack →
    r'.pack_id = p.pack → Bits.get p.bitmap r.idx = true → r.idx = r'.idx → r = r'
  bits : ∀ r ∈ t.objects, HasBit set.packs r.pack_id r.idx → r.sha ∈ set.ids
  ids : ∀ x ∈ set.ids, ∃ pack j, HasBit set.packs pack j ∧
    ∀ r ∈ t.objects, r.pack_id = pack → r.idx = j → r.sha = x
  once : ∀ r ∈ t.objects, ∀ r' ∈ t.objects, HasBit set.packs r.pack_id r.idx →
    HasBit set.packs r'.pack_id r'.idx → r.sha = r'.sha → r.pack_id = r'.pack_id

/-- As many rows as bits: each set bit has its row. -/
theorem exists_entry {p : PackSlice} (hlen : (t.entriesOf p).length = Bits.popcount p.bitmap)
    (hidx : ∀ r ∈ t.entriesOf p, ∀ r' ∈ t.entriesOf p, r.idx = r'.idx → r = r') {j : ℕ}
    (hj : Bits.get p.bitmap j = true) : ∃ r ∈ t.entriesOf p, r.idx = j := by
  have hnodup : (t.entriesOf p).Nodup :=
    (List.perm_insertionSort _ _).nodup_iff.mpr (Table.nodup_select _ _)
  have hmap : ((t.entriesOf p).map (·.idx)).Nodup := List.Nodup.map_on hidx hnodup
  have hsub : (t.entriesOf p).map (·.idx) ⊆ Bits.indices p.bitmap := by
    intro i hi
    obtain ⟨r, hr, rfl⟩ := List.mem_map.mp hi
    exact Bits.mem_indices.mpr (mem_entriesOf.mp hr).2.2
  have hperm := (List.subperm_of_subset hmap hsub).perm_of_length_le (by
    rw [List.length_map, hlen, Bits.length_indices])
  have hmem : j ∈ (t.entriesOf p).map (·.idx) := hperm.mem_iff.mpr (Bits.mem_indices.mpr hj)
  exact List.mem_map.mp hmem

theorem Exact.mem_entries (h : Exact t set) {x : Oid} :
    x ∈ (set.entries t).map (·.sha) ↔ x ∈ set.ids := by
  unfold SendSet.entries
  simp only [List.mem_map, List.mem_flatMap]
  constructor
  · rintro ⟨r, ⟨p, hp, hr⟩, rfl⟩
    obtain ⟨hmem, hpack, hbit⟩ := mem_entriesOf.mp hr
    exact h.bits r hmem ⟨p, hp, hpack.symm, hbit⟩
  · intro hx
    obtain ⟨pack, j, ⟨p, hp, hpack, hbit⟩, hrow⟩ := h.ids x hx
    have hlen : (t.entriesOf p).length = Bits.popcount p.bitmap := by
      have := List.all_eq_true.mp h.intact p hp
      simpa using this
    have hidx : ∀ r ∈ t.entriesOf p, ∀ r' ∈ t.entriesOf p, r.idx = r'.idx → r = r' := by
      intro r hr r' hr' heq
      obtain ⟨hmem, hrp, hrb⟩ := mem_entriesOf.mp hr
      obtain ⟨hmem', hrp', -⟩ := mem_entriesOf.mp hr'
      exact h.indexed p hp r hmem r' hmem' hrp hrp' hrb heq
    obtain ⟨r, hr, hri⟩ := exists_entry hlen hidx hbit
    obtain ⟨hmem, hrp, -⟩ := mem_entriesOf.mp hr
    exact ⟨r, ⟨p, hp, hr⟩, hrow r hmem (hrp.trans hpack) hri⟩

theorem Exact.nodup (h : Exact t set) : ((set.entries t).map (·.sha)).Nodup := by
  unfold SendSet.entries
  rw [List.map_flatMap, List.nodup_flatMap]
  constructor
  · intro p hp
    -- Within a pack, the key of the table keeps the objects apart.
    refine List.Nodup.map_on (fun r hr r' hr' hsha => ?_)
      ((List.perm_insertionSort _ _).nodup_iff.mpr (Table.nodup_select _ _))
    obtain ⟨hmem, hrp, -⟩ := mem_entriesOf.mp hr
    obtain ⟨hmem', hrp', -⟩ := mem_entriesOf.mp hr'
    exact Table.eq_of_key_eq hmem hmem' (Prod.ext hsha (hrp.trans hrp'.symm))
  · refine (List.pairwise_map.mp h.packs).imp_of_mem ?_
    intro p q hp hq hne x hx hx'
    obtain ⟨r, hr, rfl⟩ := List.mem_map.mp hx
    obtain ⟨r', hr', hsha⟩ := List.mem_map.mp hx'
    obtain ⟨hmem, hrp, hrb⟩ := mem_entriesOf.mp hr
    obtain ⟨hmem', hrp', hrb'⟩ := mem_entriesOf.mp hr'
    have hpack := h.once r hmem r' hmem' ⟨p, hp, hrp.symm, hrb⟩ ⟨q, hq, hrp'.symm, hrb'⟩ hsha.symm
    exact hne (hrp.symm.trans (hpack.trans hrp'))

/-- The header counts the entries. -/
theorem Exact.count (h : Exact t set) : set.count = (set.entries t).length := by
  unfold SendSet.count SendSet.entries
  rw [List.length_flatMap]
  congr 1
  refine List.map_congr_left fun p hp => ?_
  have hlen := List.all_eq_true.mp h.intact p hp
  simp only [decide_eq_true_eq] at hlen
  exact hlen.symm

/-- In a steady index, the row of a bit is the one of a mark. -/
theorem Marked.row {ms : List (Oid × ObjRow)} (h : Marked V set.packs ms) (hu : Steady V t)
    {r : ObjRow} (hr : r ∈ t.objects) (hbit : HasBit set.packs r.pack_id r.idx) :
    ∃ m ∈ ms, m.1 = r.sha ∧ m.2 = r ∧ MetLive V r.pack_id := by
  obtain ⟨m, hm, hpack, hidx⟩ := h.bits _ _ hbit
  obtain ⟨s, hs, hmem, hsha, hlive⟩ := h.looked m hm
  rw [hpack] at hlive
  obtain rfl := hu.indexed s hs r (hu.kept s hs r hr hlive) m.2 hmem hlive hpack.symm hidx.symm
  exact ⟨m, hm, hsha.symm, rfl, s, hs, hlive⟩

/-- The marks of an id that was marked once are one. -/
theorem eq_of_count {ms : List (Oid × ObjRow)} {m m' : Oid × ObjRow} (hm : m ∈ ms) (hm' : m' ∈ ms)
    (hid : m'.1 = m.1) (hcount : (ms.map (·.1)).count m.1 < 2) : m' = m := by
  induction ms with
  | nil => cases hm
  | cons a ms ih =>
    rw [List.map_cons, List.count_cons] at hcount
    -- Beside the first mark there is room for no other of its id.
    have hfirst : ∀ q ∈ ms, q.1 = m.1 → a.1 ≠ m.1 := by
      intro q hq hqm ham
      have hpos : 0 < (ms.map (·.1)).count m.1 :=
        List.count_pos_iff.mpr (List.mem_map.mpr ⟨q, hq, hqm⟩)
      rw [if_pos (by simp [ham])] at hcount
      omega
    rcases List.mem_cons.mp hm with hma | hma
    · rcases List.mem_cons.mp hm' with hma' | hma'
      · rw [hma, hma']
      · exact absurd (hma ▸ rfl) (hfirst m' hma' hid)
    · rcases List.mem_cons.mp hm' with hma' | hma'
      · exact absurd (hma' ▸ hid) (hfirst m hma rfl)
      · exact ih hma hma' (by omega)

/-- A set that is intact in an undisturbed index is exact. -/
theorem Tracked.exact (h : Tracked V set) (hu : Undisturbed V t set.ids)
    (hstale : set.stale = false) (hint : set.intact t = true) : Exact t set := by
  obtain ⟨ms, hshas, hms, hall⟩ := h
  have hset : AllSet set.packs ms := hall.resolve_left (by simp [hstale])
  have hids : set.ids = ms.map (·.1) := by rw [SendSet.ids, hshas]; rfl
  refine ⟨hms.slices, hint, ?_, ?_, ?_, ?_⟩
  · intro p hp r hr r' hr' hrp hrp' hbit hidx
    obtain ⟨-, -, -, -, s, hs, hlive⟩ := hms.row hu.toSteady hr ⟨p, hp, hrp.symm, hbit⟩
    have hpack : r.pack_id = r'.pack_id := hrp.trans hrp'.symm
    exact hu.indexed s hs r (hu.kept s hs r hr hlive) r' (hu.kept s hs r' hr' (hpack ▸ hlive)) hlive
      hpack hidx
  · intro r hr hbit
    obtain ⟨m, hm, hsha, -⟩ := hms.row hu.toSteady hr hbit
    rw [hids, ← hsha]
    exact List.mem_map_of_mem hm
  · intro x hx
    rw [hids] at hx
    obtain ⟨m, hm, rfl⟩ := List.mem_map.mp hx
    obtain ⟨s, hs, hmem, hsha, hlive⟩ := hms.looked m hm
    refine ⟨_, _, hset m hm, fun r hr hrp hri => ?_⟩
    have hlive' : s.packLive r.pack_id = true := hrp ▸ hlive
    rw [hu.indexed s hs r (hu.kept s hs r hr hlive') m.2 hmem hlive' hrp hri, hsha]
  · intro r hr r' hr' hbit hbit' hsha
    obtain ⟨m, hm, hmsha, rfl, hmet⟩ := hms.row hu.toSteady hr hbit
    obtain ⟨m', hm', hmsha', rfl, hmet'⟩ := hms.row hu.toSteady hr' hbit'
    by_cases hcount : 2 ≤ set.ids.count m.2.sha
    · exact hu.once _ hr _ hr' hmet hmet' hsha hcount
    · rw [hids, ← hmsha, not_le] at hcount
      rw [eq_of_count hm hm' (hmsha'.trans (hsha.symm.trans hmsha.symm)) hcount]

/-- The plan of a tracked set emits each of its objects once. -/
theorem Tracked.plan (h : Tracked V marks) (ht : V t) (hp : planReads pick t left marks = .ok set)
    (hu : Undisturbed V t set.ids) : EmitsOnce t set := by
  have hids : set.ids = marks.ids := by rw [SendSet.ids, (planReads_keeps hp).1, SendSet.ids]
  obtain ⟨-, -, -, -, hbytes⟩ := planReads_ok hp
  obtain ⟨set₁, h₁, rfl⟩ := planReads_settle hp
  have hexact : Exact t set₁ := by
    obtain ⟨hint, ⟨rfl, hfresh⟩ | ⟨-, hr⟩⟩ := settle_ok h₁
    · exact h.exact hu hfresh hint
    · -- A set that is made anew is tracked in the last state alone.
      have hmet : ∀ {p}, MetLive (· = t) p → MetLive V p := by
        rintro p ⟨_, rfl, hlive⟩
        exact ⟨_, ht, hlive⟩
      refine (rebuild_faithful hr).1.tracked.exact ⟨⟨?_, ?_⟩, ?_⟩ (rebuild_faithful hr).1.fresh hint
      · rintro _ rfl
        exact hu.indexed _ ht
      · rintro _ rfl
        exact hu.kept _ ht
      · exact fun r hr r' hr' hl hl' => hu.once r hr r' hr' (hmet hl) (hmet hl')
  exact ⟨hexact.count, hbytes, fun x => hexact.mem_entries, hexact.nodup⟩

end Plan

/-- A walked fetch whose states were undisturbed emits each object that it marked once. -/
theorem sendSet_emits_once {objs : Objects} {a : FetchArgs} {plan : ℕ} {s t : Db}
    {resumed : List (Db × Reply)}
    (h : (sendSet objs pick a left plan).evalAmong s resumed = some (.ok set, t))
    (hu : Undisturbed (fun u => u = s ∨ u ∈ resumed.map (·.1)) t set.ids) : EmitsOnce t set := by
  have hmet : ∀ x ∈ resumed, x.1 = s ∨ x.1 ∈ resumed.map (·.1) :=
    fun x hx => .inr (List.mem_map_of_mem hx)
  obtain ⟨ht, marks, hmarks, hplan⟩ :=
    (sendSet_among (V := fun u => u = s ∨ u ∈ resumed.map (·.1)) (.inl rfl) left plan).of_evalAmong
      hmet h
  exact hmarks.plan ht hplan hu

/-! ## A publication under a fetch -/

/-- The tag `1` names the commit `2`, whose tree `3` is empty. -/
def taggedCommit : Objects where
  kind x :=
    match x with
    | 1 => .tag
    | 2 => .commit
    | _ => .tree
  size _ := 10
  commit _ := some ⟨3, [], none⟩
  tree _ := some []
  tag _ := some ⟨.commit, 2⟩

/-- The three objects lie in pack `10`, and a build has copied them into pack `9`. -/
def publishing : Db :=
  { Db.fresh with
    gc := { GcMeta.none with
      chain := some 7, started_at := some 0, phase := some .build, refs_version := some 0
      new_pack := some 9 }
    packs := ⟨[⟨9, .ingesting, 0, 0, none, 0, none⟩, ⟨10, .live, 3, 92, none, 0, none⟩], by decide⟩
    objects := ⟨[⟨1, 9, 0, 12, 20, .tag, 10⟩, ⟨1, 10, 0, 12, 20, .tag, 10⟩,
      ⟨2, 9, 1, 32, 20, .commit, 10⟩, ⟨2, 10, 1, 32, 20, .commit, 10⟩,
      ⟨3, 9, 2, 52, 20, .tree, 10⟩, ⟨3, 10, 2, 52, 20, .tree, 10⟩], by decide⟩
    marked := ⟨[⟨10, [true, true, true, false, false, false, false, false], none⟩], by decide⟩
    jobs := ⟨[⟨1, .gcConsolidate, 0, 0, none, .chain 7, .running, none, none, some 5, 0⟩],
      by decide⟩ }

/-- The build publishes its pack: until the sweep, both packs are live. -/
def published : Db :=
  ((finishBuild (.default fun _ => true) ⟨1, 5, .chain 7⟩ 0 (some 7) 9 ⟨3, 92, 32, 52⟩).run
    publishing).state

/-- A fetch that is resumed in a state each time. -/
def resumedIn (s : Db) : List (Db × Reply) := List.replicate 4 (s, ⟨0, false, 0, none⟩)

/-- A fetch of the tag and of its commit is resumed after the publication: it marked the commit as a
want in the old pack, and marks it again in the new one, so the commit is sent twice. -/
theorem sendSet_emits_twice :
    ∃ set, (sendSet taggedCommit Pick.first (fetchOf [1, 2]) 6 6).evalAmong publishing
        (resumedIn published) = some (.ok set, published) ∧ ¬ EmitsOnce published set := by
  refine ⟨⟨[⟨10, 3, 92, [true, true, false, false, false, false, false, false]⟩,
    ⟨9, 3, 92, [false, true, true, false, false, false, false, false]⟩],
    [⟨0, 12, 40, [(12, 20), (32, 20)]⟩, ⟨1, 32, 40, [(32, 20), (52, 20)]⟩], [], [],
    some [1, 2, 2, 3], false⟩, rfl, ?_⟩
  intro h
  have honce := h.once
  revert honce
  decide +kernel

/-- A fetch of the tag alone marks each object once. Resumed after the publication, it sends the tag
from the old pack, and the commit and the tree from the new one, each once. -/
theorem sendSet_emits_each :
    ∃ set, (sendSet taggedCommit Pick.first (fetchOf [1]) 6 6).evalAmong publishing
        (resumedIn published) = some (.ok set, published) ∧ EmitsOnce published set := by
  have heval : (sendSet taggedCommit Pick.first (fetchOf [1]) 6 6).evalAmong publishing
      (resumedIn published) = some (.ok ⟨[⟨10, 3, 92,
        [true, false, false, false, false, false, false, false]⟩,
        ⟨9, 3, 92, [false, true, true, false, false, false, false, false]⟩],
        [⟨0, 12, 20, [(12, 20)]⟩, ⟨1, 32, 40, [(32, 20), (52, 20)]⟩], [], [], some [1, 2, 3], false⟩,
        published) := rfl
  refine ⟨_, heval, sendSet_emits_once heval ?_⟩
  have hmet : ∀ u, u = publishing ∨ u ∈ (resumedIn published).map (·.1) →
      u.objects = published.objects := by
    intro u hu
    have hobjects : publishing.objects = published.objects := rfl
    rcases hu with rfl | hu
    · exact hobjects
    · rw [show u = published by simpa [resumedIn] using hu]
  -- The publication adds no rows, and the entries of each pack are numbered.
  have hidx : ∀ r ∈ published.objects.rows, ∀ r' ∈ published.objects.rows,
      r.pack_id = r'.pack_id → r.idx = r'.idx → r = r' := by decide +kernel
  have hcount : ∀ r ∈ published.objects.rows, [1, 2, 3].count r.sha < 2 := by decide +kernel
  refine { indexed := ?_, kept := ?_, once := ?_ }
  · intro s hs r hr r' hr' _ hpack hri
    rw [hmet s hs] at hr hr'
    exact hidx r hr r' hr' hpack hri
  · intro s hs r hr _
    rw [hmet s hs]
    exact hr
  · intro r hr r' _ _ _ _ htwice
    exact absurd htwice (not_le.mpr (hcount r hr))

end GitEdge
