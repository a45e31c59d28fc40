import GitEdge.Lib.FoldM
import GitEdge.Pack.SendSet

/-!
# Marks and the plan

A mark names the row that a lookup took at some moment of the walk. `Tracked` is what the marks keep,
whatever happens meanwhile: each bit is the bit of a row of a marked object that was live when it was
looked up, and every mark has its bit unless the set is stale. A set that a walk over a still
database makes is faithful: it is tracked there and not stale, and the plan keeps it so, so the
entries that are sent are those of the marked ids.
-/

namespace GitEdge

open Sql

variable {packs packs' : List PackSlice} {loc : ObjRow} {db : Db} {set : SendSet} {x : Oid}

/-- The bit of an entry is set in the slice of its pack. -/
def HasBit (packs : List PackSlice) (pack : PackId) (i : ℕ) : Prop :=
  ∃ p ∈ packs, p.pack = pack ∧ Bits.get p.bitmap i = true

theorem setBit_hasBit {i : ℕ} {p : PackSlice} (hp : packs[i]? = some p)
    (hpack : p.pack = loc.pack_id) (h : setBit packs i loc = .ok packs') (pack : PackId) (j : ℕ) :
    HasBit packs' pack j ↔ HasBit packs pack j ∨ (pack = loc.pack_id ∧ j = loc.idx) := by
  unfold setBit at h
  rw [hp] at h
  obtain ⟨hi, rfl⟩ := List.getElem?_eq_some_iff.mp hp
  cases hb : Bits.set? packs[i].bitmap loc.idx with
  | none => simp [hb] at h
  | some b =>
    simp only [hb, Except.ok.injEq] at h
    subst h
    have hget := Bits.get_set? hb
    constructor
    · rintro ⟨q, hq, hqp, hqj⟩
      rcases List.mem_or_eq_of_mem_set hq with hq | rfl
      · exact .inl ⟨q, hq, hqp, hqj⟩
      · rw [hget j, Bool.or_eq_true, decide_eq_true_eq] at hqj
        rcases hqj with hqj | rfl
        · exact .inl ⟨packs[i], List.getElem_mem hi, hqp, hqj⟩
        · exact .inr ⟨hqp ▸ hpack, rfl⟩
    · have hnew : { packs[i] with bitmap := b } ∈ packs.set i { packs[i] with bitmap := b } :=
        List.mem_set hi _
      rintro (⟨q, hq, hqp, hqj⟩ | ⟨rfl, rfl⟩)
      · obtain ⟨k, hk, rfl⟩ := List.getElem_of_mem hq
        by_cases hik : i = k
        · subst hik
          exact ⟨_, hnew, hqp, by simp [hget, hqj]⟩
        · refine ⟨packs[k], ?_, hqp, hqj⟩
          rw [List.mem_iff_getElem]
          exact ⟨k, by simpa using hk, by simp [hik]⟩
      · exact ⟨_, hnew, hpack, by simp [hget]⟩

theorem packMeta_isSome {p : PackId} (h : db.packLive p = true) :
    ∃ c b, db.packMeta p = some (c, b) := by
  unfold Db.packLive at h
  unfold Db.packMeta
  cases hp : db.packs.find p with
  | none => simp [hp] at h
  | some r =>
    simp only [hp, Option.any_some, decide_eq_true_eq] at h
    exact ⟨r.count, r.bytes, by simp [h]⟩

/-- A mark that lands sets the bit of its row, and no other. -/
theorem markSlice_bits (h : markSlice db packs loc = .ok (some packs')) (pack : PackId) (j : ℕ) :
    HasBit packs' pack j ↔ HasBit packs pack j ∨ (pack = loc.pack_id ∧ j = loc.idx) := by
  unfold markSlice at h
  cases hf : packs.findIdx? fun p => p.pack = loc.pack_id with
  | some i =>
    rw [hf] at h
    obtain ⟨hi, hpack, -⟩ := List.findIdx?_eq_some_iff_getElem.mp hf
    cases hs : setBit packs i loc with
    | error e => simp [hs, Except.map] at h
    | ok packs'' =>
      simp only [hs, Except.map, Except.ok.injEq, Option.some.injEq] at h
      subst h
      exact setBit_hasBit (List.getElem?_eq_getElem hi) (by simpa using hpack) hs pack j
  | none =>
    simp only [hf] at h
    cases hmeta : db.packMeta loc.pack_id with
    | none => simp [hmeta] at h
    | some m =>
      obtain ⟨c, b⟩ := m
      simp only [hmeta] at h
      cases hs : setBit (packs ++ [⟨loc.pack_id, c, b, Bits.zero c⟩]) packs.length loc with
      | error e => simp [hs, Except.map] at h
      | ok packs'' =>
        simp only [hs, Except.map, Except.ok.injEq, Option.some.injEq] at h
        subst h
        rw [setBit_hasBit (p := ⟨loc.pack_id, c, b, Bits.zero c⟩) (by simp) rfl hs]
        -- The slice that was added has no bit yet.
        have hnew : HasBit (packs ++ [⟨loc.pack_id, c, b, Bits.zero c⟩]) pack j ↔
            HasBit packs pack j := by
          simp [HasBit, or_and_right, exists_or]
        rw [hnew]

/-- A mark on a live row lands. -/
theorem markSlice_hasBit {o : Option (List PackSlice)} (hlive : db.packLive loc.pack_id = true)
    (h : markSlice db packs loc = .ok o) :
    ∃ packs', o = some packs' ∧ ∀ pack j, HasBit packs' pack j ↔
      HasBit packs pack j ∨ (pack = loc.pack_id ∧ j = loc.idx) := by
  cases o with
  | some packs' => exact ⟨packs', rfl, markSlice_bits h⟩
  | none =>
    obtain ⟨c, b, hmeta⟩ := packMeta_isSome hlive
    unfold markSlice at h
    cases hf : packs.findIdx? fun p => p.pack = loc.pack_id with
    | some i =>
      rw [hf] at h
      cases hs : setBit packs i loc <;> simp [hs, Except.map] at h
    | none =>
      simp only [hf, hmeta] at h
      cases hs : setBit (packs ++ [⟨loc.pack_id, c, b, Bits.zero c⟩]) packs.length loc <;>
        simp [hs, Except.map] at h

theorem setBit_packs {i : ℕ} (h : setBit packs i loc = .ok packs') :
    packs'.map (·.pack) = packs.map (·.pack) := by
  unfold setBit at h
  cases hp : packs[i]? with
  | none => simp [hp] at h
  | some p =>
    cases hb : Bits.set? p.bitmap loc.idx with
    | none => simp [hp, hb] at h
    | some b =>
      simp only [hp, hb, Except.ok.injEq] at h
      subst h
      obtain ⟨hi, rfl⟩ := List.getElem?_eq_some_iff.mp hp
      rw [List.map_set]
      apply List.ext_getElem
      · simp
      · intro k hk hk'
        simp only [List.getElem_set, List.getElem_map]
        split_ifs with hik
        · subst hik
          rfl
        · rfl

/-- A pack has one slice. -/
theorem markSlice_packs (h : markSlice db packs loc = .ok (some packs'))
    (hnd : (packs.map (·.pack)).Nodup) : (packs'.map (·.pack)).Nodup := by
  unfold markSlice at h
  cases hf : packs.findIdx? fun p => p.pack = loc.pack_id with
  | some i =>
    rw [hf] at h
    cases hs : setBit packs i loc with
    | error e => simp [hs, Except.map] at h
    | ok packs'' =>
      simp only [hs, Except.map, Except.ok.injEq, Option.some.injEq] at h
      subst h
      rw [setBit_packs hs]
      exact hnd
  | none =>
    simp only [hf] at h
    cases hmeta : db.packMeta loc.pack_id with
    | none => simp [hmeta] at h
    | some m =>
      simp only [hmeta] at h
      cases hs : setBit (packs ++ [⟨loc.pack_id, m.1, m.2, Bits.zero m.1⟩]) packs.length loc with
      | error e => simp [hs, Except.map] at h
      | ok packs'' =>
        simp only [hs, Except.map, Except.ok.injEq, Option.some.injEq] at h
        subst h
        rw [setBit_packs hs, List.map_append, List.nodup_append]
        refine ⟨hnd, by simp, ?_⟩
        intro a ha b hb
        simp only [List.map_cons, List.map_nil, List.mem_singleton] at hb
        subst hb
        rintro rfl
        -- A slice of the pack would have been found.
        obtain ⟨p, hp, hpack⟩ := List.mem_map.mp ha
        have := List.findIdx?_eq_none_iff.mp hf p hp
        simp [hpack] at this

/-! ## Marks -/

/-- The marked ids of a set, in order. -/
def SendSet.ids (set : SendSet) : List Oid := set.shas.getD []

/-- The row was a live row of the object in a state that the walk met. -/
def Looked (V : Db → Prop) (x : Oid) (r : ObjRow) : Prop :=
  ∃ s, V s ∧ r ∈ s.objects ∧ r.sha = x ∧ s.packLive r.pack_id = true

/-- Marks on some slices, each an id with the row that was looked up for it in a state of `V`: there
is no bit but those of the rows. -/
structure Marked (V : Db → Prop) (packs : List PackSlice) (ms : List (Oid × ObjRow)) : Prop where
  slices : (packs.map (·.pack)).Nodup
  looked : ∀ m ∈ ms, Looked V m.1 m.2
  bits : ∀ pack j, HasBit packs pack j → ∃ m ∈ ms, m.2.pack_id = pack ∧ m.2.idx = j

/-- The bits of all the marks are set. -/
def AllSet (packs : List PackSlice) (ms : List (Oid × ObjRow)) : Prop :=
  ∀ m ∈ ms, HasBit packs m.2.pack_id m.2.idx

/-- The set of a walk that met the states of `V`: it is what its marks made of it, and unless it is
stale they all landed. -/
def Tracked (V : Db → Prop) (set : SendSet) : Prop :=
  ∃ ms, set.shas = some (ms.map (·.1)) ∧ Marked V set.packs ms ∧
    (set.stale = true ∨ AllSet set.packs ms)

/-- A set of a walk over a still database. -/
structure Faithful (db : Db) (set : SendSet) : Prop where
  tracked : Tracked (· = db) set
  fresh : set.stale = false

theorem marked_nil (V : Db → Prop) : Marked V [] [] :=
  ⟨List.nodup_nil, by simp, by rintro pack j ⟨p, hp, -⟩; cases hp⟩

theorem tracked_walk {V : Db → Prop} : Tracked V .walk :=
  ⟨[], rfl, marked_nil V, .inr fun _ h => by cases h⟩

theorem faithful_walk (db : Db) : Faithful db .walk := ⟨tracked_walk, rfl⟩

section

variable {V : Db → Prop} {choice : Choice} {ms : List (Oid × ObjRow)} {set' : SendSet}

theorem looked_of_row (hdb : V db) (h : choice.row db x = some loc) : Looked V x loc :=
  ⟨db, hdb, choice.mem h⟩

/-- A mark that lands. -/
theorem Marked.mark (h : Marked V packs ms) (hx : Looked V x loc)
    (hm : markSlice db packs loc = .ok (some packs')) :
    Marked V packs' (ms ++ [(x, loc)]) ∧ (AllSet packs ms → AllSet packs' (ms ++ [(x, loc)])) := by
  have hbits := markSlice_bits hm
  refine ⟨⟨markSlice_packs hm h.slices, ?_, fun pack j hj => ?_⟩, fun hall => ?_⟩
  · exact List.forall_mem_append.mpr ⟨h.looked, List.forall_mem_singleton.mpr hx⟩
  · rcases (hbits pack j).mp hj with hj | ⟨rfl, rfl⟩
    · obtain ⟨m, hmem, hrow⟩ := h.bits pack j hj
      exact ⟨m, List.mem_append_left _ hmem, hrow⟩
    · exact ⟨(x, loc), by simp, rfl, rfl⟩
  · refine List.forall_mem_append.mpr ⟨fun m hmem => (hbits _ _).mpr (.inl (hall m hmem)), ?_⟩
    exact List.forall_mem_singleton.mpr ((hbits _ _).mpr (.inr ⟨rfl, rfl⟩))

theorem Tracked.walked (h : Tracked V set) : set.shas.isSome = true := by
  obtain ⟨ms, hshas, -⟩ := h
  rw [hshas]
  rfl

/-- A marked id was looked up. -/
theorem Tracked.looked (h : Tracked V set) (hx : x ∈ set.ids) : ∃ r, Looked V x r := by
  obtain ⟨ms, hshas, hms, -⟩ := h
  rw [SendSet.ids, hshas] at hx
  obtain ⟨m, hm, rfl⟩ := List.mem_map.mp hx
  exact ⟨m.2, hms.looked m hm⟩

/-- A change of the boundaries leaves the marks. -/
theorem Tracked.congr (h : Tracked V set) (hshas : set'.shas = set.shas)
    (hpacks : set'.packs = set.packs) (hstale : set'.stale = set.stale) : Tracked V set' := by
  unfold Tracked
  rw [hshas, hpacks, hstale]
  exact h

/-- A mark on a row that was looked up for the object. -/
theorem Tracked.mark (h : Tracked V set) (hx : Looked V x loc)
    (hm : set.mark db x loc = .ok set') : Tracked V set' := by
  obtain ⟨ms, hshas, hms, hall⟩ := h
  have hids : ms.map (·.1) ++ [x] = (ms ++ [(x, loc)]).map (·.1) := by simp
  simp only [SendSet.mark, hshas, Option.map_some] at hm
  cases hs : markSlice db set.packs loc with
  | error e => simp [hs] at hm
  | ok o =>
    cases o with
    | none =>
      -- The set becomes stale, and the mark has no bit.
      simp only [hs, Option.isSome_some, if_true, Except.ok.injEq] at hm
      subst hm
      refine ⟨ms ++ [(x, loc)], congrArg some hids, ⟨hms.slices, ?_, fun pack j hj => ?_⟩, .inl rfl⟩
      · exact List.forall_mem_append.mpr ⟨hms.looked, List.forall_mem_singleton.mpr hx⟩
      · obtain ⟨m, hmem, hrow⟩ := hms.bits pack j hj
        exact ⟨m, List.mem_append_left _ hmem, hrow⟩
    | some packs' =>
      simp only [hs, Except.ok.injEq] at hm
      subst hm
      obtain ⟨hms', hall'⟩ := hms.mark hx hs
      exact ⟨ms ++ [(x, loc)], congrArg some hids, hms', hall.imp id hall'⟩

theorem Tracked.markAll {rows : List (Oid × ObjRow)} (h : Tracked V set)
    (hrows : ∀ p ∈ rows, Looked V p.1 p.2) (hm : set.markAll db rows = .ok set') :
    Tracked V set' := by
  refine (FoldM.inv (I := fun rest s => (∀ p ∈ rest, Looked V p.1 p.2) ∧ Tracked V s) hm
    ⟨hrows, h⟩ ?_).2
  rintro p rest s s' ⟨hrest, hs⟩ hp
  exact ⟨fun q hq => hrest q (by simp [hq]), hs.mark (hrest p (by simp)) hp⟩

/-- A mark on the row of an id. -/
theorem Faithful.mark (h : Faithful db set) (hx : choice.row db x = some loc)
    (hm : set.mark db x loc = .ok set') : Faithful db set' ∧ set'.ids = set.ids ++ [x] := by
  have htracked := h.tracked.mark (looked_of_row rfl hx) hm
  obtain ⟨l, hl⟩ := Option.isSome_iff_exists.mp h.tracked.walked
  simp only [SendSet.mark, hl, Option.map_some] at hm
  cases hs : markSlice db set.packs loc with
  | error e => simp [hs] at hm
  | ok o =>
    obtain ⟨packs', rfl, -⟩ := markSlice_hasBit (choice.mem hx).2.2 hs
    simp only [hs, Except.ok.injEq] at hm
    subst hm
    exact ⟨⟨htracked, h.fresh⟩, by simp [SendSet.ids, hl]⟩

/-- A loop of marks. -/
theorem Faithful.markAll {rows : List (Oid × ObjRow)} (h : Faithful db set)
    (hrows : ∀ p ∈ rows, choice.row db p.1 = some p.2) (hm : set.markAll db rows = .ok set') :
    Faithful db set' ∧ set'.ids = set.ids ++ rows.map (·.1) := by
  have key := FoldM.inv (I := fun rest s => (∀ p ∈ rest, choice.row db p.1 = some p.2) ∧
    Faithful db s ∧ s.ids ++ rest.map (·.1) = set.ids ++ rows.map (·.1)) hm
    ⟨hrows, h, rfl⟩ ?_
  · exact ⟨key.2.1, by simpa using key.2.2⟩
  · rintro p rest s s' ⟨hrest, hs, hids⟩ hp
    obtain ⟨hs', hids'⟩ := hs.mark (hrest p (by simp)) hp
    exact ⟨fun q hq => hrest q (by simp [hq]), hs', by rw [hids', ← hids]; simp⟩

end

/-! ## The plan -/

section

variable {pick : Pick} {left : ℕ} {set' : SendSet}

/-- The row that a rebuild takes for the id at some place of the list. -/
def Pick.rowAt (pick : Pick) (db : Db) (p : Oid × ℕ) : Option ObjRow :=
  (pick.again (p.2 / rebuildBatch)).row db p.1

theorem rebuildMark_ok {choice : Choice} (h : rebuildMark choice db packs x = .ok packs') :
    ∃ loc, choice.row db x = some loc ∧ markSlice db packs loc = .ok (some packs') := by
  unfold rebuildMark at h
  cases hrow : choice.row db x with
  | none => simp [hrow] at h
  | some loc =>
    cases hm : markSlice db packs loc with
    | error e => simp [hrow, hm] at h
    | ok o =>
      cases o with
      | none => simp [hrow, hm] at h
      | some packs'' =>
        simp only [hrow, hm, Except.ok.injEq] at h
        subst h
        exact ⟨loc, rfl, hm⟩

/-- A set that is made anew has the bits of the rows that are looked up for its ids. -/
theorem rebuild_marked (h : set.rebuild pick db = .ok set') :
    ∃ ms, ms.map (fun m => (m.1, some m.2)) =
        set.ids.zipIdx.map (fun p => (p.1, pick.rowAt db p)) ∧
      Marked (· = db) set'.packs ms ∧ AllSet set'.packs ms ∧ set'.stale = false ∧
      set'.shas = set.shas ∧ set.shas = some (ms.map (·.1)) := by
  unfold SendSet.rebuild at h
  cases hl : set.shas with
  | none => simp [hl] at h
  | some l =>
    simp only [hl] at h
    obtain ⟨packs, hpacks, hset⟩ := FoldM.bind_eq_ok.mp h
    cases hset
    -- The loop has marked the ids before those that are to come.
    obtain ⟨done, ms, hdone, hrows, hms, hall⟩ := FoldM.inv (I := fun rest packs => ∃ done ms,
        done ++ rest = l.zipIdx ∧
        ms.map (fun m => (m.1, some m.2)) = done.map (fun p => (p.1, pick.rowAt db p)) ∧
        Marked (· = db) packs ms ∧ AllSet packs ms) hpacks
      ⟨[], [], rfl, rfl, marked_nil _, fun _ hm => by cases hm⟩ fun p rest packs packs' hinv hp => by
        obtain ⟨done, ms, hdone, hrows, hms, hall⟩ := hinv
        obtain ⟨loc, hrow, hm⟩ := rebuildMark_ok hp
        obtain ⟨hms', hall'⟩ := hms.mark (looked_of_row rfl hrow) hm
        refine ⟨done ++ [p], ms ++ [(p.1, loc)], by simp [hdone], ?_, hms', hall' hall⟩
        rw [List.map_append, List.map_append, hrows]
        simp [Pick.rowAt, hrow]
    rw [List.append_nil] at hdone
    subst hdone
    have hids : ms.map (·.1) = l := by
      have := congrArg (List.map Prod.fst) hrows
      simpa [List.map_map, Function.comp_def] using this
    exact ⟨ms, by simpa [SendSet.ids, hl] using hrows, hms, hall, rfl, rfl, by rw [hids]⟩

theorem rebuild_faithful (h : set.rebuild pick db = .ok set') :
    Faithful db set' ∧ set'.shas = set.shas := by
  obtain ⟨ms, -, hms, hall, hfresh, hshas, hids⟩ := rebuild_marked h
  exact ⟨⟨⟨ms, hshas.trans hids, hms, .inr hall⟩, hfresh⟩, hshas⟩

/-- What `plan_reads` plans: the set as it is, when it is neither stale nor changed, or made anew. -/
theorem settle_ok (h : set.settle pick db = .ok set') :
    set'.intact db = true ∧ (set' = set ∧ set.stale = false ∨
      (set.stale || !set.intact db) = true ∧ set.rebuild pick db = .ok set') := by
  unfold SendSet.settle at h
  split_ifs at h with hnew
  · obtain ⟨set₁, h₁, h⟩ := FoldM.bind_eq_ok.mp h
    split_ifs at h with hint
    cases h
    exact ⟨hint, .inr ⟨hnew, h₁⟩⟩
  · cases h
    simp only [Bool.or_eq_true, Bool.not_eq_true', not_or, Bool.not_eq_true,
      Bool.not_eq_false] at hnew
    exact ⟨hnew.2, .inl ⟨rfl, hnew.1⟩⟩

theorem planReads_settle (h : planReads pick db left set = .ok set') :
    ∃ set₁, set.settle pick db = .ok set₁ ∧ set' = { set₁ with
      reads := (set₁.packs.zipIdx.map fun p => planSlice db p.2 p.1).flatten } := by
  unfold planReads at h
  obtain ⟨set₁, h₁, h⟩ := FoldM.bind_eq_ok.mp h
  dsimp only at h
  split_ifs at h
  cases h
  exact ⟨set₁, h₁, rfl⟩

/-- The plan keeps the ids, and the set faithful. -/
theorem Faithful.planReads (h : Faithful db set) (hp : planReads pick db left set = .ok set') :
    Faithful db set' ∧ set'.ids = set.ids := by
  obtain ⟨set₁, h₁, rfl⟩ := planReads_settle hp
  have hset₁ : Faithful db set₁ ∧ set₁.shas = set.shas := by
    rcases (settle_ok h₁).2 with ⟨rfl, -⟩ | ⟨-, hr⟩
    · exact ⟨h, rfl⟩
    · exact rebuild_faithful hr
  exact ⟨⟨hset₁.1.tracked.congr rfl rfl rfl, hset₁.1.fresh⟩, by
    simp only [SendSet.ids, hset₁.2]⟩

end

/-! ## What is sent -/

/-- The set sends the object: one of its planned entries is a row of the object. -/
def SendSet.Sends (db : Db) (set : SendSet) (x : Oid) : Prop :=
  ∃ p ∈ set.packs, ∃ r ∈ db.entriesOf p, r.sha = x

/-- An entry of a pack has one row. -/
def Db.Indexed (db : Db) : Prop :=
  ∀ r ∈ db.objects, ∀ r' ∈ db.objects, r.pack_id = r'.pack_id → r.idx = r'.idx → r = r'

theorem mem_entriesOf {p : PackSlice} {r : ObjRow} :
    r ∈ db.entriesOf p ↔ r ∈ db.objects ∧ r.pack_id = p.pack ∧ Bits.get p.bitmap r.idx = true := by
  unfold Db.entriesOf
  rw [(List.perm_insertionSort _ _).mem_iff, Table.mem_select]
  simp

/-- A faithful set sends the marked ids, and nothing else. -/
theorem Faithful.sends_iff (h : Faithful db set) (hidx : db.Indexed) :
    set.Sends db x ↔ x ∈ set.ids := by
  obtain ⟨⟨ms, hshas, hms, hall⟩, hfresh⟩ := h
  have hset : AllSet set.packs ms := hall.resolve_left (by simp [hfresh])
  have hids : set.ids = ms.map (·.1) := by rw [SendSet.ids, hshas]; rfl
  rw [hids, List.mem_map]
  constructor
  · rintro ⟨p, hp, r, hr, rfl⟩
    obtain ⟨hmem, hpack, hbit⟩ := mem_entriesOf.mp hr
    obtain ⟨m, hm, hpack', hidx'⟩ := hms.bits p.pack r.idx ⟨p, hp, rfl, hbit⟩
    obtain ⟨_, rfl, hmem', hsha, -⟩ := hms.looked m hm
    refine ⟨m, hm, ?_⟩
    rw [← hsha, hidx r hmem m.2 hmem' (hpack.trans hpack'.symm) hidx'.symm]
  · rintro ⟨m, hm, rfl⟩
    obtain ⟨p, hp, hpack, hbit⟩ := hset m hm
    obtain ⟨_, rfl, hmem, hsha, -⟩ := hms.looked m hm
    exact ⟨p, hp, m.2, mem_entriesOf.mpr ⟨hmem, hpack.symm, hbit⟩, hsha⟩

end GitEdge
