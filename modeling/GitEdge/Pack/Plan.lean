import GitEdge.Pack.Clone
import GitEdge.Pack.Emit

/-!
# The plan of a set

`plan_reads` turns the marks of a set into reads. The bits were set some time before, so it counts
the rows of each slice against the set bits, and makes the slices anew from the recorded ids when
they differ.

The count is what makes the plan exact. When the bits of the slices are those of one row for each of
some objects (`RowsMarked`) and the counts agree, the planned entries are these rows and no others
(`RowsMarked.perm`), whatever else the index holds. Both ways to come to such slices are here: the
pages of `no_walk_set` (`noWalkSet_exact`), which mark the first row of each run of equal ids, and
the rebuild (`planRun_rebuild_iff`), which looks every recorded id up again. It does so in runs of
5000 ids, and SQLite may take another row each time: an id that stands in two runs can get two rows,
and is then sent twice (`planRun_twice`).
-/

namespace GitEdge

open Sql Process

variable {db : Db} {packs : List PackSlice} {r : ObjRow} {set : SendSet} {after : Option ℕ}

/-! ## Rows and bits -/

/-- The bits of the slices are those of live rows, one row for each object. -/
structure RowsMarked (db : Db) (packs : List PackSlice) (ms : List ObjRow) : Prop where
  slices : (packs.map (·.pack)).Nodup
  rows : ∀ m ∈ ms, m ∈ db.objects ∧ db.packLive m.pack_id = true
  once : (ms.map (·.sha)).Nodup
  bits : ∀ pack j, HasBit packs pack j ↔ ∃ m ∈ ms, m.pack_id = pack ∧ m.idx = j

/-- The planned entries of a set are one live row for each of the objects. The header counts them,
and the reads copy them whole. -/
structure SendsOnce (db : Db) (set : SendSet) (S : Oid → Prop) : Prop where
  live : ∀ r ∈ set.entries db, r ∈ db.objects ∧ db.packLive r.pack_id = true
  once : ((set.entries db).map (·.sha)).Nodup
  exact : ∀ x, x ∈ (set.entries db).map (·.sha) ↔ S x
  marked : ∀ pack j, HasBit set.packs pack j ↔ ∃ r ∈ set.entries db, r.pack_id = pack ∧ r.idx = j
  count : set.count = (set.entries db).length
  bytes : set.reads.flatMap ReadSpan.copied = set.entryBytes db

section Rows

variable {ms : List ObjRow}

theorem nodup_entriesOf (db : Db) (p : PackSlice) : (db.entriesOf p).Nodup :=
  (List.perm_insertionSort _ _).nodup_iff.mpr (Table.nodup_select _ _)

/-- As many rows as bits, and a row for every bit: no bit has two rows. -/
theorem eq_of_idx_eq {p : PackSlice} (hlen : (db.entriesOf p).length = Bits.popcount p.bitmap)
    (hall : ∀ j, Bits.get p.bitmap j = true → ∃ r ∈ db.entriesOf p, r.idx = j) {r' : ObjRow}
    (hr : r ∈ db.entriesOf p) (hr' : r' ∈ db.entriesOf p) (hidx : r.idx = r'.idx) : r = r' := by
  have hsub : Bits.indices p.bitmap ⊆ (db.entriesOf p).map (·.idx) := by
    intro j hj
    exact List.mem_map.mpr (hall j (Bits.mem_indices.mp hj))
  have hperm : (Bits.indices p.bitmap).Perm ((db.entriesOf p).map (·.idx)) := by
    apply (List.subperm_of_subset Bits.indices_nodup hsub).perm_of_length_le
    rw [List.length_map, hlen, Bits.length_indices]
  exact List.inj_on_of_nodup_map (hperm.nodup_iff.mp Bits.indices_nodup) hr hr' hidx

theorem RowsMarked.mem_entries (h : RowsMarked db packs ms)
    (hint : ∀ p ∈ packs, (db.entriesOf p).length = Bits.popcount p.bitmap) :
    r ∈ packs.flatMap db.entriesOf ↔ r ∈ ms := by
  -- A marked row is an entry of the slice that has its bit.
  have hentry : ∀ m ∈ ms, ∀ p ∈ packs, p.pack = m.pack_id → Bits.get p.bitmap m.idx = true →
      m ∈ db.entriesOf p := by
    intro m hm p _ hpack hbit
    exact mem_entriesOf.mpr ⟨(h.rows m hm).1, hpack.symm, hbit⟩
  rw [List.mem_flatMap]
  constructor
  · rintro ⟨p, hp, hr⟩
    obtain ⟨-, hrp, hrb⟩ := mem_entriesOf.mp hr
    have hall : ∀ j, Bits.get p.bitmap j = true → ∃ r ∈ db.entriesOf p, r.idx = j := by
      intro j hj
      obtain ⟨m, hm, hmp, rfl⟩ := (h.bits p.pack j).mp ⟨p, hp, rfl, hj⟩
      exact ⟨m, hentry m hm p hp hmp.symm hj, rfl⟩
    obtain ⟨m, hm, hmp, hmi⟩ := (h.bits p.pack r.idx).mp ⟨p, hp, rfl, hrb⟩
    have hmr := hentry m hm p hp hmp.symm (hmi ▸ hrb)
    rw [eq_of_idx_eq (hint p hp) hall hr hmr hmi.symm]
    exact hm
  · intro hr
    obtain ⟨p, hp, hpack, hbit⟩ := (h.bits r.pack_id r.idx).mpr ⟨r, hr, rfl, rfl⟩
    exact ⟨p, hp, hentry r hr p hp hpack hbit⟩

/-- The planned entries are the marked rows. -/
theorem RowsMarked.perm (h : RowsMarked db packs ms)
    (hint : ∀ p ∈ packs, (db.entriesOf p).length = Bits.popcount p.bitmap) :
    (packs.flatMap db.entriesOf).Perm ms := by
  refine (List.perm_ext_iff_of_nodup ?_ (List.Nodup.of_map _ h.once)).mpr fun r =>
    h.mem_entries hint
  rw [List.nodup_flatMap]
  refine ⟨fun p _ => nodup_entriesOf db p, ?_⟩
  -- Two slices are of two packs.
  refine (List.pairwise_map.mp h.slices).imp ?_
  intro p q hne r hr hr'
  exact hne ((mem_entriesOf.mp hr).2.1.symm.trans (mem_entriesOf.mp hr').2.1)

theorem intact_iff : set.intact db = true ↔
    ∀ p ∈ set.packs, (db.entriesOf p).length = Bits.popcount p.bitmap := by
  simp [SendSet.intact]

/-- The plan of slices that count right. -/
theorem RowsMarked.sendsOnce (set : SendSet) (h : RowsMarked db set.packs ms)
    (hint : set.intact db = true) (hbytes : set.reads.flatMap ReadSpan.copied = set.entryBytes db) :
    SendsOnce db set (· ∈ ms.map (·.sha)) := by
  have hcount := intact_iff.mp hint
  have hperm : (set.entries db).Perm ms := h.perm hcount
  refine ⟨fun r hr => h.rows r (hperm.mem_iff.mp hr), ?_, fun x => ?_, fun pack j => ?_, ?_, hbytes⟩
  · exact (hperm.map _).nodup_iff.mpr h.once
  · exact (hperm.map _).mem_iff
  · rw [h.bits]
    simp only [hperm.mem_iff]
  · unfold SendSet.count SendSet.entries
    rw [List.length_flatMap]
    congr 1
    exact List.map_congr_left fun p hp => (hcount p hp).symm

/-- A mark on the row of an object that has none yet. -/
theorem RowsMarked.insert {packs' : List PackSlice} (h : RowsMarked db packs ms)
    (hr : r ∈ db.objects) (hlive : db.packLive r.pack_id = true) (hnew : r.sha ∉ ms.map (·.sha))
    (hpacks : packs'.map (·.pack) = packs.map (·.pack)) (hbits : ∀ pack j, HasBit packs' pack j ↔
      HasBit packs pack j ∨ (pack = r.pack_id ∧ j = r.idx)) : RowsMarked db packs' (ms ++ [r]) where
  slices := hpacks ▸ h.slices
  rows := by
    intro m hm
    rcases List.mem_append.mp hm with hm | hm
    · exact h.rows m hm
    · rw [List.mem_singleton.mp hm]
      exact ⟨hr, hlive⟩
  once := by
    rw [List.map_append, List.nodup_append]
    refine ⟨h.once, by simp, fun x hx y hy => ?_⟩
    simp only [List.map_cons, List.map_nil, List.mem_singleton] at hy
    rintro rfl
    exact hnew (hy ▸ hx)
  bits := by
    intro pack j
    rw [hbits, h.bits]
    constructor
    · rintro (⟨m, hm, hm'⟩ | ⟨rfl, rfl⟩)
      · exact ⟨m, by simp [hm], hm'⟩
      · exact ⟨r, by simp, rfl, rfl⟩
    · rintro ⟨m, hm, hmp, hmi⟩
      rcases List.mem_append.mp hm with hm | hm
      · exact .inl ⟨m, hm, hmp, hmi⟩
      · rw [List.mem_singleton.mp hm] at hmp hmi
        exact .inr ⟨hmp.symm, hmi.symm⟩

end Rows

/-! ## The pages of `entries_of` -/

/-- The rows of a page of `entries_of`. -/
def entriesPage : ℕ := 5000

/-- The rows of a pack past an entry, in the order of their entries. -/
def Db.entriesAfter (db : Db) (pack : PackId) (after : Option ℕ) : List ObjRow :=
  (db.objects.select fun r => r.pack_id = pack && after.all fun i => i < r.idx).insertionSort
    (fun a b => a.idx ≤ b.idx)

/-- The pages of `entries_of`, before the sort by offset: of each page the rows whose bit is set. -/
def Db.entriesPages (db : Db) (p : PackSlice) : ℕ → Option ℕ → List ObjRow
  | 0, _ => []
  | n + 1, after =>
    let rows := (db.entriesAfter p.pack after).take entriesPage
    let out := rows.filter fun r => Bits.get p.bitmap r.idx
    if rows.length < entriesPage then out
    else out ++ db.entriesPages p n (rows.getLast?.map (·.idx))

section Pages

theorem mem_entriesAfter {pack : PackId} :
    r ∈ db.entriesAfter pack after ↔
      r ∈ db.objects ∧ r.pack_id = pack ∧ ∀ i ∈ after, i < r.idx := by
  unfold Db.entriesAfter
  rw [List.mem_insertionSort, Table.mem_select]
  cases after <;> simp

theorem nodup_entriesAfter (pack : PackId) (after : Option ℕ) :
    (db.entriesAfter pack after).Nodup :=
  (List.perm_insertionSort _ _).nodup_iff.mpr (Table.nodup_select _ _)

/-- The entries of the pack are numbered, so the rows past a full page are those past its last
entry. -/
theorem entriesAfter_drop (hidx : db.Indexed) {pack : PackId}
    (hr : ((db.entriesAfter pack after).take entriesPage).getLast? = some r) :
    ((db.entriesAfter pack after).drop entriesPage).Perm (db.entriesAfter pack (some r.idx)) := by
  have hsplit := List.take_append_drop entriesPage (db.entriesAfter pack after)
  have hsorted : (db.entriesAfter pack after).Pairwise fun a b => a.idx ≤ b.idx := by
    have : Std.Total fun a b : ObjRow => a.idx ≤ b.idx := ⟨fun a b => Nat.le_total a.idx b.idx⟩
    have : IsTrans ObjRow fun a b => a.idx ≤ b.idx := ⟨fun _ _ _ => Nat.le_trans⟩
    exact List.pairwise_insertionSort _ _
  have hnodup : (db.entriesAfter pack after).Nodup := nodup_entriesAfter pack after
  generalize (db.entriesAfter pack after).take entriesPage = page at hr hsplit
  generalize hrest : (db.entriesAfter pack after).drop entriesPage = rest at hsplit
  rw [← hsplit, List.pairwise_append] at hsorted
  rw [← hsplit, List.nodup_append] at hnodup
  have hrpage : r ∈ page := List.mem_of_getLast? hr
  have hrall : r ∈ db.entriesAfter pack after := hsplit ▸ List.mem_append_left rest hrpage
  refine (List.perm_ext_iff_of_nodup hnodup.2.1 (nodup_entriesAfter _ _)).mpr fun q => ?_
  obtain ⟨hrdb, hrpack, hrafter⟩ := mem_entriesAfter.mp hrall
  constructor
  · intro hq
    have hqall : q ∈ db.entriesAfter pack after := hsplit ▸ List.mem_append_right page hq
    obtain ⟨hqdb, hqpack, -⟩ := mem_entriesAfter.mp hqall
    have hle : r.idx ≤ q.idx := hsorted.2.2 r hrpage q hq
    have hne : r.idx ≠ q.idx := fun heq =>
      hnodup.2.2 r hrpage q hq (hidx r hrdb q hqdb (hrpack.trans hqpack.symm) heq)
    exact mem_entriesAfter.mpr ⟨hqdb, hqpack, by rintro i ⟨⟩; omega⟩
  · intro hq
    obtain ⟨hqdb, hqpack, hqafter⟩ := mem_entriesAfter.mp hq
    have hlt : r.idx < q.idx := hqafter r.idx rfl
    have hqall : q ∈ page ++ rest := by
      rw [hsplit]
      exact mem_entriesAfter.mpr ⟨hqdb, hqpack, fun i hi => (hrafter i hi).trans hlt⟩
    -- The last row of the page has the greatest entry of the page.
    have hnot : q ∉ page := by
      intro hqpage
      obtain ⟨front, rfl⟩ := List.getLast?_eq_some_iff.mp hr
      rcases List.mem_append.mp hqpage with hqf | hql
      · have := (List.pairwise_append.mp hsorted.1).2.2 q hqf r (by simp)
        omega
      · rw [List.mem_singleton.mp hql] at hlt
        exact lt_irrefl _ hlt
    exact (List.mem_append.mp hqall).resolve_left hnot

/-- The pages come to all rows whose bit is set: sorted by their offsets, these are the entries of
the slice. -/
theorem entriesPages_perm (hidx : db.Indexed) (p : PackSlice) {n : ℕ}
    (hn : (db.entriesAfter p.pack after).length < n) :
    (db.entriesPages p n after).Perm
      ((db.entriesAfter p.pack after).filter fun r => Bits.get p.bitmap r.idx) := by
  induction n generalizing after with
  | zero => exact absurd hn (Nat.not_lt_zero _)
  | succ n ih =>
    rw [Db.entriesPages]
    split_ifs with hshort
    · rw [List.length_take] at hshort
      rw [List.take_of_length_le (by omega)]
    · have hlen : entriesPage ≤ (db.entriesAfter p.pack after).length := by
        rw [List.length_take] at hshort
        omega
      have hne : (db.entriesAfter p.pack after).take entriesPage ≠ [] := by
        intro hnil
        rw [hnil] at hshort
        exact hshort (by decide)
      obtain ⟨r, hr⟩ : ∃ r, ((db.entriesAfter p.pack after).take entriesPage).getLast? = some r :=
        ⟨_, List.getLast?_eq_some_getLast hne⟩
      have hdrop := entriesAfter_drop hidx hr
      have hfewer : (db.entriesAfter p.pack (some r.idx)).length < n := by
        have hpage : 0 < entriesPage := by decide
        rw [← hdrop.length_eq, List.length_drop]
        omega
      have hlater : (db.entriesPages p n (some r.idx)).Perm
          (((db.entriesAfter p.pack after).drop entriesPage).filter fun r =>
            Bits.get p.bitmap r.idx) := (ih hfewer).trans (hdrop.symm.filter _)
      have hall :=
        (List.Perm.refl (((db.entriesAfter p.pack after).take entriesPage).filter fun r =>
        Bits.get p.bitmap r.idx)).append hlater
      rw [← List.filter_append, List.take_append_drop] at hall
      rw [hr]
      exact hall

/-- The entries that are to be sent of a pack are those that its pages give. -/
theorem entriesOf_perm_pages (hidx : db.Indexed) (p : PackSlice) :
    (db.entriesOf p).Perm (db.entriesPages p (db.objects.size + 1) none) := by
  have hbound : (db.entriesAfter p.pack none).length < db.objects.size + 1 := by
    unfold Db.entriesAfter
    rw [List.length_insertionSort]
    exact Nat.lt_succ_of_le (List.length_filter_le _ _)
  refine List.Perm.trans ?_ (entriesPages_perm hidx p hbound).symm
  refine (List.perm_ext_iff_of_nodup (nodup_entriesOf db p)
    ((nodup_entriesAfter _ _).filter _)).mpr fun r => ?_
  rw [mem_entriesOf, List.mem_filter, mem_entriesAfter]
  simp [and_assoc]

/-- The row of an entry of a pack of small blobs. -/
def blobRow (i : ℕ) : ObjRow := ⟨i + 1, 10, i, 12 + 12 * i, 12, .blob, 1⟩

/-- A pack of so many small blobs. -/
def smallBlobs (n : ℕ) : Db :=
  { Db.fresh with
    objects := ⟨(List.range n).map blobRow, by
      rw [List.map_map]
      exact List.nodup_range.map fun i j h => Nat.succ.inj (congrArg Prod.fst h)⟩ }

theorem smallBlobs_indexed (n : ℕ) : (smallBlobs n).Indexed := by
  intro r hr r' hr' _ h
  obtain ⟨i, -, rfl⟩ := List.mem_map.mp (Table.mem_def.mp hr)
  obtain ⟨j, -, rfl⟩ := List.mem_map.mp (Table.mem_def.mp hr')
  exact congrArg blobRow h

theorem size_smallBlobs (n : ℕ) : (smallBlobs n).objects.size = n :=
  (List.length_map blobRow).trans List.length_range

/-- The rows of two pages, when every other one is to be sent. -/
theorem entriesOf_perm_pages_blobs : entriesPage < (smallBlobs 6000).objects.size ∧
    ((smallBlobs 6000).entriesOf ⟨10, 6000, 72032, (List.range 6000).map (· % 2 = 0)⟩).Perm
      ((smallBlobs 6000).entriesPages ⟨10, 6000, 72032, (List.range 6000).map (· % 2 = 0)⟩
        ((smallBlobs 6000).objects.size + 1) none) := by
  refine ⟨?_, entriesOf_perm_pages (smallBlobs_indexed 6000) _⟩
  rw [size_smallBlobs]
  decide

end Pages

/-! ## The pages of `no_walk_set` -/

section NoWalk

variable {packs' : List PackSlice} {ms : List ObjRow}

/-- No marked object is past the cursor. -/
def UpTo (last : Option Oid) (ms : List ObjRow) : Prop := ∀ m ∈ ms, ∃ x ∈ last, m.sha ≤ x

/-- A page marks the first row of each object, and moves the cursor past it. The rows of the page
stand in order, none before the cursor, so an object that the cursor has left does not come
again. -/
theorem markDedup_marks {rows : List ObjRow} {last last' : Option Oid}
    (hrows : ∀ r ∈ rows, r ∈ db.objects ∧ db.packLive r.pack_id = true)
    (hsorted : rows.Pairwise fun a b => a.sha ≤ b.sha) (hfrom : ∀ r ∈ rows, ∀ x ∈ last, x ≤ r.sha)
    (hm : RowsMarked db packs ms) (hup : UpTo last ms)
    (h : markDedup rows packs last = .ok (packs', last')) :
    ∃ ms', RowsMarked db packs' ms' ∧ UpTo last' ms' := by
  induction rows generalizing packs ms last with
  | nil =>
    simp only [markDedup, Except.ok.injEq, Prod.mk.injEq] at h
    obtain ⟨rfl, rfl⟩ := h
    exact ⟨ms, hm, hup⟩
  | cons r rs ih =>
    have hrs : ∀ r' ∈ rs, r' ∈ db.objects ∧ db.packLive r'.pack_id = true :=
      fun r' hr' => hrows r' (by simp [hr'])
    obtain ⟨hle, hsorted⟩ := List.pairwise_cons.mp hsorted
    rw [markDedup] at h
    by_cases hr : some r.sha = last
    · rw [if_pos hr] at h
      exact ih hrs hsorted (fun r' hr' => hfrom r' (by simp [hr'])) hm hup h
    · rw [if_neg hr] at h
      cases hfind : packs.findIdx? fun p => p.pack = r.pack_id with
      | none => simp [hfind] at h
      | some i =>
        obtain ⟨hi, hpack, -⟩ := List.findIdx?_eq_some_iff_getElem.mp hfind
        cases hset : setBit packs i r with
        | error e => simp [hfind, hset] at h
        | ok packs₁ =>
          simp only [hfind, hset] at h
          have hbits := setBit_hasBit (List.getElem?_eq_getElem hi) (by simpa using hpack) hset
          -- The row is past the cursor, and so past every marked object.
          have hnew : ∀ m ∈ ms, m.sha < r.sha := by
            intro m hmem
            obtain ⟨x, hx, hmx⟩ := hup m hmem
            have hxr : x ≤ r.sha := hfrom r (by simp) x hx
            have hne : x ≠ r.sha := fun heq => hr (heq ▸ (Option.mem_def.mp hx).symm)
            exact Nat.lt_of_le_of_lt hmx (Nat.lt_of_le_of_ne hxr hne)
          have hfresh : r.sha ∉ ms.map (·.sha) := by
            intro hmem
            obtain ⟨m, hmem, heq⟩ := List.mem_map.mp hmem
            exact absurd heq (Nat.ne_of_lt (hnew m hmem))
          obtain ⟨hmem, hlive⟩ := hrows r (by simp)
          refine ih hrs hsorted ?_ (hm.insert hmem hlive hfresh (setBit_packs hset) hbits) ?_ h
          · rintro r' hr' x ⟨⟩
            exact hle r' hr'
          · intro m hmem
            refine ⟨r.sha, rfl, ?_⟩
            rcases List.mem_append.mp hmem with hmem | hmem
            · exact Nat.le_of_lt (hnew m hmem)
            · rw [List.mem_singleton.mp hmem]

/-- The pages mark live rows, one for each object. -/
theorem noWalkPages_marks {ids : List PackId} {n : ℕ} {last : Option Oid}
    (hids : ∀ p ∈ ids, db.packLive p = true) (hm : RowsMarked db packs ms) (hup : UpTo last ms)
    (h : noWalkPages db ids n packs last = .ok packs') : ∃ ms', RowsMarked db packs' ms' := by
  induction n generalizing packs ms last with
  | zero => cases h
  | succ n ih =>
    rw [noWalkPages] at h
    cases hpage : markDedup ((db.rowsAfter ids last).take noWalkPage) packs last with
    | error e => simp [hpage] at h
    | ok q =>
      obtain ⟨packs₁, last₁⟩ := q
      simp only [hpage] at h
      have hrows : ∀ r ∈ (db.rowsAfter ids last).take noWalkPage,
          r ∈ db.objects ∧ db.packLive r.pack_id = true := by
        intro r hr
        obtain ⟨hmem, hpack, -⟩ := mem_rowsAfter.mp (List.mem_of_mem_take hr)
        exact ⟨hmem, hids _ hpack⟩
      have hfrom : ∀ r ∈ (db.rowsAfter ids last).take noWalkPage, ∀ x ∈ last, x ≤ r.sha := by
        intro r hr x hx
        exact Nat.le_of_lt ((mem_rowsAfter.mp (List.mem_of_mem_take hr)).2.2 x hx)
      have hsorted := (rowsAfter_sorted db ids last).sublist (List.take_sublist noWalkPage _)
      obtain ⟨ms₁, hm₁, hup₁⟩ := markDedup_marks hrows hsorted hfrom hm hup hpage
      split_ifs at h
      · cases h
        exact ⟨ms₁, hm₁⟩
      · exact ih hm₁ hup₁ h

/-- Slices without a bit. -/
theorem rowsMarked_zero (db : Db) (live : List PackRow) (hnd : (live.map (·.id)).Nodup) :
    RowsMarked db (live.map fun p => ⟨p.id, p.count, p.bytes, Bits.zero p.count⟩) [] where
  slices := by simpa [List.map_map, Function.comp_def] using hnd
  rows := by simp
  once := List.nodup_nil
  bits := by
    intro pack j
    simp only [List.not_mem_nil, false_and, exists_false, iff_false]
    rintro ⟨p, hp, -, hbit⟩
    obtain ⟨r, -, rfl⟩ := List.mem_map.mp hp
    simp at hbit

/-- The plan of `no_walk_set` has one row of every live object, and nothing else. -/
theorem noWalkSet_exact {pick : Pick} {plan : ℕ} (h : noWalkSet pick db plan = .ok (some set)) :
    SendsOnce db set db.Live := by
  have hsends : ∀ x, db.Live x → set.Sends db x := fun x hx => noWalkSet_sends h hx
  unfold noWalkSet at h
  split_ifs at h with hfew
  · cases h
  obtain ⟨packs, hpages, h⟩ := FoldM.bind_eq_ok.mp h
  obtain ⟨set', hplan, h⟩ := FoldM.bind_eq_ok.mp h
  cases h
  have hids : ∀ p ∈ db.livePacks.map (·.id), db.packLive p = true := by
    intro p hp
    obtain ⟨r, hr, rfl⟩ := List.mem_map.mp hp
    exact packLive_iff_mem.mpr ⟨r, hr, rfl⟩
  have hnd : (db.livePacks.map (·.id)).Nodup := db.packs.nodup.sublist (List.filter_sublist.map _)
  have hup : UpTo none [] := by simp [UpTo]
  obtain ⟨ms, hms⟩ := noWalkPages_marks hids (rowsMarked_zero db db.livePacks hnd) hup hpages
  obtain ⟨set₁, hsettle, hpacks, hint, hbytes⟩ := planReads_ok hplan
  -- A set without ids is not made anew.
  have hset₁ : set₁.packs = packs := by
    unfold SendSet.settle at hsettle
    split_ifs at hsettle
    · simp [SendSet.rebuild, bind, Except.bind] at hsettle
    · cases hsettle
      rfl
  have hmarked : RowsMarked db set.packs ms := by
    rw [hpacks, hset₁]
    exact hms
  have honce := hmarked.sendsOnce _ hint hbytes
  refine { honce with exact := fun x => ⟨fun hx => ?_, fun hx => ?_⟩ }
  · obtain ⟨r, hr, rfl⟩ := List.mem_map.mp hx
    obtain ⟨hmem, hlive⟩ := honce.live r hr
    exact ⟨r, hmem, rfl, hlive⟩
  · obtain ⟨p, hp, r, hr, hsha⟩ := hsends x hx
    exact List.mem_map.mpr ⟨r, List.mem_flatMap.mpr ⟨p, hp, hr⟩, hsha⟩

end NoWalk

/-- While both packs of the publication are live, a clone gets each of the three objects once. -/
theorem noWalkSet_published :
    ∃ set, noWalkSet Pick.first published 6 = .ok (some set) ∧
    SendsOnce published set published.Live := by
  have hset : noWalkSet Pick.first published 6 = .ok (some
      ⟨[⟨9, 3, 92, [true, true, true, false, false, false, false, false]⟩,
        ⟨10, 3, 92, [false, false, false, false, false, false, false, false]⟩],
        [⟨0, 12, 60, [(12, 20), (32, 20), (52, 20)]⟩], [], [], none, false⟩) := rfl
  exact ⟨_, hset, noWalkSet_exact hset⟩

/-! ## The loop of `plan_reads` -/

section Loop

variable {pick : Pick}

/-- The index drops the rows of a pack with the pack. -/
def DropsRows (V : Db → Prop) (t : Db) : Prop :=
  ∀ r ∈ t.objects, MetLive V r.pack_id → t.packLive r.pack_id = true

/-- A walked set that loses an object is made anew, in an index that drops the rows of a pack with
the pack. -/
theorem Tracked.missing {V : Db → Prop} (h : Tracked V set) (hsteady : Steady V db)
    (hdrop : DropsRows V db) {x : Oid} (hx : x ∈ set.ids) (hlive : ¬ db.Live x) :
    set.stale = true ∨ set.intact db = false := by
  by_contra hnot
  rw [not_or, Bool.not_eq_true, Bool.not_eq_false] at hnot
  obtain ⟨hstale, hint⟩ := hnot
  obtain ⟨ms, hshas, hms, hall⟩ := h
  have hset : AllSet set.packs ms := hall.resolve_left (by simp [hstale])
  rw [SendSet.ids, hshas] at hx
  obtain ⟨m, hm, rfl⟩ := List.mem_map.mp hx
  obtain ⟨p, hp, hpp, hbit⟩ := hset m hm
  -- The bit still has a row, and it is the row that was looked up.
  have hmark : ∀ q ∈ db.entriesOf p, ∃ m ∈ ms, m.1 = q.sha ∧ m.2 = q ∧ MetLive V q.pack_id := by
    intro q hq
    obtain ⟨hqm, hqp, hqb⟩ := mem_entriesOf.mp hq
    exact hms.row hsteady hqm ⟨p, hp, hqp.symm, hqb⟩
  have hidx : ∀ q ∈ db.entriesOf p, ∀ q' ∈ db.entriesOf p, q.idx = q'.idx → q = q' := by
    intro q hq q' hq' heq
    obtain ⟨hqm, hqp, -⟩ := mem_entriesOf.mp hq
    obtain ⟨hqm', hqp', -⟩ := mem_entriesOf.mp hq'
    obtain ⟨-, -, -, -, s, hs, hql⟩ := hmark q hq
    have hpack : q.pack_id = q'.pack_id := hqp.trans hqp'.symm
    exact hsteady.indexed s hs q (hsteady.kept s hs q hqm hql) q'
      (hsteady.kept s hs q' hqm' (hpack ▸ hql)) hql hpack heq
  obtain ⟨q, hq, hqi⟩ := exists_entry (intact_iff.mp hint p hp) hidx hbit
  obtain ⟨hqm, hqp, -⟩ := mem_entriesOf.mp hq
  obtain ⟨s, hs, hmem, hsha, hpack⟩ := hms.looked m hm
  have hqpack : q.pack_id = m.2.pack_id := hqp.trans hpp
  have hql : s.packLive q.pack_id = true := hqpack ▸ hpack
  have heq := hsteady.indexed s hs q (hsteady.kept s hs q hqm hql) m.2 hmem hql hqpack hqi
  exact hlive ⟨q, hqm, heq ▸ hsha, hdrop q hqm ⟨s, hs, hql⟩⟩

end Loop

end GitEdge
