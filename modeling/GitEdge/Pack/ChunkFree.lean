import GitEdge.Pack.Chunks
import GitEdge.Pack.Format
import GitEdge.Pack.Toc

/-!
# When pass A does not depend on the chunks

A pack's entry table is a property of its bytes, and both passes find it if they find one
(`Pack/Chunks.lean`, `Pack/Toc.lean`). Whether they find it depends on the chunks in two ways. Pass
A asks the reader for 30 bytes before it decodes an entry's header, while the header of a delta
against an object of a sha256 repository has at least 33: with a chunk or a part that ends 30 bytes
after the entry's beginning the decoder fails. And the limit of 2 GiB is on the bytes received, so a
request just over it is accepted if the last chunk arrives late. Besides, the import's pass rejects
an offset to a delta's base of 2^63 or more, which the edge's pass takes.

`chunkFree_iff` says that these are all: `ChunkSafe` is their negation.
-/

namespace GitEdge

open Reader

variable {s : TocLoop} {done : List EntryRec}

variable {lib : PackLib} {fmt : ObjFormat} {b : List UInt8} {h : ℕ} {recs : List EntryRec}

/-! ## A slice that is not interrupted -/

/-- The import's pass ends with the entry table, whatever slices were made before, and a slice that
is not interrupted ends it. -/
def Tabulates (lib : PackLib) (fmt : ObjFormat) (push : PushId) (parts : List (List UInt8))
    (recs : List EntryRec) : Prop :=
  ∀ c toc, TocReach lib fmt push parts c toc →
    (c.phase = .resolve → ∀ i, tocByIdx toc push i = recs[i]?) ∧
    (c.phase = .toc → ∃ c' toc', tocSlice lib fmt push parts [] c toc = (toc', .ok c') ∧
      c'.phase = .resolve)

/-- What the import's pass needs of an entry. -/
structure Importable (lib : PackLib) (fmt : ObjFormat) (b : List UInt8) (rc : EntryRec) : Prop where
  readable : Readable lib fmt b rc lookAhead
  kind : importPass.kindOk rc.kind_or_delta = .ok ()
  offset_lt : rc.offset < 2^63
  size_lt : rc.size < 2^63

section Uninterrupted

variable {push : PushId} {stop : ℕ}

theorem partSource_holds : partSource.Holds lookAhead 0 0 fun _ => True :=
  ⟨fun _ _ _ => trivial, fun _ _ _ _ => trivial, fun _ _ _ _ _ _ => trivial⟩

/-- A turn of the loop reads the next entry. -/
theorem tocTurn_ok (hlib : lib.Lawful) (htable : Entries lib fmt b 12 recs stop)
    (hrecs : ∀ rc ∈ recs, Importable lib fmt b rc) (hs : LoopInv lib fmt b push recs.length done s)
    (hlt : s.idx < recs.length) : ∃ s', tocTurn lib fmt push s = .ok s' := by
  obtain ⟨more, rfl, hmore⟩ : ∃ more, recs = done ++ more ∧
    Entries lib fmt b s.parse_pos more stop := by
    obtain hahead | ⟨more, rfl, -⟩ := hs.table.entries.comparable hlib htable
    · exact hahead
    · have hidx := hs.idx
      rw [List.length_append] at hidx
      omega
  cases hmore with
  | nil =>
    have hidx := hs.idx
    rw [List.append_nil] at hlt
    omega
  | @cons _ _ rc more hentry htail =>
    have hrc := hrecs rc (by simp)
    have hhead : ∃ e, lib.fromBytes fmt (partSource.buffered (partSource.fill lookAhead s.reader)) =
        .ok e := by
      apply hrc.readable.mono hlib
      rw [hentry.offset, ← hs.left]
      exact partSource.take_fill lookAhead s.reader
    rw [← hs.left] at hentry
    obtain ⟨r, hread, -, -⟩ := readEntry_of_isEntry hlib partSource_holds (fun _ _ => rfl) trivial
      hentry (Nat.zero_le _) (Nat.zero_le _) hhead hrc.kind
    -- The batch fits the columns.
    have hcolumns : ∀ rc' ∈ s.rows ++ [rc], rc'.offset < 2^63 ∧ rc'.size < 2^63 := by
      intro rc' hrc'
      have hmem : rc' ∈ done ++ rc :: more := by
        obtain hold | hnew := List.mem_append.mp hrc'
        · rw [hs.rows] at hold
          exact List.mem_append_left _ (List.mem_of_mem_drop hold)
        · rw [List.mem_singleton.mp hnew]
          simp
      exact ⟨(hrecs rc' hmem).offset_lt, (hrecs rc' hmem).size_lt⟩
    unfold tocTurn
    simp only [FoldM.bind_eq_ok, hread, Except.ok.injEq, exists_eq_left']
    split_ifs
    · have hall : (s.rows ++ [rc]).all (fun rc => decide (rc.offset < 2^63 ∧ rc.size < 2^63)) =
          true := by
        rw [List.all_eq_true]
        exact fun rc' hrc' => decide_eq_true (hcolumns rc' hrc')
      unfold TocLoop.flush tocInsert
      dsimp only
      rw [if_pos hall]
      exact ⟨_, rfl⟩
    · exact ⟨_, rfl⟩

theorem tocLoop_ok (hlib : lib.Lawful) (htable : Entries lib fmt b 12 recs stop)
    (hrecs : ∀ rc ∈ recs, Importable lib fmt b rc) {k : ℕ}
    (hs : LoopInv lib fmt b push recs.length done s) (hk : s.idx + k = recs.length) :
    ∃ s' done', tocLoop lib fmt push k [] s = (s'.toc, .ok (s', [])) ∧ s'.idx = recs.length ∧
      LoopInv lib fmt b push recs.length done' s' := by
  induction k generalizing s done with
  | zero => exact ⟨s, done, rfl, hk, hs⟩
  | succ k ih =>
    obtain ⟨q, hq⟩ := tocTurn_ok hlib htable hrecs hs (by omega)
    obtain ⟨hidx, -, done', hq'⟩ := hs.turn hlib (by omega) hq
    obtain ⟨s', done'', hloop, hend, hs'⟩ := ih hq' (by omega)
    refine ⟨s', done'', ?_, hend, hs'⟩
    rw [tocLoop]
    simp only [List.head?_nil, hq, List.tail_nil]
    exact hloop

/-- The end of the pack is there. -/
theorem tocFinish_ok (hlib : lib.Lawful) (hpack : PackOk lib fmt b recs)
    (hrecs : ∀ rc ∈ recs, Importable lib fmt b rc) {c : ImportCursor}
    (hs : LoopInv lib fmt b push recs.length done s) (hend : s.idx = recs.length)
    (hcount : c.count = recs.length) :
    ∃ c' toc', tocFinish fmt push c [] s = (toc', .ok c') ∧ c'.phase = .resolve := by
  obtain ⟨rfl, hstop⟩ := hs.table.entries.unique hlib hpack.entries (hs.idx.trans hend)
  have hcolumns : s.rows.all (fun rc => decide (rc.offset < 2^63 ∧ rc.size < 2^63)) = true := by
    rw [List.all_eq_true]
    intro rc hrc
    rw [hs.rows] at hrc
    have hmem := hrecs rc (List.mem_of_mem_drop hrc)
    exact decide_eq_true ⟨hmem.offset_lt, hmem.size_lt⟩
  obtain ⟨s', hsettle⟩ : ∃ s', s.settle push = .ok s' := by
    unfold TocLoop.settle TocLoop.flush tocInsert
    rw [if_pos hcolumns]
    split_ifs
    · exact ⟨_, rfl⟩
    · exact ⟨_, rfl⟩
  obtain ⟨hs', hall, -⟩ := hs.settle hlib hsettle
  have hlast : ¬s'.next_idx < c.count := by
    rw [hcount, hall, ← hs'.idx]
    exact Nat.lt_irrefl _
  -- The hash is left.
  have htrailer : ¬(s'.reader.fill fmt.width).buf.length < fmt.width := by
    obtain ⟨-, hstop'⟩ := hs'.table.entries.unique hlib hpack.entries rfl
    have hlong := hpack.length
    obtain henough | hrest := partSource.fill_enough fmt.width s'.reader
    · exact Nat.not_lt.mpr henough
    · change (s'.reader.fill fmt.width).buf = _ at hrest
      rw [hrest, hs'.left, hstop', List.length_drop]
      omega
  unfold tocFinish
  rw [hsettle]
  simp only [hlast, if_false, List.head?_nil, htrailer]
  exact ⟨_, _, rfl, rfl⟩

/-- The import's pass finds the entry table of a pack whose entries it takes. -/
theorem tabulates_of_importable (hlib : lib.Lawful) (hpack : PackOk lib fmt b recs)
    (hrecs : ∀ rc ∈ recs, Importable lib fmt b rc) {parts : List (List UInt8)}
    (hparts : parts.flatten = b) : Tabulates lib fmt push parts recs := by
  intro c toc hreach
  constructor
  · intro hphase
    obtain ⟨recs', stop', hheader, htable, hrows⟩ := hreach.resolved hlib hparts hphase
    have hlen : recs'.length = recs.length := Except.ok.inj (hheader.symm.trans hpack.count)
    obtain ⟨rfl, -⟩ := htable.entries.unique hlib hpack.entries hlen
    exact hrows
  · intro hphase
    have hinv := hreach.inv hlib hparts
    obtain ⟨d, r, hheader⟩ : ∃ d r, tocHeader lib c ⟨parts, c.parse_pos, []⟩ = .ok (d, r) := by
      unfold tocHeader
      split_ifs with hstart
      · have hlong := hpack.length
        have hleft := partSource_start hparts c.parse_pos
        rw [hstart.2, List.drop_zero] at hleft
        rw [hstart.2]
        have henough : ¬(PartReader.fill 12 ⟨parts, 0, []⟩).buf.length < 12 := by
          obtain henough | hall := partSource.fill_enough 12 ⟨parts, 0, []⟩
          · exact Nat.not_lt.mpr henough
          · change (PartReader.fill 12 ⟨parts, 0, []⟩).buf = _ at hall
            rw [hall, hleft]
            omega
        have hhead : (PartReader.fill 12 ⟨parts, 0, []⟩).buf.take 12 = b.take 12 := by
          obtain ⟨t, ht⟩ := partSource.buffered_front (partSource.fill 12 ⟨parts, 0, []⟩)
          rw [partSource.left_fill, hleft] at ht
          rw [← ht]
          exact (List.take_append_of_le_length (Nat.le_of_not_lt henough)).symm
        dsimp only
        rw [if_neg henough, hhead, hpack.count]
        exact ⟨_, _, rfl⟩
      · exact ⟨_, _, rfl⟩
    obtain ⟨-, hphase', hentry, hleft⟩ := tocHeader_inv hparts hinv hheader
    have hcount : d.count = recs.length := Except.ok.inj (hentry.header.symm.trans hpack.count)
    obtain ⟨done, htable, hlen⟩ := hentry.done
    have hrows : ([] : List EntryRec) = done.drop d.next_idx := by
      rw [← hlen, List.drop_length]
    have hloop : LoopInv lib fmt b push recs.length done
        ⟨d.next_idx, d.next_idx, d.parse_pos, [], r, toc⟩ :=
      ⟨htable, hlen, hcount ▸ hentry.next_le, Nat.le_refl _, hrows, hleft, hcount ▸ hentry.tabled⟩
    have hk : d.next_idx + (d.count - d.next_idx) = recs.length := by
      have hle := hentry.next_le
      omega
    obtain ⟨s, done', hrun, hend, hs⟩ := tocLoop_ok hlib hpack.entries hrecs hloop hk
    obtain ⟨c', toc', hfinish, hresolve⟩ := tocFinish_ok hlib hpack hrecs hs hend hcount
    refine ⟨c', toc', ?_, hresolve⟩
    unfold tocSlice
    rw [hheader]
    dsimp only
    rw [hrun]
    exact hfinish

end Uninterrupted

/-! ## The condition -/

/-- The verdict and the entry table are the same for every chunking of the body, which has `h` bytes
before the pack, and the import's pass finds the same table for every split into slices and
parts. -/
def ChunkFree (lib : PackLib) (fmt : ObjFormat) (h : ℕ) (b : List UInt8) : Prop :=
  (∀ body body' : BodyReader, body.Of h b → body'.Of h b →
    (streamInner lib fmt body).toOption = (streamInner lib fmt body').toOption) ∧
  (∀ body recs n, body.Of h b → streamInner lib fmt body = .ok (recs, n) →
    ∀ push parts, parts.flatten = b → Tabulates lib fmt push parts recs)

/-- A request below the limit has headers that the look-ahead covers and offsets that fit a column;
a request above it is above it when its last entry ends, or when pass A looks ahead at an entry, or
has an entry whose header ends above it. -/
def ChunkSafe (lib : PackLib) (fmt : ObjFormat) (h : ℕ) (b : List UInt8) : Prop :=
  ∀ recs, PackOk lib fmt b recs → recs ≠ [] →
    if h + b.length ≤ maxPending then
      ∀ rc ∈ recs, Readable lib fmt b rc lookAhead ∧ ∀ d, rc.kind_or_delta = .ofsDelta d → d < 2^63
    else ¬FitsLimit lib fmt h b recs

theorem importPass_kindOk {k : EntryKind} :
    importPass.kindOk k = .ok () ↔ ∀ d, k = .ofsDelta d → d < 2^63 := by
  cases k with
  | full k => simp [importPass]
  | refDelta base => simp [importPass]
  | ofsDelta distance =>
    simp only [importPass, EntryKind.ofsDelta.injEq, forall_eq']
    split_ifs with hlt
    · exact ⟨fun _ => hlt, fun _ => rfl⟩
    · constructor
      · intro hok
        cases hok
      · intro hless
        exact absurd hless hlt

/-- The entries of a request below the limit are below it. -/
theorem importable_of_readable (hpack : PackOk lib fmt b recs) (hlimit : h + b.length ≤ maxPending)
    {rc : EntryRec} (hrc : rc ∈ recs) (hread : Readable lib fmt b rc lookAhead)
    (hkind : ∀ d, rc.kind_or_delta = .ofsDelta d → d < 2^63) : Importable lib fmt b rc := by
  obtain ⟨-, hstop, hentry⟩ := hpack.entries.mem hrc
  have hsize := hentry.size_le
  rw [maxStreamBlob] at hsize
  rw [maxPending] at hlimit
  exact ⟨hread, importPass_kindOk.mpr hkind, by omega, by omega⟩

/-- If nothing is accepted, nothing depends on the chunks. -/
theorem chunkFree_of_rejected
    (hreject : ∀ body recs n, body.Of h b → streamInner lib fmt body ≠ .ok (recs, n)) :
    ChunkFree lib fmt h b := by
  have hnone : ∀ body : BodyReader, body.Of h b → (streamInner lib fmt body).toOption = none := by
    intro body hbody
    cases hrun : streamInner lib fmt body with
    | error e => rfl
    | ok res => exact absurd hrun (hreject body res.1 res.2 hbody)
  refine ⟨fun body body' hbody hbody' => ?_, fun body recs n hbody hok => ?_⟩
  · rw [hnone body hbody, hnone body' hbody']
  · exact absurd hok (hreject body recs n hbody)

theorem ChunkSafe.chunkFree (hlib : lib.Lawful) (hsafe : ChunkSafe lib fmt h b) :
    ChunkFree lib fmt h b := by
  by_cases hpack : ∃ recs, PackOk lib fmt b recs
  · obtain ⟨recs, hpack⟩ := hpack
    by_cases hover : recs ≠ [] ∧ maxPending < h + b.length
    · -- The limit is noticed in every chunking.
      apply chunkFree_of_rejected
      intro body recs' n hbody hok
      obtain ⟨-, hpack', -⟩ := streamInner_ok hlib hbody hok
      obtain rfl := hpack.unique hlib hpack'
      have hnot := hsafe recs hpack hover.1
      rw [if_neg (Nat.not_le.mpr hover.2)] at hnot
      exact hnot (fits_of_accepted hlib hover.2 hover.1 hbody hok)
    · -- Every chunking is accepted.
      have hlimit : recs ≠ [] → h + b.length ≤ maxPending := by
        intro hne
        by_contra hlt
        exact hover ⟨hne, Nat.not_le.mp hlt⟩
      have hentries : ∀ rc ∈ recs, Importable lib fmt b rc := by
        intro rc hrc
        have hne : recs ≠ [] := List.ne_nil_of_mem hrc
        have hall := hsafe recs hpack hne
        rw [if_pos (hlimit hne)] at hall
        exact importable_of_readable hpack (hlimit hne) hrc (hall rc hrc).1 (hall rc hrc).2
      have hok : ∀ body : BodyReader, body.Of h b →
          streamInner lib fmt body = .ok (recs, recs.length) := fun body hbody =>
        accepted_of_readable hlib hpack hlimit (fun rc hrc => (hentries rc hrc).readable) hbody
      refine ⟨fun body body' hbody hbody' => ?_,
        fun body recs' n hbody hok' push parts hparts => ?_⟩
      · rw [hok body hbody, hok body' hbody']
      · rw [hok body hbody] at hok'
        cases hok'
        exact tabulates_of_importable hlib hpack hentries hparts
  · -- Nothing is accepted that is not a pack.
    apply chunkFree_of_rejected
    exact fun body recs n hbody hok => hpack ⟨recs, (streamInner_ok hlib hbody hok).2.1⟩

/-- The cursor and the table of an import that begins. -/
def tocStart : ImportCursor :=
  ⟨.toc, 0, 0, 0, [], none, none, none, none, false, 0, 0⟩

theorem ChunkFree.chunkSafe (hlib : lib.Lawful) (hfree : ChunkFree lib fmt h b) :
    ChunkSafe lib fmt h b := by
  intro recs hpack hne
  split_ifs with hlimit
  · have hwhole := whole_accepted hlib hpack hlimit
    intro rc hrc
    constructor
    · -- Otherwise a boundary in the header makes the edge reject the pack.
      by_contra hread
      obtain ⟨hcut, hreject⟩ := cut_rejected (h := h) hlib hpack hrc hread
      have hsame := hfree.1 _ _ BodyReader.whole_of (BodyReader.cut_of hcut)
      rw [hwhole] at hsame
      cases hrun : streamInner lib fmt (.cut h b (rc.offset + lookAhead)) with
      | error e =>
        rw [hrun] at hsame
        cases hsame
      | ok res => exact hreject res.1 res.2 hrun
    · -- Otherwise the import does not take the entry.
      have htab := hfree.2 _ _ _ BodyReader.whole_of hwhole 0 [b] (List.flatten_singleton)
      have hstart : TocReach lib fmt 0 [b] tocStart .empty := .start rfl rfl rfl (by simp)
      obtain ⟨c', toc', hslice, hresolve⟩ := (htab _ _ hstart).2 rfl
      obtain ⟨recs', stop, hheader, htable, -⟩ :=
        (hstart.slice rfl hslice).resolved hlib List.flatten_singleton hresolve
      have hlen : recs'.length = recs.length := Except.ok.inj (hheader.symm.trans hpack.count)
      obtain ⟨rfl, -⟩ := htable.entries.unique hlib hpack.entries hlen
      exact importPass_kindOk.mp (htable.kinds rc hrc)
  · intro hfits
    have hover : maxPending < h + b.length := Nat.not_le.mp hlimit
    obtain ⟨hcut, haccept⟩ := cut_accepted hlib hpack hne hover hfits
    have hsame := hfree.1 _ _ BodyReader.whole_of (BodyReader.cut_of hcut)
    rw [haccept] at hsame
    cases hrun : streamInner lib fmt (.whole h b) with
    | error e =>
      rw [hrun] at hsame
      cases hsame
    | ok res =>
      rw [hrun] at hsame
      cases hsame
      exact whole_rejected hlib hover hne _ hrun

/-- Pass A does not depend on the chunks exactly for the packs and requests that are safe. -/
theorem chunkFree_iff (hlib : lib.Lawful) (fmt : ObjFormat) (h : ℕ) (b : List UInt8) :
    ChunkFree lib fmt h b ↔ ChunkSafe lib fmt h b :=
  ⟨fun hfree => hfree.chunkSafe hlib, fun hsafe => hsafe.chunkFree hlib⟩

/-! ## A header of 33 bytes -/

/-- A pack with one delta of three bytes against an object of a repository of the given format. -/
def thinPack (fmt : ObjFormat) : List UInt8 :=
  packObject (Codec.git fmt) [entryBytes 7 (List.replicate fmt.width 1) [7, 7, 7]]

/-- A sha1 repository's delta is read whatever the chunks. -/
theorem chunkFree_thin : storedLib.Lawful ∧ ChunkFree storedLib .sha1 0 (thinPack .sha1) := by
  refine ⟨storedLib_lawful, (chunkFree_iff storedLib_lawful _ _ _).mpr ?_⟩
  have hwhole : streamInner storedLib .sha1 (.whole 0 (thinPack .sha1)) =
      .ok ([⟨12, 21, .refDelta 5731378969925109483151705226338364782964441345, 14, 3⟩], 1) := by
    decide +kernel
  obtain ⟨-, hpack, -⟩ := streamInner_ok storedLib_lawful BodyReader.whole_of hwhole
  intro recs hrecs _
  obtain rfl := hpack.unique storedLib_lawful hrecs
  rw [if_pos (by decide +kernel)]
  intro rc hrc
  rw [List.mem_singleton.mp hrc]
  refine ⟨⟨⟨.refDelta 5731378969925109483151705226338364782964441345, 3, 21⟩, ?_⟩, ?_⟩
  · decide +kernel
  · intro d hd
    cases hd

/-- The same pack of a sha256 repository: it is accepted as a whole, and rejected with a boundary 30
bytes after the entry's beginning, in the body and between two parts. -/
theorem chunks_decide_sha256 :
    storedLib.Lawful ∧
      (BodyReader.whole 0 (thinPack .sha256)).Of 0 (thinPack .sha256) ∧
      (BodyReader.cut 0 (thinPack .sha256) 42).Of 0 (thinPack .sha256) ∧
      streamInner storedLib .sha256 (.whole 0 (thinPack .sha256)) =
        .ok ([⟨12, 33, .refDelta
          454086624460063511464984254936031011189294057512315937409637584344757371137, 14, 3⟩], 1) ∧
      streamInner storedLib .sha256 (.cut 0 (thinPack .sha256) 42) =
        .error (.unpack "entry at 12: unexpected end") ∧
      (tocSlice storedLib .sha256 0
        [(thinPack .sha256).take 42, (thinPack .sha256).drop 42] [] tocStart .empty).2 =
        .error (.unpack "entry at 12: unexpected end") := by
  refine ⟨storedLib_lawful, BodyReader.whole_of, BodyReader.cut_of (by decide +kernel), ?_, ?_, ?_⟩
  · decide +kernel
  · decide +kernel
  · decide +kernel

end GitEdge
