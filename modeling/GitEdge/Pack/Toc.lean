import GitEdge.Pack.Parse

/-!
# Pass A over a staged pack

`toc_slice` of `jobs/import.rs` reads the entries of a staged pack from its part objects into
`import_toc`, slice after slice. A slice begins at the cursor's position with an empty buffer,
writes rows in batches of ten, and gives the cursor back when its budget is spent. A slice that
fails at an await leaves the batches that it wrote, and the next one begins at the old cursor and
writes them again.

The rows of `import_toc` are at any time the first entries of the pack's entry table
(`TocReach.inv`), at least those before the cursor.
-/

namespace GitEdge

open Reader Sql

variable {parts : List (List UInt8)} {done : List EntryRec} {count : ℕ}

/-! ## The part objects -/

/-- `CHUNK` of `PartReader::fill`. -/
def partChunk : ℕ := 8 * 2^20

/-- `PartReader`: the parts, the position of the next byte to read, and the buffer. -/
structure PartReader where
  parts : List (List UInt8)
  fetch : ℕ
  buf : List UInt8
deriving DecidableEq, Repr

namespace PartReader

/-- The part with the byte at `fetch`, and where in it that is; `base` is where the first part
begins. -/
def hit : List (List UInt8) → ℕ → ℕ → Option (List UInt8 × ℕ)
  | [], _, _ => none
  | part :: parts, base, fetch =>
    if fetch < base + part.length then some (part, fetch - base)
    else hit parts (base + part.length) fetch

/-- The loop of `fill`. Each turn reads something, so as many turns as there are bytes are
enough. -/
def fillLoop (min : ℕ) : ℕ → PartReader → PartReader
  | 0, r => r
  | fuel + 1, r =>
    if r.buf.length < min then
      match hit r.parts 0 r.fetch with
      | none => r
      | some (part, off) =>
        let got := (part.drop off).take partChunk
        fillLoop min fuel { r with fetch := r.fetch + got.length, buf := r.buf ++ got }
    else r

/-- `fill`. -/
def fill (min : ℕ) (r : PartReader) : PartReader :=
  fillLoop min (r.parts.flatten.length - r.fetch) r

/-- `consume`. -/
def consume (n : ℕ) (r : PartReader) : PartReader := { r with buf := r.buf.drop n }

/-- What has not been consumed. -/
def left (r : PartReader) : List UInt8 := r.buf ++ r.parts.flatten.drop r.fetch

theorem hit_some {base fetch : ℕ} {part : List UInt8} {off : ℕ} (hbase : base ≤ fetch)
    (h : hit parts base fetch = some (part, off)) :
    off < part.length ∧ ∃ t, parts.flatten.drop (fetch - base) = part.drop off ++ t := by
  induction parts generalizing base with
  | nil => cases h
  | cons p parts ih =>
    rw [hit] at h
    split_ifs at h with hlt
    · cases h
      refine ⟨by omega, parts.flatten, ?_⟩
      rw [List.flatten_cons, List.drop_append_of_le_length (by omega)]
    · obtain ⟨hoff, t, ht⟩ := ih (by omega) h
      refine ⟨hoff, t, ?_⟩
      rw [List.flatten_cons, List.drop_append, List.drop_of_length_le (by omega), List.nil_append,
        ← ht]
      congr 1
      omega

theorem hit_none {base fetch : ℕ} (hbase : base ≤ fetch) (h : hit parts base fetch = none) :
    parts.flatten.length ≤ fetch - base := by
  induction parts generalizing base with
  | nil => exact Nat.zero_le _
  | cons p parts ih =>
    rw [hit] at h
    split_ifs at h with hlt
    have hle := ih (by omega) h
    rw [List.flatten_cons, List.length_append]
    omega

/-- What a turn of `fill` reads. -/
theorem read_some {r : PartReader} {part : List UInt8} {off : ℕ}
    (h : hit r.parts 0 r.fetch = some (part, off)) :
    0 < ((part.drop off).take partChunk).length ∧
      left { r with
        fetch := r.fetch + ((part.drop off).take partChunk).length
        buf := r.buf ++ (part.drop off).take partChunk } = left r := by
  obtain ⟨hoff, t, ht⟩ := hit_some (Nat.zero_le _) h
  rw [Nat.sub_zero] at ht
  constructor
  · rw [List.length_take, List.length_drop, partChunk]
    omega
  · have hsplit : r.parts.flatten.drop r.fetch =
        (part.drop off).take partChunk ++ ((part.drop off).drop partChunk ++ t) := by
      rw [ht, ← List.append_assoc, List.take_append_drop]
    change r.buf ++ _ ++ _ = r.buf ++ _
    rw [← List.drop_drop, hsplit, List.drop_left, List.append_assoc]

theorem fillLoop_left (min fuel : ℕ) (r : PartReader) : (fillLoop min fuel r).left = r.left := by
  induction fuel generalizing r with
  | zero => rfl
  | succ fuel ih =>
    rw [fillLoop]
    split_ifs
    · cases h : hit r.parts 0 r.fetch with
      | none => rfl
      | some p =>
        dsimp only
        rw [ih]
        exact (read_some h).2
    · rfl

theorem fillLoop_buf (min fuel : ℕ) (r : PartReader) : r.buf <+: (fillLoop min fuel r).buf := by
  induction fuel generalizing r with
  | zero => exact List.prefix_refl _
  | succ fuel ih =>
    rw [fillLoop]
    split_ifs
    · cases h : hit r.parts 0 r.fetch with
      | none => exact List.prefix_refl _
      | some p =>
        obtain ⟨part, off⟩ := p
        dsimp only
        exact (List.prefix_append r.buf _).trans (ih { r with buf := r.buf ++ _, fetch := _ })
    · exact List.prefix_refl _

/-- The loop ends with enough bytes or with all of them. -/
theorem fillLoop_enough (min fuel : ℕ) (r : PartReader)
    (hfuel : r.parts.flatten.length ≤ r.fetch + fuel) :
    min ≤ (fillLoop min fuel r).buf.length ∨ (fillLoop min fuel r).buf = r.left := by
  induction fuel generalizing r with
  | zero =>
    right
    rw [fillLoop, left, List.drop_of_length_le (by omega), List.append_nil]
  | succ fuel ih =>
    rw [fillLoop]
    split_ifs with hlt
    · cases h : hit r.parts 0 r.fetch with
      | none =>
        right
        have hend := hit_none (Nat.zero_le _) h
        rw [left, List.drop_of_length_le (by omega), List.append_nil]
      | some p =>
        obtain ⟨hpos, hleft⟩ := read_some h
        dsimp only
        rw [← hleft]
        apply ih
        dsimp only
        omega
    · exact .inl (by omega)

end PartReader

/-- The reader of a staged pack. -/
def partSource : Source UInt8 PartReader Error where
  buffered r := r.buf
  left := PartReader.left
  fill := PartReader.fill
  take n r := .ok (r.consume n)
  buffered_front _ := List.prefix_append _ _
  left_fill n r := PartReader.fillLoop_left n _ r
  buffered_fill n r := PartReader.fillLoop_buf n _ r
  fill_enough n r := PartReader.fillLoop_enough n _ r (by omega)
  take_ok n r h := by
    refine ⟨_, rfl, rfl, ?_⟩
    change r.buf.drop n ++ _ = (r.buf ++ _).drop n
    rw [List.drop_append_of_le_length h]
    rfl

/-! ## `toc_slice` -/

/-- `TOC_FANOUT`. -/
def tocFanout : ℕ := 10

/-- `import_toc`. -/
abbrev TocTable : Type := Table TocRow fun r => (r.push_id, r.idx)

/-- The pass over a staged pack: an offset to a delta's base has to fit a column. -/
def importPass : PassA PartReader where
  full _ := false
  zlibAt pos hlen clen := pos + hlen + clen
  kindOk
    | .ofsDelta distance => if distance < 2^63 then .ok () else .error (.unpack "ofs distance")
    | _ => .ok ()

/-- The row of an entry. -/
def EntryRec.tocRow (push : PushId) (idx : ℕ) (rc : EntryRec) : TocRow :=
  ⟨push, idx, rc.offset, rc.header_len, rc.kind_or_delta, rc.compressed_len, rc.size⟩

/-- The entry of a row. -/
def TocRow.entryRec (r : TocRow) : EntryRec := ⟨r.offset, r.hlen, r.kind, r.clen, r.size⟩

/-- `by_idx` of `Toc::Sql`. -/
def tocByIdx (toc : TocTable) (push : PushId) (idx : ℕ) : Option EntryRec :=
  (toc.find (push, idx)).map TocRow.entryRec

/-- The rows of `INSERT OR REPLACE`, from an index on. -/
def tocReplace (push : PushId) : ℕ → List EntryRec → TocTable → TocTable
  | _, [], toc => toc
  | idx, rc :: rows, toc =>
    tocReplace push (idx + 1) rows
      ((toc.deleteWhere fun r => (r.push_id, r.idx) = (push, idx)).insertIgnore
        (rc.tocRow push idx))

/-- `toc_insert`. -/
def tocInsert (push : PushId) (first_idx : ℕ) (rows : List EntryRec) (toc : TocTable) :
    Except Error TocTable :=
  if rows.all fun rc => rc.offset < 2^63 ∧ rc.size < 2^63 then
    .ok (tocReplace push first_idx rows toc)
  else .error (.internal "u64 to i64")

/-- What a slice meets at a turn of its loop: it goes on, its budget is spent, or it fails in the
turn before a batch is written (a read fails, the lease is lost, the instance is killed). -/
inductive Turn where
  | go
  | pause
  | fail (e : Error)
deriving DecidableEq, Repr

/-- The variables of the loop. -/
structure TocLoop where
  idx : ℕ
  next_idx : ℕ
  parse_pos : ℕ
  rows : List EntryRec
  reader : PartReader
  toc : TocTable

/-- The rows that were collected are written. -/
def TocLoop.flush (push : PushId) (s : TocLoop) : Except Error TocLoop :=
  match tocInsert push s.next_idx s.rows s.toc with
  | .error e => .error e
  | .ok toc => .ok { s with next_idx := s.idx, rows := [], toc := toc }

/-- The rows that are left after the loop are written. -/
def TocLoop.settle (push : PushId) (s : TocLoop) : Except Error TocLoop :=
  if s.rows.isEmpty then .ok s else s.flush push

/-- A turn of the loop: an entry is read, and a full batch is written. -/
def tocTurn (lib : PackLib) (fmt : ObjFormat) (push : PushId) (s : TocLoop) :
    Except Error TocLoop := do
  let (r, rc) ← readEntry lib partSource importPass fmt s.parse_pos s.reader
  let s : TocLoop :=
    { s with
      idx := s.idx + 1
      parse_pos := s.parse_pos + rc.header_len + rc.compressed_len
      rows := s.rows ++ [rc]
      reader := r }
  if tocFanout ≤ s.rows.length then s.flush push else pure s

/-- The loop over the entries that are still to read, with the table it leaves. -/
def tocLoop (lib : PackLib) (fmt : ObjFormat) (push : PushId) :
    ℕ → List Turn → TocLoop → TocTable × Except Error (TocLoop × List Turn)
  | 0, turns, s => (s.toc, .ok (s, turns))
  | count + 1, turns, s =>
    match turns.head? with
    | some .pause => (s.toc, .ok (s, turns.tail))
    | some (.fail e) => (s.toc, .error e)
    | _ =>
      match tocTurn lib fmt push s with
      | .error e => (s.toc, .error e)
      | .ok s' => tocLoop lib fmt push count turns.tail s'

/-- The pack's header, which the first slice reads. -/
def tocHeader (lib : PackLib) (c : ImportCursor) (r : PartReader) :
    Except Error (ImportCursor × PartReader) :=
  if c.next_idx = 0 ∧ c.parse_pos = 0 then
    let r := r.fill 12
    if r.buf.length < 12 then .error (.unpack "pack header truncated")
    else match packHeader lib (r.buf.take 12) with
      | .error e => .error e
      | .ok count => .ok ({ c with count := count, parse_pos := 12 }, r.consume 12)
  else .ok (c, r)

/-- The end of a slice: the rows that are left, and the end of the pack. -/
def tocFinish (fmt : ObjFormat) (push : PushId) (c : ImportCursor) (turns : List Turn)
    (s : TocLoop) : TocTable × Except Error ImportCursor :=
  match s.settle push with
  | .error e => (s.toc, .error e)
  | .ok s' =>
    let c := { c with next_idx := s'.next_idx, parse_pos := s'.parse_pos }
    if c.next_idx < c.count then (s'.toc, .ok c)
    else match turns.head? with
      | some (.fail e) => (s'.toc, .error e)
      | _ =>
        if (s'.reader.fill fmt.width).buf.length < fmt.width then
          (s'.toc, .error (.unpack "pack trailer truncated"))
        else (s'.toc, .ok { c with phase := .resolve })

/-- `toc_slice`: the table it leaves, and the cursor for the next slice. -/
def tocSlice (lib : PackLib) (fmt : ObjFormat) (push : PushId) (parts : List (List UInt8))
    (turns : List Turn) (c : ImportCursor) (toc : TocTable) :
    TocTable × Except Error ImportCursor :=
  match tocHeader lib c ⟨parts, c.parse_pos, []⟩ with
  | .error e => (toc, .error e)
  | .ok (c, r) =>
    match tocLoop lib fmt push (c.count - c.next_idx) turns
        ⟨c.next_idx, c.next_idx, c.parse_pos, [], r, toc⟩ with
    | (toc, .error e) => (toc, .error e)
    | (_, .ok (s, turns)) => tocFinish fmt push c turns s

/-- The states of an import in pass A. A slice that fails leaves the cursor. -/
inductive TocReach (lib : PackLib) (fmt : ObjFormat) (push : PushId) (parts : List (List UInt8)) :
    ImportCursor → TocTable → Prop
  | start {c : ImportCursor} {toc : TocTable} (hphase : c.phase = .toc) (hidx : c.next_idx = 0)
      (hpos : c.parse_pos = 0) (htoc : ∀ r ∈ toc, r.push_id ≠ push) :
      TocReach lib fmt push parts c toc
  | slice {c c' : ImportCursor} {toc toc' : TocTable} {turns : List Turn}
      (h : TocReach lib fmt push parts c toc) (hphase : c.phase = .toc)
      (hslice : tocSlice lib fmt push parts turns c toc = (toc', .ok c')) :
      TocReach lib fmt push parts c' toc'
  | failed {c : ImportCursor} {toc toc' : TocTable} {turns : List Turn} {e : Error}
      (h : TocReach lib fmt push parts c toc) (hphase : c.phase = .toc)
      (hslice : tocSlice lib fmt push parts turns c toc = (toc', .error e)) :
      TocReach lib fmt push parts c toc'

/-! ## The rows -/

section Rows

variable {lib : PackLib} {fmt : ObjFormat} {push : PushId} {b : List UInt8}

/-- The lookups after a batch. -/
theorem tocByIdx_replace (idx : ℕ) (rows : List EntryRec) (toc : TocTable) (i : ℕ) :
    tocByIdx (tocReplace push idx rows toc) push i =
      if idx ≤ i ∧ i < idx + rows.length then rows[i - idx]? else tocByIdx toc push i := by
  induction rows generalizing idx toc with
  | nil =>
    rw [tocReplace, if_neg (by simp)]
  | cons rc rows ih =>
    rw [tocReplace, ih]
    have hone : tocByIdx ((toc.deleteWhere fun r => (r.push_id, r.idx) = (push, idx)).insertIgnore
        (rc.tocRow push idx)) push i = if idx = i then some rc else tocByIdx toc push i := by
      have hfree : (toc.deleteWhere fun r => (r.push_id, r.idx) = (push, idx)).has (push, idx) =
          false := by
        rw [Table.has_eq_false]
        intro r hr
        simpa using (Table.mem_deleteWhere.mp hr).2
      unfold tocByIdx
      rw [Table.find_insertIgnore, Table.find_deleteWhere]
      change ((if _ = false ∧ (push, idx) = (push, i) then _ else _ : Option TocRow)).map _ = _
      by_cases hi : idx = i
      · subst hi
        rw [if_pos ⟨hfree, rfl⟩, if_pos rfl]
        rfl
      · rw [if_neg (fun h => hi (Prod.mk.inj h.2).2), if_neg hi]
        cases hfind : toc.find (push, i) with
        | none => rfl
        | some r =>
          have hkey := (Table.find_eq_some.mp hfind).2
          have hother : (!decide ((r.push_id, r.idx) = (push, idx))) = true := by
            rw [hkey]
            simpa using fun heq : i = idx => hi heq.symm
          rw [Option.filter_some, if_pos hother]
    rw [hone, List.length_cons]
    by_cases hi : idx = i
    · subst hi
      rw [if_neg (by omega), if_pos rfl, if_pos (by omega), Nat.sub_self]
      rfl
    · by_cases hrest : idx + 1 ≤ i ∧ i < idx + 1 + rows.length
      · rw [if_pos hrest, if_pos (by omega)]
        have hsub : i - idx = i - (idx + 1) + 1 := by omega
        rw [hsub, List.getElem?_cons_succ]
      · rw [if_neg hrest, if_neg hi, if_neg (by omega)]

/-- The first entries of a pack, of kinds that the import takes. -/
structure Parsed (lib : PackLib) (fmt : ObjFormat) (b : List UInt8) (recs : List EntryRec)
    (stop : ℕ) : Prop where
  entries : Entries lib fmt b 12 recs stop
  kinds : ∀ rc ∈ recs, importPass.kindOk rc.kind_or_delta = .ok ()

/-- The rows of a push are the first entries of the pack's table, at least `lo` and at most `hi`. -/
def Tabled (lib : PackLib) (fmt : ObjFormat) (b : List UInt8) (push : PushId) (lo hi : ℕ)
    (toc : TocTable) : Prop :=
  ∃ recs stop, Parsed lib fmt b recs stop ∧ lo ≤ recs.length ∧ recs.length ≤ hi ∧
    ∀ i, tocByIdx toc push i = recs[i]?

theorem Tabled.mono {lo lo' hi : ℕ} {toc : TocTable} (h : Tabled lib fmt b push lo hi toc)
    (hle : lo' ≤ lo) : Tabled lib fmt b push lo' hi toc := by
  obtain ⟨recs, stop, htable, hlo, hhi, hrows⟩ := h
  exact ⟨recs, stop, htable, Nat.le_trans hle hlo, hhi, hrows⟩

/-- A batch of entries that follow those before the cursor. -/
theorem Tabled.replace (hlib : lib.Lawful) {lo hi stop : ℕ} {toc : TocTable}
    (h : Tabled lib fmt b push lo hi toc) (hdone : Parsed lib fmt b done stop)
    (hlo : lo ≤ done.length) (hhi : done.length ≤ hi) :
    Tabled lib fmt b push done.length hi (tocReplace push lo (done.drop lo) toc) := by
  obtain ⟨recs, stop', htable, hlo', hhi', hrows⟩ := h
  have hlook : ∀ i, tocByIdx (tocReplace push lo (done.drop lo) toc) push i =
      if lo ≤ i ∧ i < done.length then done[i]? else recs[i]? := by
    intro i
    rw [tocByIdx_replace, hrows, List.length_drop]
    by_cases hi : lo ≤ i ∧ i < done.length
    · rw [if_pos (by omega), if_pos hi, List.getElem?_drop]
      congr 1
      omega
    · rw [if_neg (by omega), if_neg hi]
  -- One of the two tables goes on where the other stops.
  obtain ⟨more, rfl, -⟩ | ⟨more, rfl, -⟩ := hdone.entries.comparable hlib htable.entries
  · refine ⟨_, _, htable, by simp, hhi', fun i => ?_⟩
    rw [hlook]
    split_ifs with hi
    · rw [List.getElem?_append_left hi.2]
    · rfl
  · refine ⟨_, _, hdone, Nat.le_refl _, hhi, fun i => ?_⟩
    rw [hlook]
    split_ifs with hi
    · rfl
    · by_cases hlt : i < recs.length
      · rw [List.getElem?_append_left hlt]
      · rw [List.getElem?_eq_none (by omega), List.getElem?_eq_none]
        rw [List.length_append] at hi ⊢
        omega

/-- The state of the loop: the entries read so far, of which those from `next_idx` on are not yet in
the table. -/
structure LoopInv (lib : PackLib) (fmt : ObjFormat) (b : List UInt8) (push : PushId) (count : ℕ)
    (done : List EntryRec) (s : TocLoop) : Prop where
  table : Parsed lib fmt b done s.parse_pos
  idx : done.length = s.idx
  idx_le : s.idx ≤ count
  next_le : s.next_idx ≤ s.idx
  rows : s.rows = done.drop s.next_idx
  left : partSource.left s.reader = b.drop s.parse_pos
  tabled : Tabled lib fmt b push s.next_idx count s.toc

theorem TocLoop.flush_ok {s s' : TocLoop} (h : s.flush push = .ok s') :
    s' = { s with
      next_idx := s.idx
      rows := []
      toc := tocReplace push s.next_idx s.rows s.toc } := by
  unfold flush tocInsert at h
  split_ifs at h
  cases h
  rfl

theorem LoopInv.flush (hlib : lib.Lawful) {s s' : TocLoop}
    (hs : LoopInv lib fmt b push count done s) (h : s.flush push = .ok s') :
    LoopInv lib fmt b push count done s' ∧ s'.next_idx = s'.idx ∧ s'.idx = s.idx := by
  rw [TocLoop.flush_ok h]
  refine ⟨⟨hs.table, hs.idx, hs.idx_le, Nat.le_refl _, ?_, hs.left, ?_⟩, rfl, rfl⟩
  · change [] = done.drop s.idx
    rw [← hs.idx, List.drop_length]
  · have hnext := hs.next_le
    have hcount := hs.idx_le
    have hbatch := hs.tabled.replace hlib hs.table (by rw [hs.idx]; exact hnext)
      (by rw [hs.idx]; exact hcount)
    rwa [hs.idx, ← hs.rows] at hbatch

theorem LoopInv.settle (hlib : lib.Lawful) {s s' : TocLoop}
    (hs : LoopInv lib fmt b push count done s) (h : s.settle push = .ok s') :
    LoopInv lib fmt b push count done s' ∧ s'.next_idx = s'.idx ∧ s.next_idx ≤ s'.next_idx := by
  have hnext := hs.next_le
  unfold TocLoop.settle at h
  split_ifs at h with hempty
  · cases h
    have hnil := hs.rows
    rw [List.isEmpty_iff.mp hempty, eq_comm, List.drop_eq_nil_iff, hs.idx] at hnil
    exact ⟨hs, Nat.le_antisymm hnext hnil, Nat.le_refl _⟩
  · obtain ⟨hs', hall, hidx⟩ := hs.flush hlib h
    exact ⟨hs', hall, by omega⟩

/-- The next entry is read. -/
theorem LoopInv.read (hlib : lib.Lawful) {s : TocLoop} (hs : LoopInv lib fmt b push count done s)
    (hlt : s.idx < count) {r : PartReader} {rc : EntryRec}
    (h : readEntry lib partSource importPass fmt s.parse_pos s.reader = .ok (r, rc)) :
    LoopInv lib fmt b push count (done ++ [rc])
      { s with
        idx := s.idx + 1
        parse_pos := s.parse_pos + rc.header_len + rc.compressed_len
        rows := s.rows ++ [rc]
        reader := r } := by
  obtain ⟨hentry, -, -, -, hkind⟩ := readEntry_ok hlib h
  have hleft : partSource.left r = b.drop (s.parse_pos + rc.header_len + rc.compressed_len) := by
    rw [hentry.rest, hs.left, List.drop_drop, Nat.add_assoc]
  rw [hs.left, hleft] at hentry
  have hidx := hs.idx
  have hnext := hs.next_le
  have hkinds : ∀ rc' ∈ done ++ [rc], importPass.kindOk rc'.kind_or_delta = .ok () := by
    intro rc' hrc'
    obtain hold | hnew := List.mem_append.mp hrc'
    · exact hs.table.kinds rc' hold
    · rw [List.mem_singleton.mp hnew]
      exact hkind
  refine ⟨⟨hs.table.entries.append (.cons hentry (.nil _)), hkinds⟩, ?_, hlt, ?_, ?_, hleft,
    hs.tabled⟩
  · rw [List.length_append, List.length_singleton, hidx]
  · dsimp only
    omega
  · dsimp only
    rw [hs.rows, List.drop_append_of_le_length (by omega)]

theorem LoopInv.turn (hlib : lib.Lawful) {s s' : TocLoop} (hs : LoopInv lib fmt b push count done s)
    (hlt : s.idx < count) (h : tocTurn lib fmt push s = .ok s') :
    s'.idx = s.idx + 1 ∧ s.next_idx ≤ s'.next_idx ∧
      ∃ done', LoopInv lib fmt b push count done' s' := by
  obtain ⟨⟨r, rc⟩, hread, h⟩ := FoldM.bind_eq_ok.mp h
  have hinv := hs.read hlib hlt hread
  dsimp only at h
  split_ifs at h with hbatch
  · obtain ⟨hinv', hnext, hidx⟩ := hinv.flush hlib h
    have hle := hs.next_le
    dsimp only at hidx
    exact ⟨hidx, by omega, _, hinv'⟩
  · cases h
    exact ⟨rfl, Nat.le_refl _, _, hinv⟩

/-- What a slice's loop leaves, whether it fails or not. -/
theorem tocLoop_inv (hlib : lib.Lawful) {k : ℕ} {turns : List Turn} {s : TocLoop} {toc' : TocTable}
    {res : Except Error (TocLoop × List Turn)} (hs : LoopInv lib fmt b push count done s)
    (hk : s.idx + k = count) (h : tocLoop lib fmt push k turns s = (toc', res)) :
    Tabled lib fmt b push s.next_idx count toc' ∧ ∀ s' turns', res = .ok (s', turns') →
      s.next_idx ≤ s'.next_idx ∧ ∃ done', LoopInv lib fmt b push count done' s' := by
  induction k generalizing turns done s with
  | zero =>
    cases h
    refine ⟨hs.tabled, fun s' turns' heq => ?_⟩
    cases heq
    exact ⟨Nat.le_refl _, done, hs⟩
  | succ k ih =>
    rw [tocLoop] at h
    split at h
    · cases h
      refine ⟨hs.tabled, fun s' turns' heq => ?_⟩
      cases heq
      exact ⟨Nat.le_refl _, done, hs⟩
    · cases h
      exact ⟨hs.tabled, fun _ _ heq => nomatch heq⟩
    · cases hturn : tocTurn lib fmt push s with
      | error e =>
        rw [hturn] at h
        cases h
        exact ⟨hs.tabled, fun _ _ heq => nomatch heq⟩
      | ok q =>
        rw [hturn] at h
        obtain ⟨hidx, hnext, done', hq⟩ := hs.turn hlib (by omega) hturn
        obtain ⟨htabled, hrest⟩ := ih hq (by omega) h
        refine ⟨htabled.mono hnext, fun s' turns' heq => ?_⟩
        obtain ⟨hnext', hinv⟩ := hrest s' turns' heq
        exact ⟨Nat.le_trans hnext hnext', hinv⟩

/-- The cursor after the header was read: an entry's beginning, with the rows before it written. -/
structure AtEntry (lib : PackLib) (fmt : ObjFormat) (b : List UInt8) (push : PushId)
    (c : ImportCursor) (toc : TocTable) : Prop where
  header : packHeader lib (b.take 12) = .ok c.count
  done : ∃ done, Parsed lib fmt b done c.parse_pos ∧ done.length = c.next_idx
  next_le : c.next_idx ≤ c.count
  tabled : Tabled lib fmt b push c.next_idx c.count toc

/-- The cursor between two slices. -/
def CursorInv (lib : PackLib) (fmt : ObjFormat) (b : List UInt8) (push : PushId) (c : ImportCursor)
    (toc : TocTable) : Prop :=
  (c.phase = .toc ∧ c.next_idx = 0 ∧ c.parse_pos = 0 ∧
    ∀ n, packHeader lib (b.take 12) = .ok n → Tabled lib fmt b push 0 n toc) ∨
  AtEntry lib fmt b push c toc ∧ (c.phase = .resolve → c.next_idx = c.count)

variable {c c' : ImportCursor} {toc toc' : TocTable}

/-- A slice's reader begins at the cursor. -/
theorem partSource_start (hparts : parts.flatten = b) (pos : ℕ) :
    partSource.left ⟨parts, pos, []⟩ = b.drop pos := by
  change [] ++ parts.flatten.drop pos = b.drop pos
  rw [hparts, List.nil_append]

/-- The loop of a slice begins in a good state. -/
theorem tocHeader_inv (hparts : parts.flatten = b) (hc : CursorInv lib fmt b push c toc)
    {r : PartReader} (h : tocHeader lib c ⟨parts, c.parse_pos, []⟩ = .ok (c', r)) :
    c'.next_idx = c.next_idx ∧ c'.phase = c.phase ∧ AtEntry lib fmt b push c' toc ∧
      partSource.left r = b.drop c'.parse_pos := by
  unfold tocHeader at h
  split_ifs at h with hstart
  · dsimp only at h
    split_ifs at h with hshort
    have hfront := partSource.buffered_front (partSource.fill 12 ⟨parts, c.parse_pos, []⟩)
    rw [partSource.left_fill, partSource_start hparts, hstart.2, List.drop_zero] at hfront
    obtain ⟨q, hq, -, hleft⟩ := partSource.take_ok 12
      (partSource.fill 12 ⟨parts, c.parse_pos, []⟩) (Nat.le_of_not_lt hshort)
    rw [partSource.left_fill, partSource_start hparts, hstart.2, List.drop_zero] at hleft
    have hhead : (PartReader.fill 12 ⟨parts, c.parse_pos, []⟩).buf.take 12 = b.take 12 := by
      obtain ⟨t, ht⟩ := hfront
      rw [hstart.2] at hshort ⊢
      rw [← ht]
      exact (List.take_append_of_le_length (Nat.le_of_not_lt hshort)).symm
    rw [hhead] at h
    cases hcount : packHeader lib (b.take 12) with
    | error e => simp [hcount] at h
    | ok count =>
      rw [hcount] at h
      cases h
      cases hq
      refine ⟨rfl, rfl, ⟨hcount, ⟨[], ⟨.nil 12, by simp⟩, hstart.1.symm⟩, ?_, ?_⟩, hleft⟩
      · rw [show ({ c with count := count, parse_pos := 12 } : ImportCursor).next_idx =
          0 from hstart.1]
        exact Nat.zero_le _
      · change Tabled lib fmt b push c.next_idx count toc
        rw [hstart.1]
        rcases hc with ⟨-, -, -, htabled⟩ | ⟨hentry, -⟩
        · exact htabled count hcount
        · have hsame : c.count = count := Except.ok.inj (hentry.header.symm.trans hcount)
          exact hsame ▸ hentry.tabled.mono (Nat.zero_le _)
  · cases h
    rcases hc with ⟨-, hidx, hpos, -⟩ | ⟨hentry, -⟩
    · exact absurd ⟨hidx, hpos⟩ hstart
    · exact ⟨rfl, rfl, hentry, partSource_start hparts _⟩

/-- What the end of a slice leaves. -/
theorem tocFinish_inv (hlib : lib.Lawful) {s : TocLoop} {turns : List Turn}
    {res : Except Error ImportCursor} (hheader : packHeader lib (b.take 12) = .ok c.count)
    (hphase : c.phase = .toc) (hs : LoopInv lib fmt b push c.count done s)
    (h : tocFinish fmt push c turns s = (toc', res)) :
    Tabled lib fmt b push s.next_idx c.count toc' ∧ ∀ c', res = .ok c' →
      CursorInv lib fmt b push c' toc' := by
  unfold tocFinish at h
  cases hsettle : s.settle push with
  | error e =>
    rw [hsettle] at h
    cases h
    exact ⟨hs.tabled, fun _ heq => nomatch heq⟩
  | ok s' =>
    rw [hsettle] at h
    dsimp only at h
    obtain ⟨hs', hall, hle⟩ := hs.settle hlib hsettle
    have hentry : AtEntry lib fmt b push
        { c with next_idx := s'.next_idx, parse_pos := s'.parse_pos } s'.toc :=
      ⟨hheader, ⟨done, hs'.table, hs'.idx.trans hall.symm⟩, Nat.le_trans hs'.next_le hs'.idx_le,
        hs'.tabled⟩
    by_cases hmore : s'.next_idx < c.count
    · rw [if_pos hmore] at h
      cases h
      refine ⟨hs'.tabled.mono hle, fun c' heq => ?_⟩
      cases heq
      exact .inr ⟨hentry, fun hresolve => nomatch hphase.symm.trans hresolve⟩
    · rw [if_neg hmore] at h
      split at h
      · cases h
        exact ⟨hs'.tabled.mono hle, fun _ heq => nomatch heq⟩
      · split_ifs at h
        · cases h
          exact ⟨hs'.tabled.mono hle, fun _ heq => nomatch heq⟩
        · cases h
          refine ⟨hs'.tabled.mono hle, fun c' heq => ?_⟩
          cases heq
          refine .inr ⟨⟨hentry.header, hentry.done, hentry.next_le, hentry.tabled⟩, fun _ => ?_⟩
          exact Nat.le_antisymm hentry.next_le (Nat.le_of_not_lt hmore)

/-- What a slice leaves, whether it fails or not. -/
theorem tocSlice_inv (hlib : lib.Lawful) (hparts : parts.flatten = b) {turns : List Turn}
    {res : Except Error ImportCursor} (hc : CursorInv lib fmt b push c toc)
    (hphase : c.phase = .toc) (h : tocSlice lib fmt push parts turns c toc = (toc', res)) :
    CursorInv lib fmt b push c toc' ∧ ∀ c', res = .ok c' → CursorInv lib fmt b push c' toc' := by
  unfold tocSlice at h
  cases hheader : tocHeader lib c ⟨parts, c.parse_pos, []⟩ with
  | error e =>
    rw [hheader] at h
    cases h
    exact ⟨hc, fun _ heq => nomatch heq⟩
  | ok p =>
    obtain ⟨d, r⟩ := p
    rw [hheader] at h
    dsimp only at h
    obtain ⟨hnext, hphase', hentry, hleft⟩ := tocHeader_inv hparts hc hheader
    obtain ⟨done, htable, hlen⟩ := hentry.done
    have hrows : ([] : List EntryRec) = done.drop d.next_idx := by
      rw [← hlen, List.drop_length]
    have hloop : LoopInv lib fmt b push d.count done
        ⟨d.next_idx, d.next_idx, d.parse_pos, [], r, toc⟩ :=
      ⟨htable, hlen, hentry.next_le, Nat.le_refl _, hrows, hleft, hentry.tabled⟩
    -- The rows before the old cursor stay, so a failed slice may begin there again.
    have hback : ∀ toc'', Tabled lib fmt b push d.next_idx d.count toc'' →
        CursorInv lib fmt b push c toc'' := by
      intro toc'' htabled
      rw [hnext] at htabled
      rcases hc with ⟨-, hidx, hpos, -⟩ | ⟨hold, hdone⟩
      · refine .inl ⟨hphase, hidx, hpos, fun n hn => ?_⟩
        have hsame : d.count = n := Except.ok.inj (hentry.header.symm.trans hn)
        exact hsame ▸ htabled.mono (Nat.zero_le _)
      · have hsame : d.count = c.count := Except.ok.inj (hentry.header.symm.trans hold.header)
        exact .inr ⟨⟨hold.header, hold.done, hold.next_le, hsame ▸ htabled⟩, hdone⟩
    cases hrun : tocLoop lib fmt push (d.count - d.next_idx) turns
        ⟨d.next_idx, d.next_idx, d.parse_pos, [], r, toc⟩ with
    | mk toc'' res' =>
      rw [hrun] at h
      have hk : d.next_idx + (d.count - d.next_idx) = d.count := by
        have hle := hentry.next_le
        omega
      obtain ⟨htabled, hok⟩ := tocLoop_inv hlib hloop hk hrun
      cases res' with
      | error e =>
        cases h
        exact ⟨hback _ htabled, fun _ heq => nomatch heq⟩
      | ok q =>
        obtain ⟨s', turns'⟩ := q
        dsimp only at h
        obtain ⟨hle, done', hs'⟩ := hok s' turns' rfl
        obtain ⟨hafter, hcursor⟩ :=
          tocFinish_inv hlib hentry.header (hphase'.trans hphase) hs' h
        exact ⟨hback _ (hafter.mono hle), hcursor⟩

/-- The rows at any time of an import, whatever slices failed. -/
theorem TocReach.inv (hlib : lib.Lawful) (hparts : parts.flatten = b)
    (h : TocReach lib fmt push parts c toc) : CursorInv lib fmt b push c toc := by
  induction h with
  | start hphase hidx hpos htoc =>
    refine .inl ⟨hphase, hidx, hpos, fun n _ => ?_⟩
    refine ⟨[], 12, ⟨.nil 12, by simp⟩, Nat.le_refl _, Nat.zero_le _, fun i => ?_⟩
    rw [tocByIdx, Table.find_eq_none.mpr]
    · rfl
    · exact fun r hr heq => htoc r hr (Prod.mk.inj heq).1
  | slice _ hphase hslice ih => exact (tocSlice_inv hlib hparts ih hphase hslice).2 _ rfl
  | failed _ hphase hslice ih => exact (tocSlice_inv hlib hparts ih hphase hslice).1

/-- After pass A the rows are the pack's entry table. -/
theorem TocReach.resolved (hlib : lib.Lawful) (hparts : parts.flatten = b)
    (h : TocReach lib fmt push parts c toc) (hphase : c.phase = .resolve) :
    ∃ recs stop, packHeader lib (b.take 12) = .ok recs.length ∧ Parsed lib fmt b recs stop ∧
      ∀ i, tocByIdx toc push i = recs[i]? := by
  rcases h.inv hlib hparts with ⟨htoc, -⟩ | ⟨hentry, hdone⟩
  · exact nomatch htoc.symm.trans hphase
  · obtain ⟨recs, stop, htable, hlo, hhi, hrows⟩ := hentry.tabled
    rw [hdone hphase] at hlo
    have hlen : recs.length = c.count := Nat.le_antisymm hhi hlo
    exact ⟨recs, stop, hlen ▸ hentry.header, htable, hrows⟩

end Rows

end GitEdge
