import GitEdge.Lib.Reader
import GitEdge.Store.Schema

/-!
# Pass A over a pushed pack

`stream_inner` of `pack/ingest.rs` reads a pack from a request body that arrives in chunks: the
header of twelve bytes, then each entry's header and zlib stream, then the hash of all that. Before
an entry's header it asks the reader for 30 bytes, and it feeds the inflater whatever the reader
has. The result is the entry table.

The pack and zlib libraries are the record `PackLib`, with what is relied on in `PackLib.Lawful`.
One entry is read the same way here and in the import job (`Pack/Toc.lean`), which differ in the
reader, in the place their messages name and in one check each, so `readEntry` is over any reader.
-/

namespace GitEdge

/-- `len_in_bytes`. -/
def ObjFormat.width : ObjFormat → ℕ
  | .sha1 => 20
  | .sha256 => 32

/-- The pack versions. -/
inductive PackVersion where
  | v2 | v3
deriving DecidableEq, Repr

/-- `gix_pack::data::Entry`. -/
structure PackEntry where
  header : EntryKind
  decompressed_size : ℕ
  header_size : ℕ
deriving DecidableEq, Repr

/-- What one call of `decompress` does. -/
structure Inflated (σ : Type) where
  state : σ
  /-- How much `total_in` grows. -/
  used : ℕ
  /-- How much `total_out` grows. -/
  made : ℕ
  /-- `Status::StreamEnd`. -/
  ended : Bool

/-- The libraries that pass A calls. -/
structure PackLib where
  /-- The state of a `Decompress`. -/
  Zip : Type
  reset : Zip
  /-- A call with a sink of 64 KiB. -/
  decompress : Zip → List UInt8 → Except String (Inflated Zip)
  /-- `header::decode` of the first twelve bytes. -/
  headerDecode : List UInt8 → Except String (PackVersion × ℕ)
  /-- `PackEntry::from_bytes`. -/
  fromBytes : ObjFormat → List UInt8 → Except String PackEntry
  /-- `try_finalize` of a hasher that was fed these bytes; it fails on a collision. -/
  digest : ObjFormat → List UInt8 → Option (List UInt8)

/-- The calls of an inflater that have not ended: the state after consuming the bytes `x` and
producing `o` bytes. -/
inductive PackLib.Fed (lib : PackLib) : lib.Zip → List UInt8 → ℕ → Prop
  | reset : PackLib.Fed lib lib.reset [] 0
  | call {z : lib.Zip} {x buf : List UInt8} {o : ℕ} {c : Inflated lib.Zip}
      (h : PackLib.Fed lib z x o) (hc : lib.decompress z buf = .ok c) (hgoes : c.ended = false) :
      PackLib.Fed lib c.state (x ++ buf.take c.used) (o + c.made)

/-- The bytes `y` are a zlib stream, which inflates to `m` bytes: some calls consume `y`, produce
`m` bytes and end. -/
def PackLib.Stream (lib : PackLib) (y : List UInt8) (m : ℕ) : Prop :=
  ∃ z x o buf c, lib.Fed z x o ∧ lib.decompress z buf = .ok c ∧ c.ended = true ∧
    y = x ++ buf.take c.used ∧ m = o + c.made

/-- What pass A relies on. -/
structure PackLib.Lawful (lib : PackLib) : Prop where
  /-- A header that can be read from a slice is read the same from a longer one. -/
  fromBytes_append : ∀ fmt d d' e, lib.fromBytes fmt d = .ok e → lib.fromBytes fmt (d ++ d') = .ok e
  /-- A header lies in the slice it is read from. -/
  header_size_le : ∀ fmt d e, lib.fromBytes fmt d = .ok e → e.header_size ≤ d.length
  used_le : ∀ z buf c, lib.decompress z buf = .ok c → c.used ≤ buf.length
  /-- Two bits of a deflate stream give at most 258 bytes. -/
  ratio : ∀ z x o buf c, lib.Fed z x o → lib.decompress z buf = .ok c →
    o + c.made ≤ 1032 * (x.length + c.used)
  /-- A zlib stream has a header. -/
  stream_ne_nil : ∀ y m, lib.Stream y m → y ≠ []
  /-- No zlib stream begins with a shorter one. -/
  alone : ∀ y y' m m', lib.Stream y m → lib.Stream (y ++ y') m' → y' = []
  /-- Inflation does not depend on the chunks: with `x` of a zlib stream `x ++ y` consumed, a call
  with any bytes of what follows makes progress inside the stream, and it ends with the last
  byte. -/
  goes : ∀ z x o y m rest buf, lib.Stream (x ++ y) m → lib.Fed z x o → y ≠ [] → buf ≠ [] →
    buf <+: y ++ rest → ∃ c, lib.decompress z buf = .ok c ∧ c.used ≤ y.length ∧
      (0 < c.used ∨ 0 < c.made) ∧ (c.ended = true ↔ c.used = y.length) ∧
      (c.ended = true → o + c.made = m)

/-! ## One entry -/

/-- `MAX_ENTRIES`. -/
def maxEntries : ℕ := 750000

/-- `MAX_OBJ`. -/
def maxObj : ℕ := 16 * 2^20

/-- `MAX_STREAM_BLOB`. -/
def maxStreamBlob : ℕ := 2 * 2^30

/-- `MAX_ENTRY_WIRE`. -/
def maxEntryWire : ℕ := 32 * 2^20

/-- `MAX_PENDING`. -/
def maxPending : ℕ := 2 * 2^30

/-- How far pass A looks ahead for an entry's header. -/
def lookAhead : ℕ := 30

/-- `EntryRec`. -/
structure EntryRec where
  offset : ℕ
  header_len : ℕ
  kind_or_delta : EntryKind
  compressed_len : ℕ
  size : ℕ
deriving DecidableEq, Repr

section OneEntry

variable {ρ : Type} (lib : PackLib) (S : Reader.Source UInt8 ρ Error)

/-- What the two passes do differently while they read an entry. -/
structure PassA (ρ : Type) where
  /-- The limit on what was received, tested after each call of the inflater. -/
  full : ρ → Bool
  /-- The place that a message about the zlib stream names: the entry begins at the first position,
  its header and what was inflated have the two lengths. -/
  zlibAt : ℕ → ℕ → ℕ → ℕ
  /-- A check of the entry's kind before it is recorded. -/
  kindOk : EntryKind → Except Error Unit

/-- The loop over the inflater's calls. Each call consumes or produces something and `ratio` bounds
what is produced, so `zlibFuel` calls are enough. -/
def inflateLoop (pass : PassA ρ) (pos hlen : ℕ) :
    ℕ → lib.Zip → ℕ → ℕ → ρ → Except Error (ρ × ℕ × ℕ)
  | 0, _, _, _, _ => .error (.internal "inflate")
  | fuel + 1, z, clen, out, r =>
    let r := S.refill r
    if (S.buffered r).isEmpty then .error (.unpack "pack truncated inside object")
    else match lib.decompress z (S.buffered r) with
      | .error e => .error (.unpack s!"zlib at {pass.zlibAt pos hlen clen}: {e}")
      | .ok c =>
        if c.used = 0 ∧ c.made = 0 then
          .error (.unpack s!"zlib stalled at {pass.zlibAt pos hlen clen}")
        else match S.take c.used r with
          | .error e => .error e
          | .ok r' =>
            if pass.full r' then .error (.limit "pack exceeds the 2 GiB limit")
            else if c.ended then .ok (r', clen + c.used, out + c.made)
            else inflateLoop pass pos hlen fuel c.state (clen + c.used) (out + c.made) r'

/-- Calls of the inflater that are enough for a stream of so many bytes. -/
def zlibFuel (n : ℕ) : ℕ := 1 + 1033 * n

/-- The header of the entry at `pos`. -/
def decodeEntry (fmt : ObjFormat) (pos : ℕ) (buf : List UInt8) : Except Error PackEntry :=
  match lib.fromBytes fmt buf with
  | .error e => .error (.unpack s!"entry at {pos}: {e}")
  | .ok e => .ok e

/-- The limits on the size that a header gives. Blobs are streamed and may be larger. -/
def headerLimits (e : PackEntry) : Except Error Unit :=
  if maxStreamBlob < e.decompressed_size then .error (.limit "object too large (2 GiB max)")
  else if maxObj < e.decompressed_size ∧ e.header ≠ .full .blob then
    .error (.limit "object too large (16 MiB max)")
  else .ok ()

/-- The checks after an entry was inflated. -/
def inflatedChecks (pos : ℕ) (e : PackEntry) (clen out : ℕ) : Except Error Unit :=
  if out ≠ e.decompressed_size then .error (.unpack s!"object at {pos}: size mismatch")
  else if maxEntryWire < clen ∧ e.header ≠ .full .blob then
    .error (.unpack s!"entry at {pos}: wire size exceeds 32 MiB")
  else .ok ()

/-- The record of an entry, with the conversions to `u8` and `u32`. -/
def entryRec (pos : ℕ) (e : PackEntry) (clen : ℕ) : Except Error EntryRec :=
  if 2^8 ≤ e.header_size then .error (.unpack "header too long")
  else if 2^32 ≤ clen then .error (.limit "entry too large")
  else .ok ⟨pos, e.header_size, e.header, clen, e.decompressed_size⟩

/-- One turn of the loop over the entries. -/
def readEntry (pass : PassA ρ) (fmt : ObjFormat) (pos : ℕ) (r : ρ) :
    Except Error (ρ × EntryRec) := do
  let r := S.fill lookAhead r
  let e ← decodeEntry lib fmt pos (S.buffered r)
  headerLimits e
  let r ← S.take e.header_size r
  let (r, clen, out) ←
    inflateLoop lib S pass pos e.header_size (zlibFuel (S.left r).length) lib.reset 0 0 r
  inflatedChecks pos e clen out
  pass.kindOk e.header
  let rc ← entryRec pos e clen
  pure (r, rc)

/-- The first twelve bytes: the number of entries. -/
def packHeader (head : List UInt8) : Except Error ℕ :=
  match lib.headerDecode head with
  | .error e => .error (.unpack e)
  | .ok (version, count) =>
    if version = .v2 then .ok count else .error (.unpack "pack version")

end OneEntry

/-! ## The request body -/

/-- `BodyReader`. The stream is the chunks still to come; its end is the end of the body. -/
structure BodyReader where
  stream : List (List UInt8)
  buf : List UInt8
  total : ℕ
deriving DecidableEq, Repr

namespace BodyReader

/-- The loop of `fill`. -/
def fillLoop (min : ℕ) : List (List UInt8) → List UInt8 → ℕ → BodyReader
  | [], buf, total => ⟨[], buf, total⟩
  | chunk :: stream, buf, total =>
    if buf.length < min then fillLoop min stream (buf ++ chunk) (total + chunk.length)
    else ⟨chunk :: stream, buf, total⟩

/-- `fill`. -/
def fill (min : ℕ) (body : BodyReader) : BodyReader := fillLoop min body.stream body.buf body.total

/-- `consume`. -/
def consume (n : ℕ) (body : BodyReader) : BodyReader := { body with buf := body.buf.drop n }

/-- What has not been consumed. -/
def left (body : BodyReader) : List UInt8 := body.buf ++ body.stream.flatten

/-- A reader of `b` that has received `h` bytes before `b`. -/
def Of (h : ℕ) (b : List UInt8) (body : BodyReader) : Prop :=
  body.left = b ∧ body.total = h + body.buf.length

end BodyReader

/-- The body and what the hasher was fed. -/
structure Incoming where
  body : BodyReader
  hashed : List UInt8
deriving DecidableEq, Repr

/-- `take`, without the writer of the pending pack. -/
def Incoming.take (n : ℕ) (u : Incoming) : Except Error Incoming :=
  if n ≤ u.body.buf.length then .ok ⟨u.body.consume n, u.hashed ++ u.body.buf.take n⟩
  else .error (.unpack "pack truncated")

section Body

theorem BodyReader.fillLoop_left (min : ℕ) (stream : List (List UInt8)) (buf : List UInt8)
    (total : ℕ) : (fillLoop min stream buf total).left = buf ++ stream.flatten := by
  induction stream generalizing buf total with
  | nil => rfl
  | cons chunk stream ih =>
    rw [fillLoop]
    split_ifs
    · rw [ih, List.flatten_cons, List.append_assoc]
    · rfl

theorem BodyReader.fillLoop_buf (min : ℕ) (stream : List (List UInt8)) (buf : List UInt8)
    (total : ℕ) : buf <+: (fillLoop min stream buf total).buf := by
  induction stream generalizing buf total with
  | nil => exact List.prefix_refl _
  | cons chunk stream ih =>
    rw [fillLoop]
    split_ifs
    · exact (List.prefix_append buf chunk).trans (ih _ _)
    · exact List.prefix_refl _

theorem BodyReader.fillLoop_enough (min : ℕ) (stream : List (List UInt8)) (buf : List UInt8)
    (total : ℕ) : min ≤ (fillLoop min stream buf total).buf.length ∨
      (fillLoop min stream buf total).buf = buf ++ stream.flatten := by
  induction stream generalizing buf total with
  | nil =>
    right
    simp [fillLoop]
  | cons chunk stream ih =>
    rw [fillLoop]
    split_ifs with h
    · rw [List.flatten_cons, ← List.append_assoc]
      exact ih _ _
    · exact .inl (Nat.le_of_not_lt h)

/-- The bytes received and those to come are the whole request. -/
theorem BodyReader.fillLoop_total (min : ℕ) (stream : List (List UInt8)) (buf : List UInt8)
    (total : ℕ) : (fillLoop min stream buf total).total + buf.length =
      total + (fillLoop min stream buf total).buf.length := by
  induction stream generalizing buf total with
  | nil => rfl
  | cons chunk stream ih =>
    rw [fillLoop]
    split_ifs
    · have h := ih (buf ++ chunk) (total + chunk.length)
      rw [List.length_append] at h
      omega
    · rfl

/-- The reader of a request body. -/
def bodySource : Reader.Source UInt8 Incoming Error where
  buffered u := u.body.buf
  left u := u.body.left
  fill n u := { u with body := u.body.fill n }
  take := Incoming.take
  buffered_front u := List.prefix_append _ _
  left_fill n u := BodyReader.fillLoop_left n _ _ _
  buffered_fill n u := BodyReader.fillLoop_buf n _ _ _
  fill_enough n u := BodyReader.fillLoop_enough n _ _ _
  take_ok n u h := by
    refine ⟨_, if_pos h, rfl, ?_⟩
    change u.body.buf.drop n ++ u.body.stream.flatten = (u.body.buf ++ u.body.stream.flatten).drop n
    rw [List.drop_append_of_le_length h]

end Body

/-! ## `stream_inner` -/

/-- The pass over a request body: the limit is on the bytes received. -/
def edgePass : PassA Incoming where
  full u := maxPending < u.body.total
  zlibAt pos _ _ := pos
  kindOk _ := .ok ()

/-- The loop over the entries, with the number still to read. -/
def entriesLoop (lib : PackLib) (fmt : ObjFormat) :
    ℕ → ℕ → List EntryRec → Incoming → Except Error (Incoming × List EntryRec)
  | 0, _, recs, u => .ok (u, recs)
  | count + 1, pos, recs, u =>
    if maxEntries ≤ recs.length then .error (.unpack "too many objects")
    else match readEntry lib bodySource edgePass fmt pos u with
      | .error e => .error e
      | .ok (u', r) =>
        entriesLoop lib fmt count (pos + r.header_len + r.compressed_len) (recs ++ [r]) u'

/-- The end of the pack: its hash, and nothing after it. -/
def packTrailer (lib : PackLib) (fmt : ObjFormat) (u : Incoming) : Except Error Unit :=
  let body := u.body.fill fmt.width
  if body.buf.length < fmt.width then .error (.unpack "pack trailer truncated")
  else match lib.digest fmt u.hashed with
    | none => .error (.unpack "hash collision in pack")
    | some want =>
      if body.buf.take fmt.width ≠ want then .error (.unpack "bad pack checksum")
      else if 1 ≤ ((body.consume fmt.width).fill 1).buf.length then
        .error (.protocol "bytes after pack trailer")
      else .ok ()

/-- `stream_inner`. -/
def streamInner (lib : PackLib) (fmt : ObjFormat) (body : BodyReader) :
    Except Error (List EntryRec × ℕ) :=
  let body := body.fill 12
  if body.buf.length < 12 then .error (.unpack "pack header truncated")
  else do
    let count ← packHeader lib (body.buf.take 12)
    let u ← Incoming.take 12 ⟨body, []⟩
    let (u, recs) ← entriesLoop lib fmt count 12 [] u
    packTrailer lib fmt u
    pure (recs, count)

end GitEdge
