import GitEdge.Store.Bucket

/-!
# The pack writer

`PackWriter` of `store/mod.rs`: it appends entries to a buffer, uploads the buffer in parts of one
size, and keeps the hash of what it uploaded. A checkpoint describes the uploaded bytes, so that a
later slice can go on from it (`resume`), with the bytes that were buffered when they were saved
(`resumeTail`). The hasher is the list of bytes that it was fed, and `Codec` holds what the
libraries compute: the header of a pack, the kind in the header of an entry, and the digest.
-/

namespace GitEdge

open Sql

/-- What the libraries compute for a repository of one object format. -/
structure Codec where
  /-- `header::encode`: the header of a pack with so many entries. -/
  header : ℕ → List UInt8
  header_length : ∀ n, (header n).length = 12
  /-- The kind in `codec::entry_header`. -/
  entryHeader : List UInt8 → Except Error Kind
  digest : List UInt8 → List UInt8
  /-- `len_in_bytes`. -/
  digestLen : ℕ
  digest_length : ∀ b, (digest b).length = digestLen

/-- The header and the entries. -/
def packBytes (codec : Codec) (es : List (List UInt8)) : List UInt8 :=
  codec.header es.length ++ es.flatten

/-- The pack: the header, the entries and the digest of both. -/
def packObject (codec : Codec) (es : List (List UInt8)) : List UInt8 :=
  packBytes codec es ++ codec.digest (packBytes codec es)

/-- `PART`: the size of all parts but the last. -/
def partBytes : ℕ := 8 * 2^20

/-- The largest part number, entry number and entry length. -/
def maxU16 : ℕ := 2^16 - 1

/-- The largest `u32`. -/
def maxU32 : ℕ := 2^32 - 1

/-- The largest `u64`: where the range of the commits starts while there is none. -/
def maxU64 : ℕ := 2^64 - 1

/-- A writer of one pack. -/
structure PackWriter where
  upload : ℕ
  pack : PackId
  /-- The bytes that are not uploaded. -/
  part : List UInt8
  /-- The parts that are uploaded: the number and the etag of each. -/
  parts : List (ℕ × ℕ)
  offset : ℕ
  count : ℕ
  expected : ℕ
  /-- The bytes that the hasher was fed. -/
  hash : List UInt8
  commit_lo : ℕ
  commit_hi : ℕ
  part_size : ℕ
deriving DecidableEq, Repr

/-- What the writer knows of a finished pack. -/
structure WriterMeta where
  count : ℕ
  bytes : ℕ
  commit_lo : ℕ
  commit_hi : ℕ
deriving DecidableEq, Repr

namespace PackWriter

/-- `PackWriter::create`. -/
def create (codec : Codec) (pack : PackId) (expected : ℕ) : Proc (PackWriter × Reply) := do
  let (upload, r) ← createMultipart pack
  pure (⟨upload, pack, codec.header expected, [], 12, 0, expected, [], maxU64, 0, partBytes⟩, r)

/-- `PackWriter::resume`: part numbers follow from the places of the etags. A checkpoint of no bytes
says that the header was still buffered, so it is written again. -/
def resume (codec : Codec) (pack : PackId) (upload : ℕ) (etags : List ℕ) (st : WriterCkpt) :
    PackWriter where
  upload := upload
  pack := pack
  part := if st.pos = 0 then codec.header st.expected else []
  parts := (etags.zipIdx 1).filterMap fun p => if p.2 ≤ maxU16 then some (p.2, p.1) else none
  offset := if st.pos = 0 then 12 else st.pos
  count := st.count
  expected := st.expected
  hash := st.sha
  commit_lo := st.commit_lo
  commit_hi := st.commit_hi
  part_size := partBytes

/-- `resume_tail`. -/
def resumeTail (bytes : List UInt8) (extra lo hi : ℕ) (w : PackWriter) : PackWriter :=
  { w with
    offset := w.offset - w.part.length + bytes.length
    part := bytes
    count := w.count + extra
    commit_lo := min w.commit_lo lo
    commit_hi := max w.commit_hi hi }

/-- The counters after an entry from `start` to `stop`. -/
def countEntry (kind : Kind) (start stop : ℕ) (w : PackWriter) : PackWriter :=
  { w with
    count := w.count + 1
    commit_lo := if kind = .commit then min w.commit_lo start else w.commit_lo
    commit_hi := if kind = .commit then stop else w.commit_hi }

/-- `raw_extend`. -/
def rawExtend (bytes : List UInt8) (w : PackWriter) : PackWriter :=
  { w with part := w.part ++ bytes, offset := w.offset + bytes.length }

/-- `raw_entry_done`: the offset and the length of the entry, and the writer. -/
def rawEntryDone (kind : Kind) (start : ℕ) (w : PackWriter) :
    Except Error ((ℕ × ℕ) × PackWriter) :=
  if maxU32 < w.offset - start then .error (.limit "entry too long")
  else .ok ((start, w.offset - start), w.countEntry kind start w.offset)

/-- `append_stored`: the offset and the length of the entry, and the writer. -/
def appendStored (codec : Codec) (entry : List UInt8) (w : PackWriter) :
    Except Error ((ℕ × ℕ) × PackWriter) :=
  match codec.entryHeader entry with
  | .error e => .error e
  | .ok kind =>
    if maxU32 < entry.length then .error (.limit "entry too long")
    else .ok ((w.offset, entry.length),
      (w.rawExtend entry).countEntry kind w.offset (w.offset + entry.length))

/-- `snapshot`. -/
def snapshot (w : PackWriter) : WriterCkpt :=
  ⟨w.offset - w.part.length, w.hash, w.count, w.expected, w.commit_lo, w.commit_hi⟩

/-- The upload of the first bytes of the buffer as the next part. -/
def sendPart (n : ℕ) (w : PackWriter) : Proc (PackWriter × Reply) :=
  if maxU16 < w.parts.length + 1 then Process.fail (.limit "too many parts")
  else do
    let (etag, r) ← uploadPart w.upload (w.parts.length + 1) (w.part.take n)
    pure ({ w with
      part := w.part.drop n
      hash := w.hash ++ w.part.take n
      parts := w.parts ++ [(w.parts.length + 1, etag)] }, r)

/-- `checkpoint`, when a whole part is buffered: the number and the etag of the part are the last of
the writer's. -/
def checkpoint (w : PackWriter) : Proc (PackWriter × Reply) := w.sendPart w.part_size

/-- `flush_if_full`, with as many rounds as there are whole parts. -/
def flushIfFull : ℕ → PackWriter → Reply → Proc (PackWriter × Reply)
  | 0, w, r => pure (w, r)
  | n + 1, w, _ => do
    let (w, r) ← w.sendPart w.part_size
    flushIfFull n w r

/-- `finish_inner`: the trailer and the last part. -/
def finishInner (codec : Codec) (w : PackWriter) (r : Reply) : Proc (PackWriter × Reply) :=
  if w.count ≠ w.expected then
    Process.fail (.internal s!"wrote {w.count} entries, header says {w.expected}")
  else do
    let w := { w with part := w.part ++ codec.digest (w.hash ++ w.part) }
    let (w, r) ← flushIfFull (w.part.length / w.part_size) w r
    if w.part = [] then pure (w, r) else w.sendPart w.part.length

/-- `seal`, a keyword here: the upload is completed, and the object has the size of what was
written. -/
def sealPack (codec : Codec) (w : PackWriter) : Proc (WriterMeta × Reply) := do
  let (size, r) ← completeMultipart w.upload w.parts
  if size ≠ w.offset + codec.digestLen then
    Process.fail (.storage s!"R2 holds {size} bytes, wrote {w.offset + codec.digestLen}")
  else pure (⟨w.count, w.offset + codec.digestLen, w.commit_lo, w.commit_hi⟩, r)

/-- `finish`: a failure before the completion aborts the upload. -/
def finish (codec : Codec) (w : PackWriter) (r : Reply) : Proc (WriterMeta × Reply) := do
  match ← (finishInner codec w r).result with
  | .error e => do
    let _ ← abortMultipart w.upload
    Process.fail e
  | .ok (w, _) => sealPack codec w

end PackWriter

end GitEdge
