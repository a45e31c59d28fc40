import Mathlib.Data.List.Sort
import GitEdge.Store.Io

/-!
# The bucket

The requests of `store/mod.rs` to R2: range reads, the coalesced reads of `Bucket::read_entries`,
and the parts of a multipart upload. A request that changes the bucket suspends twice, before its
effect and after it, so a process that is stopped while it waits leaves the effect done or not done.
A read that returns fewer bytes than were asked for is an error.

The functions here and above them take the last reply that the process got, and return the one that
they got last: it is the clock and the budget of the code that follows.
-/

namespace GitEdge

open Sql

/-! ## Reads -/

/-- The bytes of a range. -/
def slice (b : List UInt8) (offset len : ℕ) : List UInt8 := (b.drop offset).take len

theorem length_slice (b : List UInt8) (offset len : ℕ) :
    (slice b offset len).length = min len (b.length - offset) := by
  rw [slice, List.length_take, List.length_drop]

/-- A range within a range. -/
theorem slice_slice {b : List UInt8} {start n offset len : ℕ} (hstart : start ≤ offset)
    (hlen : offset - start + len ≤ (slice b start n).length) :
    slice (slice b start n) (offset - start) len = slice b offset len := by
  rw [length_slice] at hlen
  have hmin : min len (n - (offset - start)) = len := by omega
  unfold slice
  rw [List.drop_take, List.drop_drop, List.take_take, hmin, Nat.add_sub_cancel' hstart]

theorem slice_append_left {a : List UInt8} (b : List UInt8) {offset len : ℕ}
    (h : offset + len ≤ a.length) : slice (a ++ b) offset len = slice a offset len := by
  unfold slice
  rw [List.drop_append_of_le_length (by omega), List.take_append_of_le_length]
  rw [List.length_drop]
  omega

/-- Ranges of one length, one after another. -/
theorem flatten_slices (b : List UInt8) (n k : ℕ) :
    ((List.range' 1 k).map fun i => slice b ((i - 1) * n) n).flatten = b.take (k * n) := by
  induction k with
  | zero => simp
  | succ k ih =>
    have hmul : (k + 1) * n = k * n + n := Nat.succ_mul k n
    rw [List.range'_concat, List.map_append, List.flatten_append, ih, hmul, List.take_add]
    simp [slice]

/-- `Bucket::read_range`. -/
def readRange (pack : PackId) (offset len : ℕ) : Proc (List UInt8 × Reply) := do
  let r ← request
  let db ← Proc.read
  match db.r2.objects.find pack with
  | none => Process.fail (.storage s!"missing {pack}")
  | some o =>
    if (slice o.2 offset len).length ≠ len then Process.fail (.storage s!"short read on {pack}")
    else pure (slice o.2 offset len, r)

/-- `GAP`: entries closer than this share a read. -/
def gap : ℕ := 256 * 1024

/-- `SPAN`: the longest read. -/
def spanBytes : ℕ := 8 * 2^20

/-- `MAX_READ`: the most bytes that one call may hold. -/
def maxRead : ℕ := 48 * 2^20

/-- The order of the reads. -/
def readsBefore (a b : ObjRow) : Prop :=
  a.pack_id < b.pack_id ∨ (a.pack_id = b.pack_id ∧ a.offset ≤ b.offset)

instance : DecidableRel readsBefore := fun a b => by unfold readsBefore; infer_instance

/-- The inner loop of `read_entries`: the entries that share the read that began at `start` and goes
to `stop` so far, where the read then stops, and the entries after it. -/
def takeSpan (pack : PackId) (start : ℕ) : ℕ → List ObjRow → List ObjRow × ℕ × List ObjRow
  | stop, [] => ([], stop, [])
  | stop, n :: ns =>
    if n.pack_id ≠ pack || gap ≤ n.offset - stop || spanBytes < n.offset + n.len - start then
      ([], stop, n :: ns)
    else
      let (g, e, rest) := takeSpan pack start (max stop (n.offset + n.len)) ns
      (n :: g, e, rest)

/-- The entries within the bytes of a read. -/
def cutEntries (start : ℕ) (bytes : List UInt8) : List ObjRow →
    Except Error (List (Oid × List UInt8))
  | [] => .ok []
  | l :: ls =>
    if bytes.length < l.offset - start + l.len then
      .error (.storage s!"entry outside span in {l.pack_id}")
    else (cutEntries start bytes ls).map fun es =>
      (l.sha, slice bytes (l.offset - start) l.len) :: es

/-- The outer loop of `read_entries`, which takes one read from the sorted entries at a time: with
as many rounds as there are entries it reads them all. -/
def readSpans : ℕ → List ObjRow → ℕ → List (Oid × List UInt8) → Reply →
    Proc (List (Oid × List UInt8) × Reply)
  | 0, _, _, out, r => pure (out, r)
  | _ + 1, [], _, out, r => pure (out, r)
  | n + 1, first :: rest, total, out, _ => do
    let (g, stop, rest) := takeSpan first.pack_id first.offset (first.offset + first.len) rest
    if maxRead < total + (stop - first.offset) then
      Process.fail (.limit "read batch exceeds memory budget")
    else
      let (bytes, r) ← readRange first.pack_id first.offset (stop - first.offset)
      let entries ← Process.ofExcept (cutEntries first.offset bytes (first :: g))
      readSpans n rest (total + (stop - first.offset)) (out ++ entries) r

/-- `Bucket::read_entries`. -/
def readEntries (locs : List ObjRow) (r : Reply) : Proc (List (Oid × List UInt8) × Reply) :=
  readSpans locs.length (locs.insertionSort readsBefore) 0 [] r

/-- The loop of `read_entries_chunked`: a batch over the limit is read by halves, which can go on
for as many rounds as it has entries. -/
def readHalves : ℕ → List ObjRow → Reply → Proc (List (Oid × List UInt8) × Reply)
  | 0, locs, r => readEntries locs r
  | n + 1, locs, r => do
    match ← (readEntries locs r).result with
    | .ok x => pure x
    | .error (.limit m) =>
      if locs.length ≤ 1 then Process.fail (.limit m)
      else
        let (a, r) ← readHalves n (locs.take (locs.length / 2)) r
        let (b, r) ← readHalves n (locs.drop (locs.length / 2)) r
        pure (a ++ b, r)
    | .error e => Process.fail e

/-- `Bucket::read_entries_chunked`. -/
def readEntriesChunked (locs : List ObjRow) (r : Reply) : Proc (List (Oid × List UInt8) × Reply) :=
  readHalves locs.length locs r

/-! ## Multipart uploads -/

/-- The statement that opens an upload. -/
def openUpload (id : ℕ) (pack : PackId) (db : Db) : Db :=
  { db with r2 := { db.r2 with uploads := db.r2.uploads.insertIgnore ⟨id, pack, []⟩ } }

/-- The upload with a part, in place of one that it had under the number. -/
def Upload.withPart (n etag : ℕ) (bytes : List UInt8) (u : Upload) : Upload :=
  { u with parts := u.parts.filter (fun p => p.1 ≠ n) ++ [(n, etag, bytes)] }

/-- The statement that stores a part. -/
def storePart (upload n etag : ℕ) (bytes : List UInt8) (db : Db) : Db :=
  { db with
    r2 := { db.r2 with
      uploads := db.r2.uploads.updateWhere (fun u => u.id = upload) (Upload.withPart n etag bytes)
        fun _ => rfl } }

/-- The statement that closes an upload. -/
def closeUpload (upload : ℕ) (db : Db) : Db :=
  { db with r2 := { db.r2 with uploads := db.r2.uploads.deleteWhere fun u => u.id = upload } }

/-- The statement that makes the object of a completed upload. -/
def completeUpload (upload : ℕ) (pack : PackId) (bytes : List UInt8) (db : Db) : Db :=
  { db with
    r2 := {
      objects := db.r2.objects.upsert (pack, bytes) (fun o => (o.1, bytes)) fun _ => rfl
      uploads := db.r2.uploads.deleteWhere fun u => u.id = upload } }

/-- The part of an upload with a number and an etag. -/
def Upload.part (u : Upload) (p : ℕ × ℕ) : Option (List UInt8) :=
  (u.parts.find? fun q => q.1 = p.1 && q.2.1 = p.2).map (·.2.2)

/-- All but the last of the parts have one size, and the last is not longer. -/
def uniformParts : List (List UInt8) → Bool
  | [] => true
  | p :: ps => ((p :: ps).dropLast.all fun q => q.length = p.length) &&
      ((p :: ps).getLast?.all fun q => q.length ≤ p.length)

/-- What the bucket makes of the parts that a completion lists: nothing, if one of them is not there
or the sizes are not uniform. -/
def Upload.assemble (u : Upload) (parts : List (ℕ × ℕ)) : Option (List UInt8) :=
  match parts.mapM u.part with
  | none => none
  | some ps => if uniformParts ps then some ps.flatten else none

/-- `create_multipart_upload`: the id of the upload is random. -/
def createMultipart (pack : PackId) : Proc (ℕ × Reply) := do
  let r ← request
  Proc.exec (openUpload r.fresh pack)
  let r' ← request
  pure (r.fresh, r')

/-- `upload_part`: the etag of the part. -/
def uploadPart (upload n : ℕ) (bytes : List UInt8) : Proc (ℕ × Reply) := do
  let r ← request
  let db ← Proc.read
  if db.r2.uploads.has upload then do
    Proc.exec (storePart upload n r.fresh bytes)
    let r' ← request
    pure (r.fresh, r')
  else Process.fail (.storage "no such upload")

/-- `complete`: the size of the object. -/
def completeMultipart (upload : ℕ) (parts : List (ℕ × ℕ)) : Proc (ℕ × Reply) := do
  let _ ← request
  let db ← Proc.read
  match db.r2.uploads.find upload with
  | none => Process.fail (.storage "no such upload")
  | some u =>
    match u.assemble parts with
    | none => Process.fail (.storage "invalid part")
    | some bytes => do
      Proc.exec (completeUpload upload u.pack bytes)
      let r' ← request
      pure (bytes.length, r')

/-- `abort`, whose error the callers ignore. -/
def abortMultipart (upload : ℕ) : Proc Reply := do
  let r ← Process.ask
  match r.err with
  | some _ => pure r
  | none => do
    Proc.exec (closeUpload upload)
    Process.ask

end GitEdge
