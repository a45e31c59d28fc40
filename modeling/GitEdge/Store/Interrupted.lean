import GitEdge.Pack.Format
import GitEdge.Store.Writer

/-!
# A pack that is written across interruptions

A writer of `store/mod.rs` appends the entries of a pack, whole or in fragments, and uploads the
bytes in parts. It may be cut at any time: what is left is the checkpoint of the bytes that were
uploaded, and perhaps the bytes that were buffered. A writer that is resumed from it goes on where
the checkpoint is, or where the buffered bytes end, and the appends that were lost are made again.

`Sending` relates the counters of a writer to the pack and to the parts in the bucket: the hasher
took the uploaded bytes, these are whole parts, and the buffer has what follows them. Each step
keeps it, a cut included, so at the end the parts are the pack (`finish_exact`). The count of a
checkpoint has the entries in the buffer too, which a writer that is resumed without it would count
twice (`resume_counts_twice`): the callers set it to the entries that end within the checkpoint.
-/

namespace GitEdge

open Sql Process

variable {codec : Codec} {es : List (List UInt8)} {i n upload size c : ℕ} {u : Upload}
  {pack : PackId} {α : Type} {w w' : PackWriter} {obj : List UInt8} {parts : List (ℕ × ℕ)}
  {encode : Kind → List UInt8 → Except Error (List UInt8)} {db : Db} {rows : List (ℕ × ℕ × ℕ)}

namespace PackWriter

/-- `append_entry`, with the encoding of the entry: the offset and the length, and the writer. -/
def appendEntry (encode : Kind → List UInt8 → Except Error (List UInt8)) (kind : Kind)
    (data : List UInt8) (w : PackWriter) : Except Error ((ℕ × ℕ) × PackWriter) :=
  match encode kind data with
  | .error e => .error e
  | .ok entry =>
    if maxU32 < entry.length then .error (.limit "entry too long")
    else .ok ((w.offset, entry.length),
      (w.rawExtend entry).countEntry kind w.offset (w.offset + entry.length))

/-- `set_part_size`. -/
def setPartSize (n : ℕ) (w : PackWriter) : PackWriter := { w with part_size := n }

end PackWriter

/-! ## The pack -/

section Pack

variable (es) in
/-- Where an entry starts. -/
def entryStart (i : ℕ) : ℕ := 12 + (es.take i).flatten.length

theorem length_packBytes : (packBytes codec es).length = entryStart es es.length := by
  rw [packBytes, List.length_append, codec.header_length, entryStart, List.take_length]

theorem entryStart_succ (hi : i < es.length) :
    entryStart es (i + 1) = entryStart es i + es[i].length := by
  rw [entryStart, entryStart, List.take_succ_eq_append_getElem hi, List.flatten_append,
    List.length_append, List.flatten_singleton, Nat.add_assoc]

theorem entryStart_mono {j : ℕ} (h : i ≤ j) : entryStart es i ≤ entryStart es j := by
  have hsplit := List.take_append_drop i (es.take j)
  rw [List.take_take, Nat.min_eq_left h] at hsplit
  rw [entryStart, entryStart, ← hsplit, List.flatten_append, List.length_append]
  omega

theorem entryStart_le (i : ℕ) : entryStart es i ≤ (packBytes codec es).length := by
  have hsplit : (es.take i).flatten ++ (es.drop i).flatten = es.flatten := by
    rw [← List.flatten_append, List.take_append_drop]
  rw [packBytes, List.length_append, codec.header_length, entryStart, ← hsplit, List.length_append]
  omega

/-- An entry, in the bytes and in the object. -/
theorem slice_packBytes (hi : i < es.length) :
    slice (packBytes codec es) (entryStart es i) es[i].length = es[i] := by
  have hsplit : packBytes codec es =
      (codec.header es.length ++ (es.take i).flatten) ++ (es[i] ++ (es.drop (i + 1)).flatten) := by
    have hes : es = es.take i ++ es[i] :: es.drop (i + 1) := by
      rw [List.getElem_cons_drop, List.take_append_drop]
    have hflat : es.flatten = (es.take i).flatten ++ (es[i] ++ (es.drop (i + 1)).flatten) := by
      rw [← List.flatten_cons, ← List.flatten_append, ← hes]
    rw [packBytes, hflat, List.append_assoc]
  have hlen : entryStart es i = (codec.header es.length ++ (es.take i).flatten).length := by
    rw [entryStart, List.length_append, codec.header_length]
  rw [hsplit, hlen, slice, List.drop_left, List.take_left]

theorem slice_packObject (hi : i < es.length) :
    slice (packObject codec es) (entryStart es i) es[i].length = es[i] := by
  have hle := @entryStart_le codec es (i + 1)
  rw [entryStart_succ hi] at hle
  rw [packObject, slice_append_left _ hle, slice_packBytes hi]

end Pack

/-! ## The parts of an upload -/

theorem Upload.part_withPart_self (u : Upload) (n etag : ℕ) (bytes : List UInt8) :
    (u.withPart n etag bytes).part (n, etag) = some bytes := by
  have hold :
      (u.parts.filter fun p => p.1 ≠ n).find? (fun q => q.1 = n && q.2.1 = etag) = none := by
    rw [List.find?_eq_none]
    intro q hq
    have hne := (List.mem_filter.mp hq).2
    simp_all
  rw [Upload.part, Upload.withPart, List.find?_append, hold]
  simp

theorem Upload.part_withPart_of_ne {etag : ℕ} {bytes : List UInt8} {p : ℕ × ℕ} (hp : p.1 ≠ n) :
    (u.withPart n etag bytes).part p = u.part p := by
  have hnew : ¬ (n = p.1) := fun h => hp h.symm
  rw [Upload.part, Upload.part, Upload.withPart, List.find?_append, List.find?_filter]
  have hsame : (fun q : ℕ × ℕ × List UInt8 =>
      decide (decide (q.1 ≠ n) = true ∧ (decide (q.1 = p.1) && decide (q.2.1 = p.2)) = true)) =
      fun q => decide (q.1 = p.1) && decide (q.2.1 = p.2) := by
    funext q
    by_cases hq : q.1 = p.1
    · simp [hq, hp]
    · simp [hq]
  rw [hsame]
  simp [hnew]

/-- What the others leave: the upload, and the object of the pack. -/
def BesideUpload (upload : ℕ) (pack : PackId) (s t : Db) : Prop :=
  t.r2.uploads.find upload = s.r2.uploads.find upload ∧
    t.r2.objects.find pack = s.r2.objects.find pack

/-- The contract of a writer whose upload is its own; if it is `quiet`, no request fails. -/
def writing (quiet : Prop) (upload : ℕ) (pack : PackId) : Contract Db Reply where
  J _ _ := True
  I _ := True
  R := BesideUpload upload pack
  G _ r := quiet → r.err = none
  S _ := True

section Writing

variable {quiet : Prop} {s₀ s : Db}

/-- A failure, which a quiet bucket does not have. -/
def Fails (quiet : Prop) (x : Except Error α) : Prop := (∃ e, x = .error e) ∧ ¬ quiet

/-- The spans of a writer have no condition of their own. -/
theorem writing_of_forall {Q : Db → Except Error α → Db → Prop} (hQ : ∀ u x t, Q u x t)
    (p : Proc α) : wp (writing quiet upload pack) p s₀ s Q := by
  induction p generalizing s₀ s with
  | ret a => exact hQ _ _ _
  | fail e => exact hQ _ _ _
  | sync stops state next ih => exact ⟨fun _ _ _ => trivial, ih _⟩
  | await k ih => exact ⟨trivial, fun _ r _ _ _ => ih r⟩

theorem writing_request {f : Reply → Proc α} {Q : Db → Except Error α → Db → Prop}
    (herr : ∀ u x t, Fails quiet x → Q u x t)
    (hok : ∀ t r, BesideUpload upload pack s t → wp (writing quiet upload pack) (f r) t t Q) :
    wp (writing quiet upload pack) (request >>= f) s₀ s Q := by
  rw [wp_bind]
  refine wp_request trivial fun t r hR _ hG => ?_
  cases hr : r.err with
  | none => exact hok t r hR
  | some e =>
    refine herr t _ t ⟨⟨e, rfl⟩, fun hquiet => ?_⟩
    rw [hG hquiet] at hr
    cases hr

/-- A part is uploaded under its number. -/
theorem writing_uploadPart (hu : s.r2.uploads.find upload = some u) (n : ℕ) (bytes : List UInt8) :
    wp (writing quiet upload pack) (uploadPart upload n bytes) s₀ s fun _ x t =>
      (∃ etag r, x = .ok (etag, r) ∧ t.r2.uploads.find upload = some (u.withPart n etag bytes)) ∨
        Fails quiet x := by
  unfold uploadPart
  refine writing_request (fun _ _ _ h => .inr h) fun t r ht => ?_
  have hut : t.r2.uploads.find upload = some u := ht.1.trans hu
  have hid : u.id = upload := (Table.find_eq_some.mp hut).2
  rw [wp_bind, wp_read, after_ok, Table.has_eq_isSome, hut, Option.isSome_some, if_pos rfl, wp_bind,
    wp_exec]
  refine ⟨fun _ => trivial, ?_⟩
  rw [after_ok]
  have hstored : (storePart upload n r.fresh bytes t).r2.uploads.find upload =
      some (u.withPart n r.fresh bytes) := by
    refine (Table.find_updateWhere t.r2.uploads (fun u => decide (u.id = upload))
      (Upload.withPart n r.fresh bytes) (fun _ => rfl) upload).trans ?_
    rw [hut]
    simp [hid]
  refine writing_request (fun _ _ _ h => .inr h) fun t' r' ht' => ?_
  exact .inl ⟨r.fresh, r', rfl, ht'.1.trans hstored⟩

/-- A new upload has no parts, and its writer has the header. -/
theorem writing_create {expected : ℕ} (hnew : s.r2.uploads.find upload = none) :
    wp (writing quiet upload pack) (PackWriter.create codec pack expected) s₀ s fun _ x t =>
      (∃ id r, x = .ok
        (⟨id, pack, codec.header expected, [], 12, 0, expected, [], maxU64, 0, partBytes⟩, r) ∧
        (id = upload → t.r2.uploads.find upload = some ⟨upload, pack, []⟩)) ∨ Fails quiet x := by
  unfold PackWriter.create createMultipart
  rw [wp_bind]
  refine writing_request ?_ fun t r ht => ?_
  · rintro u x t ⟨⟨e, rfl⟩, hquiet⟩
    exact .inr ⟨⟨e, rfl⟩, hquiet⟩
  have hnone : t.r2.uploads.has upload = false := by
    rw [Table.has_eq_isSome, ht.1.trans hnew, Option.isSome_none]
  rw [wp_bind, wp_exec]
  refine ⟨fun _ => trivial, ?_⟩
  rw [after_ok]
  refine writing_request ?_ fun t' r' ht' => ?_
  · rintro u x t ⟨⟨e, rfl⟩, hquiet⟩
    exact .inr ⟨⟨e, rfl⟩, hquiet⟩
  refine .inl ⟨r.fresh, r', rfl, ?_⟩
  rintro rfl
  refine ht'.1.trans ((Table.find_insertIgnore t.r2.uploads ⟨r.fresh, pack, []⟩ r.fresh).trans ?_)
  rw [if_pos ⟨hnone, rfl⟩]

/-! ## The counters of a writer -/

/-- The writer after it sent the first bytes of its buffer. -/
def PackWriter.sent (w : PackWriter) (n etag : ℕ) : PackWriter :=
  { w with
    part := w.part.drop n
    hash := w.hash ++ w.part.take n
    parts := w.parts ++ [(w.parts.length + 1, etag)] }

theorem writing_sendPart (hw : w.upload = upload) (hu : s.r2.uploads.find upload = some u)
    (hparts : w.parts.length < maxU16) (n : ℕ) :
    wp (writing quiet upload pack) (w.sendPart n) s₀ s fun _ x t =>
      (∃ etag r, x = .ok (w.sent n etag, r) ∧
        t.r2.uploads.find upload = some (u.withPart (w.parts.length + 1) etag (w.part.take n))) ∨
      Fails quiet x := by
  subst hw
  unfold PackWriter.sendPart
  rw [if_neg (Nat.not_lt.mpr hparts), wp_bind]
  refine (writing_uploadPart hu _ _).mono ?_
  rintro v x t (⟨etag, r, rfl, ht⟩ | hfail)
  · exact .inl ⟨etag, r, rfl, ht⟩
  · obtain ⟨⟨e, rfl⟩, hq⟩ := hfail
    exact .inr ⟨⟨e, rfl⟩, hq⟩

/-- What a writer has uploaded and buffered of an object, in parts of `size` bytes. -/
structure Sending (obj : List UInt8) (size : ℕ) (u : Upload) (w : PackWriter) : Prop where
  upload_eq : w.upload = u.id
  pack_eq : w.pack = u.pack
  part_size : w.part_size = size
  /-- The uploaded bytes and the buffer are the first bytes of the object. -/
  bytes : w.hash ++ w.part <+: obj
  /-- The uploaded bytes are whole parts. -/
  hashed : w.hash.length = w.parts.length * size
  numbers : w.parts.map Prod.fst = List.range' 1 w.parts.length
  /-- The bucket has the parts. -/
  stored : ∀ p ∈ w.parts, u.part p = some (slice obj ((p.1 - 1) * size) size)

namespace Sending

theorem number_le (h : Sending obj size u w) {p : ℕ × ℕ} (hp : p ∈ w.parts) :
    p.1 ≤ w.parts.length := by
  have hmem : p.1 ∈ List.range' 1 w.parts.length := h.numbers ▸ List.mem_map_of_mem hp
  rw [List.mem_range'_1] at hmem
  omega

/-- The bytes of the next part. -/
theorem take_part (h : Sending obj size u w)
    (hn : n = size ∨ (n = w.part.length ∧ n < size ∧ w.hash ++ w.part = obj))
    (hle : n ≤ w.part.length) : w.part.take n = slice obj (w.parts.length * size) size := by
  obtain ⟨rest, rfl⟩ := h.bytes
  rw [slice, ← h.hashed, List.append_assoc, List.drop_left]
  rcases hn with rfl | ⟨rfl, hlt, hall⟩
  · rw [List.take_append_of_le_length hle]
  · have hrest : rest = [] := by simpa using hall
    rw [hrest, List.append_nil, List.take_length, List.take_of_length_le (Nat.le_of_lt hlt)]

/-- The part that was sent has the next number, so it takes the place of no other of the
writer's. -/
theorem stored_sent (h : Sending obj size u w) {etag : ℕ}
    (hpart : w.part.take n = slice obj (w.parts.length * size) size) :
    ∀ p ∈ (w.sent n etag).parts, (u.withPart (w.parts.length + 1) etag (w.part.take n)).part p =
      some (slice obj ((p.1 - 1) * size) size) := by
  intro p hp
  rcases List.mem_append.mp hp with hp | hp
  · have hne : p.1 ≠ w.parts.length + 1 := by
      have := h.number_le hp
      omega
    rw [Upload.part_withPart_of_ne hne]
    exact h.stored p hp
  · rw [List.mem_singleton.mp hp, Upload.part_withPart_self, hpart]
    rfl

theorem numbers_sent (h : Sending obj size u w) (n etag : ℕ) :
    (w.sent n etag).parts.map Prod.fst = List.range' 1 (w.sent n etag).parts.length := by
  dsimp only [PackWriter.sent]
  rw [List.map_append, h.numbers, List.length_append, List.length_singleton, List.range'_concat,
    Nat.one_mul, Nat.add_comm 1]
  rfl

/-- A whole part is sent. -/
theorem send (h : Sending obj size u w) (hfull : size ≤ w.part.length) (etag : ℕ) :
    Sending obj size (u.withPart (w.parts.length + 1) etag (w.part.take size))
    (w.sent size etag) where
  upload_eq := h.upload_eq
  pack_eq := h.pack_eq
  part_size := h.part_size
  bytes := by
    dsimp only [PackWriter.sent]
    rw [List.append_assoc, List.take_append_drop]
    exact h.bytes
  hashed := by
    dsimp only [PackWriter.sent]
    rw [List.length_append, List.length_append, List.length_singleton, h.hashed, List.length_take,
      Nat.min_eq_left hfull, Nat.succ_mul]
  numbers := h.numbers_sent size etag
  stored := h.stored_sent (h.take_part (.inl rfl) hfull)

/-- Bytes that are appended. -/
theorem extend (h : Sending obj size u w) {bytes : List UInt8}
    (hbytes : w.hash ++ w.part ++ bytes <+: obj) (hupload : w'.upload = w.upload)
    (hpack : w'.pack = w.pack) (hsize : w'.part_size = w.part_size)
    (hpart : w'.part = w.part ++ bytes) (hhash : w'.hash = w.hash) (hparts : w'.parts = w.parts) :
    Sending obj size u w' where
  upload_eq := hupload.trans h.upload_eq
  pack_eq := hpack.trans h.pack_eq
  part_size := hsize.trans h.part_size
  bytes := by rw [hhash, hpart, ← List.append_assoc]; exact hbytes
  hashed := by rw [hhash, hparts]; exact h.hashed
  numbers := by rw [hparts]; exact h.numbers
  stored := by rw [hparts]; exact h.stored

end Sending

/-- The parts of a writer fit under the largest number. -/
theorem Sending.parts_lt (h : Sending obj size u w) (hobj : obj.length ≤ maxU16 * size)
    (hpart : w.part ≠ []) : w.parts.length < maxU16 := by
  have hlen : w.hash.length + w.part.length ≤ obj.length := by
    rw [← List.length_append]
    exact h.bytes.length_le
  have hpos := List.length_pos_iff.mpr hpart
  rw [h.hashed] at hlen
  by_contra hge
  have := Nat.mul_le_mul_right size (Nat.le_of_not_lt hge)
  omega

/-- The writer after it sent parts: the counters are the same, and the bytes. -/
structure SameCounters (w w' : PackWriter) : Prop where
  upload : w'.upload = w.upload
  pack : w'.pack = w.pack
  bytes : w'.hash ++ w'.part = w.hash ++ w.part
  offset : w'.offset = w.offset
  count : w'.count = w.count
  expected : w'.expected = w.expected
  commit_lo : w'.commit_lo = w.commit_lo
  commit_hi : w'.commit_hi = w.commit_hi

theorem SameCounters.trans {w'' : PackWriter} (h : SameCounters w w') (h' : SameCounters w' w'') :
    SameCounters w w'' :=
  ⟨h'.upload.trans h.upload, h'.pack.trans h.pack, h'.bytes.trans h.bytes, h'.offset.trans h.offset,
    h'.count.trans h.count, h'.expected.trans h.expected, h'.commit_lo.trans h.commit_lo,
    h'.commit_hi.trans h.commit_hi⟩

theorem sameCounters_sent (w : PackWriter) (n etag : ℕ) : SameCounters w (w.sent n etag) where
  upload := rfl
  pack := rfl
  bytes := by
    dsimp only [PackWriter.sent]
    rw [List.append_assoc, List.take_append_drop]
  offset := rfl
  count := rfl
  expected := rfl
  commit_lo := rfl
  commit_hi := rfl

/-- How the sending of parts ends: in the bucket there is an upload that has them. -/
def SentAll (obj : List UInt8) (size : ℕ) (upload : ℕ) (w : PackWriter) (left : List UInt8)
    (x : Except Error (PackWriter × Reply)) (t : Db) : Prop :=
  ∃ w' r u, x = .ok (w', r) ∧ t.r2.uploads.find upload = some u ∧ Sending obj size u w' ∧
    SameCounters w w' ∧ w'.part = left

section Flush

variable (hsize : 0 < size) (hobj : obj.length ≤ maxU16 * size)
include hsize hobj

/-- `checkpoint`, when there is a whole part. -/
theorem writing_checkpoint (h : Sending obj size u w) (hu : s.r2.uploads.find upload = some u)
    (hfull : size ≤ w.part.length) :
    wp (writing quiet upload pack) w.checkpoint s₀ s fun _ x t =>
      SentAll obj size upload w (w.part.drop size) x t ∨ Fails quiet x := by
  have hid : u.id = upload := (Table.find_eq_some.mp hu).2
  have hne : w.part ≠ [] := List.length_pos_iff.mp (Nat.lt_of_lt_of_le hsize hfull)
  rw [PackWriter.checkpoint, h.part_size]
  refine (writing_sendPart (h.upload_eq.trans hid) hu (h.parts_lt hobj hne) size).mono ?_
  rintro v x t (⟨etag, r, rfl, ht⟩ | hfail)
  · exact .inl ⟨_, r, _, rfl, ht, h.send hfull etag, sameCounters_sent w size etag, rfl⟩
  · exact .inr hfail

/-- `flush_if_full` sends whole parts of the buffer. -/
theorem writing_flush (n : ℕ) (r : Reply) (h : Sending obj size u w)
    (hu : s.r2.uploads.find upload = some u) (hn : n * size ≤ w.part.length) :
    wp (writing quiet upload pack) (PackWriter.flushIfFull n w r) s₀ s fun _ x t =>
      SentAll obj size upload w (w.part.drop (n * size)) x t ∨ Fails quiet x := by
  induction n generalizing s₀ s u w r with
  | zero =>
    refine .inl ⟨w, r, u, rfl, hu, h, ⟨rfl, rfl, rfl, rfl, rfl, rfl, rfl, rfl⟩, ?_⟩
    rw [Nat.zero_mul, List.drop_zero]
  | succ n ih =>
    rw [Nat.succ_mul] at hn
    rw [PackWriter.flushIfFull, wp_bind]
    refine (writing_checkpoint hsize hobj h hu (by omega)).mono ?_
    rintro v x t (⟨w', r', u', rfl, ht, h', hsame, hpart⟩ | ⟨⟨e, rfl⟩, hquiet⟩)
    · rw [after_ok]
      have hleft : n * size ≤ w'.part.length := by
        rw [hpart, List.length_drop]
        omega
      refine (ih r' h' ht hleft).mono ?_
      rintro v' x' t' (⟨w'', r'', u'', rfl, ht', h'', hsame', hpart'⟩ | hfail)
      · refine .inl ⟨w'', r'', u'', rfl, ht', h'', hsame.trans hsame', ?_⟩
        rw [hpart', hpart, List.drop_drop, Nat.succ_mul, Nat.add_comm]
      · exact .inr hfail
    · exact .inr ⟨⟨e, rfl⟩, hquiet⟩

end Flush

/-! ## The end -/

/-- All of the object is uploaded: the parts that the writer lists are those of the object. -/
structure Uploaded (obj : List UInt8) (size : ℕ) (u : Upload) (parts : List (ℕ × ℕ)) : Prop where
  numbers : parts.map Prod.fst = List.range' 1 parts.length
  stored : ∀ p ∈ parts, u.part p = some (slice obj ((p.1 - 1) * size) size)
  enough : obj.length ≤ parts.length * size
  /-- The last part is not empty. -/
  needed : (parts.length - 1) * size < obj.length

namespace Uploaded

theorem parts_eq (h : Uploaded obj size u parts) :
    parts.mapM u.part = some
    ((List.range' 1 parts.length).map fun n => slice obj ((n - 1) * size) size) := by
  rw [← h.numbers, List.map_map]
  have hall := h.stored
  clear h
  induction parts with
  | nil => rfl
  | cons p parts ih =>
    rw [List.mapM_cons, hall p List.mem_cons_self, ih fun q hq =>
      hall q (List.mem_cons_of_mem _ hq)]
    rfl

/-- Together the parts are the object. -/
theorem flatten_parts (h : Uploaded obj size u parts) :
    ((List.range' 1 parts.length).map fun n => slice obj ((n - 1) * size) size).flatten = obj := by
  rw [flatten_slices, List.take_of_length_le h.enough]

/-- All parts but the last have one size. -/
theorem length_part (h : Uploaded obj size u parts) (hn : 1 ≤ n) (hlt : n < parts.length) :
    (slice obj ((n - 1) * size) size).length = size := by
  have hmul : (n - 1) * size + size = n * size := by
    rw [← Nat.succ_mul]
    congr 1
    omega
  have hle : n * size ≤ (parts.length - 1) * size := Nat.mul_le_mul_right size (by omega)
  have hneeded := h.needed
  rw [length_slice]
  omega

end Uploaded

theorem uniformParts_of_length {ps : List (List UInt8)}
    (hfront : ∀ q ∈ ps.dropLast, q.length = size) (hall : ∀ q ∈ ps, q.length ≤ size) :
    uniformParts ps = true := by
  match ps with
  | [] => rfl
  | [p] => simp [uniformParts]
  | p :: q :: ps =>
    have hp : p.length = size := hfront p (by simp)
    rw [uniformParts, Bool.and_eq_true, List.all_eq_true, Option.all_eq_true]
    constructor
    · intro q' hq'
      rw [decide_eq_true_eq, hp]
      exact hfront q' hq'
    · intro q' hq'
      rw [decide_eq_true_eq, hp]
      exact hall q' (List.mem_of_getLast? hq')

/-- All parts but the last of an uploaded object have the size of the parts. -/
theorem Uploaded.length_front (h : Uploaded obj size u parts) :
    ∀ q ∈ ((List.range' 1 parts.length).map fun n => slice obj ((n - 1) * size) size).dropLast,
      q.length = size := by
  intro q hq
  rw [← List.map_dropLast] at hq
  obtain ⟨n, hn, rfl⟩ := List.mem_map.mp hq
  cases hk : parts.length with
  | zero =>
    rw [hk] at hn
    simp at hn
  | succ k =>
    rw [hk, List.range'_concat, List.dropLast_concat, List.mem_range'_1] at hn
    exact h.length_part hn.1 (by omega)

/-- What the bucket makes of the parts. -/
theorem Uploaded.assemble (h : Uploaded obj size u parts) : u.assemble parts = some obj := by
  have huniform : uniformParts ((List.range' 1 parts.length).map fun n =>
      slice obj ((n - 1) * size) size) = true := by
    refine uniformParts_of_length h.length_front fun q hq => ?_
    obtain ⟨n, -, rfl⟩ := List.mem_map.mp hq
    rw [length_slice]
    exact Nat.min_le_left _ _
  rw [Upload.assemble, h.parts_eq]
  dsimp only
  rw [if_pos huniform, h.flatten_parts]

section Finish

variable (hsize : 0 < size) (hobj : (packObject codec es).length ≤ maxU16 * size)
  (h : Sending (packObject codec es) size u w) (hu : s.r2.uploads.find upload = some u)
  (hall : w.hash ++ w.part = packBytes codec es) (hcount : w.count = w.expected)
include hsize hobj h hu hall hcount

/-- `finish_inner` uploads what is left of the pack. -/
theorem writing_finishInner (r : Reply) :
    wp (writing quiet upload pack) (PackWriter.finishInner codec w r) s₀ s fun _ x t =>
      (∃ w' r' u', x = .ok (w', r') ∧ t.r2.uploads.find upload = some u' ∧ u'.pack = u.pack ∧
        w'.upload = upload ∧ Uploaded (packObject codec es) size u' w'.parts ∧
        w'.offset = w.offset ∧ w'.count = w.count) ∨ Fails quiet x := by
  have hid : u.id = upload := (Table.find_eq_some.mp hu).2
  have hne : 0 < (packObject codec es).length := by
    rw [packObject, packBytes, List.length_append, List.length_append, codec.header_length]
    omega
  -- The writer with the trailer.
  have htrailer : Sending (packObject codec es) size u
      { w with part := w.part ++ codec.digest (w.hash ++ w.part) } := by
    refine h.extend ?_ rfl rfl rfl rfl rfl rfl
    rw [hall]
    exact List.prefix_rfl
  have hwhole : w.hash ++ (w.part ++ codec.digest (w.hash ++ w.part)) = packObject codec es := by
    rw [← List.append_assoc, hall]
    rfl
  unfold PackWriter.finishInner
  rw [if_neg (not_not.mpr hcount), wp_bind]
  refine (writing_flush hsize hobj _ r htrailer hu ?_).mono ?_
  · rw [h.part_size]
    exact Nat.div_mul_le_self _ _
  rintro v x t (⟨w', r', u', rfl, ht, h', hsame, hpart⟩ | ⟨⟨e, rfl⟩, hquiet⟩)
  swap
  · exact .inr ⟨⟨e, rfl⟩, hquiet⟩
  rw [after_ok]
  have hpack : u'.pack = u.pack := h'.pack_eq.symm.trans (hsame.pack.trans h.pack_eq)
  have hupload : w'.upload = upload := hsame.upload.trans (h.upload_eq.trans hid)
  have hbytes : w'.hash ++ w'.part = packObject codec es := hsame.bytes.trans hwhole
  have hlen : w'.parts.length * size + w'.part.length = (packObject codec es).length := by
    rw [← hbytes, List.length_append, h'.hashed]
  dsimp only at hpart
  have hshort : w'.part.length < size := by
    rw [hpart, List.length_drop, h.part_size]
    have hmod := Nat.mod_lt (w.part ++ codec.digest (w.hash ++ w.part)).length hsize
    have hdiv := Nat.div_add_mod (w.part ++ codec.digest (w.hash ++ w.part)).length size
    rw [Nat.mul_comm] at hdiv
    omega
  have hneeded : (w'.parts.length - 1) * size ≤ w'.parts.length * size :=
    Nat.mul_le_mul_right size (Nat.sub_le _ _)
  dsimp only
  split_ifs with hempty
  · -- The trailer ended a part.
    rw [hempty, List.length_nil, Nat.add_zero] at hlen
    refine .inl ⟨w', r', u', rfl, ht, hpack, hupload, ⟨h'.numbers, h'.stored, ?_, ?_⟩, hsame.offset,
      hsame.count⟩
    · omega
    · have hpos : 0 < w'.parts.length := by
        by_contra hzero
        rw [Nat.eq_zero_of_not_pos hzero] at hlen
        omega
      have hlast : w'.parts.length * size = (w'.parts.length - 1) * size + size := by
        rw [← Nat.succ_mul]
        congr 1
        omega
      omega
  · -- The last part is shorter.
    have htake := h'.take_part (.inr ⟨rfl, hshort, hbytes⟩) le_rfl
    refine (writing_sendPart hupload ht (h'.parts_lt hobj hempty) w'.part.length).mono ?_
    rintro v' x' t' (⟨etag, r'', rfl, ht'⟩ | hfail)
    · refine .inl ⟨_, r'', _, rfl, ht', hpack, hupload, ?_, hsame.offset, hsame.count⟩
      refine ⟨h'.numbers_sent _ etag, h'.stored_sent htake, ?_, ?_⟩
      · dsimp only [PackWriter.sent]
        rw [List.length_append, List.length_singleton, Nat.succ_mul]
        omega
      · dsimp only [PackWriter.sent]
        rw [List.length_append, List.length_singleton, Nat.add_sub_cancel]
        have := List.length_pos_iff.mpr hempty
        omega
    · exact .inr hfail

/-- `seal` completes the upload, and the object is the pack. -/
theorem writing_finish (hpack : u.pack = pack) (hoffset : w.offset = (packBytes codec es).length)
    (r : Reply) :
    wp (writing quiet upload pack) (PackWriter.finish codec w r) s₀ s fun _ x t =>
      (∃ m r', x = .ok (m, r') ∧ m.count = w.count ∧ m.bytes = (packObject codec es).length ∧
        t.r2.objects.find pack = some (pack, packObject codec es)) ∨ Fails quiet x := by
  unfold PackWriter.finish
  rw [wp_bind, wp_result]
  refine (writing_finishInner hsize hobj h hu hall hcount r).mono ?_
  rintro v x t (⟨w', r', u', rfl, ht, hpack', hupload, hup, hoff, hcnt⟩ | ⟨⟨e, rfl⟩, hquiet⟩)
  swap
  · -- The upload is aborted, and the error is the writer's.
    rw [after_ok]
    dsimp only
    rw [wp_bind]
    refine writing_of_forall (fun u' x t' => ?_) _
    cases x with
    | ok r' => exact .inr ⟨⟨e, rfl⟩, hquiet⟩
    | error e' => exact .inr ⟨⟨e', rfl⟩, hquiet⟩
  have hbytes : w'.offset + codec.digestLen = (packObject codec es).length := by
    rw [packObject, List.length_append, codec.digest_length, hoff, hoffset]
  rw [after_ok]
  dsimp only
  unfold PackWriter.sealPack completeMultipart
  rw [hupload, wp_bind]
  refine writing_request ?_ fun t₁ r₁ ht₁ => ?_
  · rintro u₁ x t₁ ⟨⟨e, rfl⟩, hquiet⟩
    exact .inr ⟨⟨e, rfl⟩, hquiet⟩
  rw [wp_bind, wp_read, after_ok, ht₁.1.trans ht]
  dsimp only
  rw [hup.assemble]
  dsimp only
  rw [wp_bind, wp_exec]
  refine ⟨fun _ => trivial, ?_⟩
  rw [after_ok]
  have hobject : (completeUpload upload u'.pack (packObject codec es) t₁).r2.objects.find pack =
      some (pack, packObject codec es) := by
    refine (Table.find_upsert t₁.r2.objects (u'.pack, packObject codec es)
      (fun o => (o.1, packObject codec es)) (fun _ => rfl) pack).trans ?_
    rw [if_pos (hpack'.trans hpack)]
    cases ho : t₁.r2.objects.find pack with
    | none => exact congrArg (fun k => some (k, packObject codec es)) (hpack'.trans hpack)
    | some o => exact congrArg (fun k => some (k, packObject codec es)) (Table.find_eq_some.mp ho).2
  refine writing_request ?_ fun t₂ r₂ ht₂ => ?_
  · rintro u₁ x t₁ ⟨⟨e, rfl⟩, hquiet⟩
    exact .inr ⟨⟨e, rfl⟩, hquiet⟩
  rw [wp_pure, after_ok]
  dsimp only
  rw [if_neg (not_not.mpr hbytes.symm)]
  exact .inl ⟨_, r₂, rfl, hcnt, hbytes, ht₂.2.trans hobject⟩

end Finish

end Writing

/-! ## Histories -/

/-- So many entries are closed in the first bytes of the pack, and none of the others ends before
them. -/
structure EntriesClosed (es : List (List UInt8)) (pos c : ℕ) : Prop where
  le : c ≤ es.length
  start : entryStart es c ≤ pos
  stop : pos ≤ entryStart es (c + 1)

/-- A writer that is resumed from the checkpoint of one that was cut, with the counters of the
caller. -/
def PackWriter.resumed (codec : Codec) (size : ℕ) (w : PackWriter) (count lo hi : ℕ) : PackWriter :=
  (PackWriter.resume codec w.pack w.upload (w.parts.map Prod.snd)
    { w.snapshot with count := count, commit_lo := lo, commit_hi := hi }).setPartSize size

/-- How the entries are written: the database, the writer, the number of closed entries, and what
the appends returned, with the numbers of their entries. -/
inductive Writes (codec : Codec) (encode : Kind → List UInt8 → Except Error (List UInt8))
    (es : List (List UInt8)) (size upload : ℕ) (pack : PackId) :
    Db → PackWriter → ℕ → List (ℕ × ℕ × ℕ) → Prop
  | create {db db' : Db} {w : PackWriter} {r : Reply} (new : db.r2.uploads.find upload = none)
      (runs : Runs (BesideUpload upload pack) (PackWriter.create codec pack es.length) db
        (.ok (w, r)) db')
      (own : w.upload = upload) :
      Writes codec encode es size upload pack db' (w.setPartSize size) 0 []
  | others {db db' : Db} {w : PackWriter} {c : ℕ} {rows : List (ℕ × ℕ × ℕ)}
      (h : Writes codec encode es size upload pack db w c rows)
      (beside : BesideUpload upload pack db db') :
      Writes codec encode es size upload pack db' w c rows
  | appendStored {db : Db} {w w' : PackWriter} {c : ℕ} {rows : List (ℕ × ℕ × ℕ)} {row : ℕ × ℕ}
      (h : Writes codec encode es size upload pack db w c rows) (hc : c < es.length)
      (starts : w.offset = entryStart es c) (done : w.appendStored codec es[c] = .ok (row, w')) :
      Writes codec encode es size upload pack db w' (c + 1) (rows ++ [(c, row)])
  | appendEntry {db : Db} {w w' : PackWriter} {c : ℕ} {rows : List (ℕ × ℕ × ℕ)} {row : ℕ × ℕ}
      {kind : Kind} {data : List UInt8} (h : Writes codec encode es size upload pack db w c rows)
      (hc : c < es.length) (starts : w.offset = entryStart es c)
      (encodes : encode kind data = .ok es[c])
      (done : w.appendEntry encode kind data = .ok (row, w')) :
      Writes codec encode es size upload pack db w' (c + 1) (rows ++ [(c, row)])
  | rawExtend {db : Db} {w : PackWriter} {c : ℕ} {rows : List (ℕ × ℕ × ℕ)} (n : ℕ)
      (h : Writes codec encode es size upload pack db w c rows)
      (within : w.offset + n ≤ entryStart es (c + 1)) :
      Writes codec encode es size upload pack db
        (w.rawExtend (slice (packBytes codec es) w.offset n)) c rows
  | rawEntryDone {db : Db} {w w' : PackWriter} {c : ℕ} {rows : List (ℕ × ℕ × ℕ)} {row : ℕ × ℕ}
      {kind : Kind} (h : Writes codec encode es size upload pack db w c rows) (hc : c < es.length)
      (ends : w.offset = entryStart es (c + 1))
      (done : w.rawEntryDone kind (entryStart es c) = .ok (row, w')) :
      Writes codec encode es size upload pack db w' (c + 1) (rows ++ [(c, row)])
  | flush {db db' : Db} {w w' : PackWriter} {c : ℕ} {rows : List (ℕ × ℕ × ℕ)} {r r' : Reply}
      (h : Writes codec encode es size upload pack db w c rows)
      (runs : Runs (BesideUpload upload pack)
        (PackWriter.flushIfFull (w.part.length / w.part_size) w r) db
        (.ok (w', r')) db') :
      Writes codec encode es size upload pack db' w' c rows
  | checkpoint {db db' : Db} {w w' : PackWriter} {c : ℕ} {rows : List (ℕ × ℕ × ℕ)} {r' : Reply}
      (h : Writes codec encode es size upload pack db w c rows) (full : w.part_size ≤ w.part.length)
      (runs : Runs (BesideUpload upload pack) w.checkpoint db (.ok (w', r')) db') :
      Writes codec encode es size upload pack db' w' c rows
  /-- What the writer did after its checkpoint is lost, but for the parts that it uploaded. -/
  | cut {db db' : Db} {w : PackWriter} {c count lo hi : ℕ} {rows : List (ℕ × ℕ × ℕ)} {u u' : Upload}
      (h : Writes codec encode es size upload pack db w c rows)
      (before : db.r2.uploads.find upload = some u) (after : db'.r2.uploads.find upload = some u')
      (same : u'.pack = u.pack) (kept : ∀ p ∈ w.parts, u'.part p = u.part p)
      (closed : EntriesClosed es (w.resumed codec size count lo hi).offset count) :
      Writes codec encode es size upload pack db' (w.resumed codec size count lo hi) count rows
  /-- The buffer is there, with so many entries that end in it. -/
  | cutWithTail {db db' : Db} {w : PackWriter} {c count extra lo hi lo' hi' : ℕ}
      {rows : List (ℕ × ℕ × ℕ)} {u u' : Upload}
      (h : Writes codec encode es size upload pack db w c rows)
      (before : db.r2.uploads.find upload = some u) (after : db'.r2.uploads.find upload = some u')
      (same : u'.pack = u.pack) (kept : ∀ p ∈ w.parts, u'.part p = u.part p)
      (closed : count + extra = c) :
      Writes codec encode es size upload pack db'
        ((w.resumed codec size count lo hi).resumeTail w.part extra lo' hi') c rows

/-- What holds of a writer in every history. -/
structure Wrote (codec : Codec) (es : List (List UInt8)) (size upload : ℕ) (pack : PackId) (db : Db)
    (w : PackWriter) (c : ℕ) (rows : List (ℕ × ℕ × ℕ)) : Prop where
  sending : ∃ u, db.r2.uploads.find upload = some u ∧ u.pack = pack ∧
    Sending (packObject codec es) size u w
  offset : w.offset = (w.hash ++ w.part).length
  closed : EntriesClosed es w.offset c
  count : w.count = c
  expected : w.expected = es.length
  rows : ∀ row ∈ rows, ∃ hi : row.1 < es.length, row.2 = (entryStart es row.1, es[row.1].length)

section Wrote

variable {db' : Db}

/-- The next bytes of the object may follow what is there. -/
theorem Sending.append_slice (h : Sending obj size u w)
    (hoffset : w.offset = (w.hash ++ w.part).length) (n : ℕ) :
    w.hash ++ w.part ++ slice obj w.offset n <+: obj := by
  obtain ⟨rest, rfl⟩ := h.bytes
  rw [hoffset, slice, List.drop_left, List.prefix_append_right_inj]
  exact List.take_prefix n rest

/-- Bytes of the pack are appended. -/
theorem Wrote.extend (h : Wrote codec es size upload pack db w c rows)
    (hn : w.offset + n ≤ (packBytes codec es).length) {c' : ℕ} {rows' : List (ℕ × ℕ × ℕ)}
    (hw : w'.upload = w.upload ∧ w'.pack = w.pack ∧ w'.part_size = w.part_size ∧ w'.hash = w.hash ∧
      w'.parts = w.parts ∧ w'.expected = w.expected)
    (hpart : w'.part = w.part ++ slice (packBytes codec es) w.offset n)
    (hoffset : w'.offset = w.offset + n) (hcount : w'.count = c')
    (hclosed : EntriesClosed es (w.offset + n) c') (hrows : ∀ row ∈ rows', ∃ hi : row.1 < es.length,
    row.2 = (entryStart es row.1, es[row.1].length)) :
    Wrote codec es size upload pack db w' c' rows' := by
  obtain ⟨u, hu, hpack, hsending⟩ := h.sending
  obtain ⟨hup, hpk, hsz, hhash, hparts, hexp⟩ := hw
  have hslice : slice (packObject codec es) w.offset n = slice (packBytes codec es) w.offset n :=
    slice_append_left _ hn
  have hbytes := hsending.append_slice h.offset n
  rw [hslice] at hbytes
  refine ⟨⟨u, hu, hpack, hsending.extend hbytes hup hpk hsz hpart hhash hparts⟩, ?_, ?_, hcount,
    hexp.trans h.expected, hrows⟩
  · rw [hhash, hpart, ← List.append_assoc, List.length_append, ← h.offset, hoffset, length_slice]
    omega
  · rw [hoffset]
    exact hclosed

/-- The next entry is appended whole. -/
theorem Wrote.append (h : Wrote codec es size upload pack db w c rows) (hc : c < es.length)
    (hstarts : w.offset = entryStart es c) (kind : Kind) :
    Wrote codec es size upload pack db
      ((w.rawExtend es[c]).countEntry kind w.offset (w.offset + es[c].length)) (c + 1)
      (rows ++ [(c, w.offset, es[c].length)]) := by
  have hend : w.offset + es[c].length = entryStart es (c + 1) := by rw [hstarts, entryStart_succ hc]
  have hentry : slice (packBytes codec es) w.offset es[c].length = es[c] := by
    rw [hstarts, slice_packBytes hc]
  refine h.extend (n := es[c].length) ?_ ⟨rfl, rfl, rfl, rfl, rfl, rfl⟩ ?_ rfl ?_ ?_ ?_
  · rw [hend]
    exact entryStart_le _
  · rw [hentry]
    rfl
  · exact congrArg (· + 1) h.count
  · rw [hend]
    exact ⟨hc, le_rfl, entryStart_mono (Nat.le_succ _)⟩
  · intro row hrow
    rcases List.mem_append.mp hrow with hrow | hrow
    · exact h.rows row hrow
    · rw [List.mem_singleton.mp hrow]
      exact ⟨hc, by rw [hstarts]⟩

/-- The writer after it sent parts. -/
theorem Wrote.sent (h : Wrote codec es size upload pack db w c rows)
    (hu : db'.r2.uploads.find upload = some u) (hsending : Sending (packObject codec es) size u w')
    (hsame : SameCounters w w') : Wrote codec es size upload pack db' w' c rows := by
  obtain ⟨u', -, hpack, hsending'⟩ := h.sending
  have hpack' : u.pack = pack :=
    hsending.pack_eq.symm.trans (hsame.pack.trans (hsending'.pack_eq.trans hpack))
  refine ⟨⟨u, hu, hpack', hsending⟩, ?_, ?_, hsame.count.trans h.count,
    hsame.expected.trans h.expected, h.rows⟩
  · rw [hsame.bytes, hsame.offset]
    exact h.offset
  · rw [hsame.offset]
    exact h.closed

/-- When all entries are closed, the writer has the bytes of the pack. -/
theorem Wrote.all_bytes (h : Wrote codec es size upload pack db w es.length rows)
    (hsending : Sending (packObject codec es) size u w) :
    w.hash ++ w.part = packBytes codec es := by
  have hstart := h.closed.start
  have hstop := h.closed.stop
  have hlast : entryStart es (es.length + 1) = entryStart es es.length := by
    rw [entryStart, entryStart, List.take_of_length_le (Nat.le_succ _), List.take_length]
  have hlen : (w.hash ++ w.part).length = (packBytes codec es).length := by
    rw [← h.offset, length_packBytes]
    omega
  exact (List.prefix_of_prefix_length_le hsending.bytes (List.prefix_append _ _)
    hlen.le).eq_of_length hlen

/-! ### Cuts -/

/-- The etags give the parts of the writer back. -/
theorem resume_etags (hnumbers : parts.map Prod.fst = List.range' n parts.length)
    (hle : n + parts.length ≤ maxU16 + 1) :
    ((parts.map Prod.snd).zipIdx n).filterMap
      (fun p => if p.2 ≤ maxU16 then some (p.2, p.1) else none) =
      parts := by
  induction parts generalizing n with
  | nil => rfl
  | cons p parts ih =>
    rw [List.length_cons] at hle hnumbers
    rw [List.map_cons, List.range'_succ, List.cons.injEq] at hnumbers
    have hp : n ≤ maxU16 := by omega
    rw [List.map_cons, List.zipIdx_cons, List.filterMap_cons]
    dsimp only
    rw [if_pos hp, ih hnumbers.2 (by omega), ← hnumbers.1]

/-- The checkpoint is where the uploaded bytes end. -/
theorem Wrote.snapshot_pos (h : Wrote codec es size upload pack db w c rows) :
    w.snapshot.pos = w.hash.length := by
  have hoffset := h.offset
  rw [List.length_append] at hoffset
  show w.offset - w.part.length = _
  omega

variable (count lo hi : ℕ)

/-- A resumed writer has the parts, and the header while nothing is uploaded. -/
theorem Wrote.sending_resumed (h : Wrote codec es size upload pack db w c rows) {u' : Upload}
    (hsending : Sending (packObject codec es) size u w) (hparts : w.parts.length ≤ maxU16)
    (hid : u'.id = u.id) (hpack : u'.pack = u.pack) (hkept : ∀ p ∈ w.parts, u'.part p = u.part p) :
    Sending (packObject codec es) size u' (w.resumed codec size count lo hi) := by
  have hetags : (w.resumed codec size count lo hi).parts = w.parts :=
    resume_etags hsending.numbers (by omega)
  refine ⟨hsending.upload_eq.trans hid.symm, hsending.pack_eq.trans hpack.symm, rfl, ?_, ?_, ?_, ?_⟩
  · show w.hash ++ (if w.snapshot.pos = 0 then codec.header w.expected else []) <+:
      packObject codec es
    split_ifs with hpos
    · rw [h.snapshot_pos, List.length_eq_zero_iff] at hpos
      rw [hpos, List.nil_append, h.expected, packObject, packBytes, List.append_assoc]
      exact List.prefix_append _ _
    · rw [List.append_nil]
      exact (List.prefix_append _ _).trans hsending.bytes
  · rw [hetags]
    exact hsending.hashed
  · rw [hetags]
    exact hsending.numbers
  · rw [hetags]
    intro p hp
    rw [hkept p hp]
    exact hsending.stored p hp

theorem Wrote.offset_resumed (h : Wrote codec es size upload pack db w c rows) :
    (w.resumed codec size count lo hi).offset =
      ((w.resumed codec size count lo hi).hash ++
        (w.resumed codec size count lo hi).part).length := by
  show (if w.snapshot.pos = 0 then 12 else w.snapshot.pos) =
    (w.hash ++ if w.snapshot.pos = 0 then codec.header w.expected else []).length
  rw [h.snapshot_pos]
  split_ifs with hpos
  · rw [List.length_append, hpos, codec.header_length]
  · rw [List.append_nil]

/-- With the buffered bytes the writer is where it was. -/
theorem Wrote.offset_tail (h : Wrote codec es size upload pack db w c rows) (extra lo' hi' : ℕ) :
    ((w.resumed codec size count lo hi).resumeTail w.part extra lo' hi').offset = w.offset := by
  have hresumed := h.offset_resumed count lo hi
  have hoffset := h.offset
  rw [List.length_append] at hresumed hoffset
  show (w.resumed codec size count lo hi).offset - (w.resumed codec size count lo hi).part.length +
    w.part.length = w.offset
  have hhash : (w.resumed codec size count lo hi).hash.length = w.hash.length := rfl
  omega

end Wrote

section Run

variable (hsize : 0 < size) (hobj : (packObject codec es).length ≤ maxU16 * size)
include hsize hobj

theorem Sending.parts_le (h : Sending (packObject codec es) size u w) :
    w.parts.length ≤ maxU16 := by
  have hle : w.hash.length ≤ (packObject codec es).length :=
    ((List.prefix_append w.hash w.part).trans h.bytes).length_le
  rw [h.hashed] at hle
  exact Nat.le_of_mul_le_mul_right (hle.trans hobj) hsize

/-- Every step keeps what holds of the writer. -/
theorem Writes.wrote (h : Writes codec encode es size upload pack db w c rows) :
    Wrote codec es size upload pack db w c rows := by
  induction h with
  | @create db db' w r new runs own =>
    have hcreate := @writing_create codec upload pack False db db es.length new
    obtain ⟨-, hnew | hfail⟩ := hcreate.of_runs (fun _ => trivial) (fun _ _ hf => hf.elim) runs
    swap
    · obtain ⟨⟨e, he⟩, -⟩ := hfail
      cases he
    obtain ⟨id, r', heq, hopened⟩ := hnew
    cases heq
    cases own
    refine ⟨⟨_, hopened rfl, rfl, rfl, rfl, rfl, ?_, (Nat.zero_mul _).symm, rfl,
      fun p hp => nomatch hp⟩, ?_, ⟨Nat.zero_le _, le_rfl, entryStart_mono (Nat.zero_le _)⟩, rfl,
      rfl, fun row hrow => nomatch hrow⟩
    · show [] ++ codec.header es.length <+: packObject codec es
      rw [List.nil_append, packObject, packBytes, List.append_assoc]
      exact List.prefix_append _ _
    · exact (codec.header_length es.length).symm
  | others h beside ih =>
    obtain ⟨u, hu, hrest⟩ := ih.sending
    exact ⟨⟨u, beside.1.trans hu, hrest⟩, ih.offset, ih.closed, ih.count, ih.expected, ih.rows⟩
  | appendStored h hc starts done ih =>
    unfold PackWriter.appendStored at done
    split at done
    · cases done
    · rename_i kind _
      split_ifs at done
      cases done
      exact ih.append hc starts kind
  | appendEntry h hc starts encodes done ih =>
    rw [PackWriter.appendEntry, encodes] at done
    dsimp only at done
    split_ifs at done
    cases done
    exact ih.append hc starts _
  | rawExtend n h within ih =>
    have hle : _ ≤ (packBytes codec es).length := within.trans (entryStart_le _)
    refine ih.extend hle ⟨rfl, rfl, rfl, rfl, rfl, rfl⟩ rfl ?_ ih.count
      ⟨ih.closed.le, ?_, within⟩ ih.rows
    · show _ + (slice _ _ _).length = _
      rw [length_slice]
      omega
    · have := ih.closed.start
      omega
  | @rawEntryDone db w w' c rows row kind h hc ends done ih =>
    unfold PackWriter.rawEntryDone at done
    split_ifs at done
    cases done
    have hlen : entryStart es (c + 1) - entryStart es c = es[c].length := by
      rw [entryStart_succ hc, Nat.add_sub_cancel_left]
    have hle : w.offset + 0 ≤ (packBytes codec es).length := ends.le.trans (entryStart_le _)
    refine ih.extend hle ⟨rfl, rfl, rfl, rfl, rfl, rfl⟩ (List.append_nil _).symm rfl
      (congrArg (· + 1) ih.count) ⟨hc, ends.ge, ends.le.trans (entryStart_mono (Nat.le_succ _))⟩
      fun row hrow => ?_
    rcases List.mem_append.mp hrow with hrow | hrow
    · exact ih.rows row hrow
    · rw [List.mem_singleton.mp hrow]
      exact ⟨hc, by rw [ends, hlen]⟩
  | @flush db db' w w' c rows r r' h runs ih =>
    obtain ⟨u, hu, -, hsending⟩ := ih.sending
    have hfit : w.part.length / w.part_size * size ≤ w.part.length := by
      rw [hsending.part_size]
      exact Nat.div_mul_le_self _ _
    have hflush := @writing_flush upload size u pack w _ False db db hsize hobj _ r hsending hu hfit
    obtain ⟨-, hsent | hfail⟩ := hflush.of_runs (fun _ => trivial) (fun _ _ hf => hf.elim) runs
    · obtain ⟨w', r', u', heq, hu', hsending', hsame, -⟩ := hsent
      cases heq
      exact ih.sent hu' hsending' hsame
    · obtain ⟨⟨e, he⟩, -⟩ := hfail
      cases he
  | @checkpoint db db' w w' c rows r' h full runs ih =>
    obtain ⟨u, hu, -, hsending⟩ := ih.sending
    rw [hsending.part_size] at full
    have hsend := @writing_checkpoint upload size u pack w _ False db db hsize hobj hsending hu full
    obtain ⟨-, hsent | hfail⟩ := hsend.of_runs (fun _ => trivial) (fun _ _ hf => hf.elim) runs
    · obtain ⟨w', r', u', heq, hu', hsending', hsame, -⟩ := hsent
      cases heq
      exact ih.sent hu' hsending' hsame
    · obtain ⟨⟨e, he⟩, -⟩ := hfail
      cases he
  | @cut db db' w c count lo hi rows u u' h before after same kept closed ih =>
    obtain ⟨_, hu, hpack, hsending⟩ := ih.sending
    cases before.symm.trans hu
    have hid := (Table.find_eq_some.mp after).2.trans (Table.find_eq_some.mp before).2.symm
    exact ⟨⟨u', after, same.trans hpack,
      ih.sending_resumed count lo hi hsending (hsending.parts_le hsize hobj) hid same kept⟩,
      ih.offset_resumed count lo hi, closed, rfl, ih.expected, ih.rows⟩
  | @cutWithTail db db' w c count extra lo hi lo' hi' rows u u' h before after same kept
      closed ih =>
    obtain ⟨_, hu, hpack, hsending⟩ := ih.sending
    cases before.symm.trans hu
    have hid := (Table.find_eq_some.mp after).2.trans (Table.find_eq_some.mp before).2.symm
    have hresumed := ih.sending_resumed count lo hi hsending (hsending.parts_le hsize hobj)
      hid same kept
    have hoffset := ih.offset_tail count lo hi extra lo' hi'
    refine ⟨⟨u', after, same.trans hpack, hresumed.upload_eq, hresumed.pack_eq, hresumed.part_size,
      hsending.bytes, hresumed.hashed, hresumed.numbers, hresumed.stored⟩, ?_, ?_, closed,
      ih.expected, ih.rows⟩
    · exact hoffset.trans ih.offset
    · rw [hoffset]
      exact ih.closed

end Run

/-- The pack is written across cuts: what an append returned is the place of its entry, and when all
entries are appended, `finish` uploads the pack in parts of one size. -/
theorem finish_exact (codec : Codec) (encode : Kind → List UInt8 → Except Error (List UInt8))
    (es : List (List UInt8)) (size upload : ℕ) (pack : PackId) (hsize : 0 < size)
    (hobj : (packObject codec es).length ≤ maxU16 * size)
    (h : Writes codec encode es size upload pack db w c rows) :
    (∀ row ∈ rows, ∃ hi : row.1 < es.length, slice (packObject codec es) row.2.1 row.2.2 =
      es[row.1]) ∧
    (c = es.length → ∀ (quiet : Prop) (r : Reply),
      (wp (writing quiet upload pack) (PackWriter.finishInner codec w r) db db fun _ x t =>
        (∃ w' r' u ps, x = .ok (w', r') ∧ t.r2.uploads.find upload = some u ∧
          w'.parts.mapM u.part = some ps ∧ ps.flatten = packObject codec es ∧
          ∀ q ∈ ps.dropLast, q.length = size) ∨ Fails quiet x) ∧
      wp (writing quiet upload pack) (PackWriter.finish codec w r) db db fun _ x t =>
        (∃ m r', x = .ok (m, r') ∧ m.count = es.length ∧ m.bytes = (packObject codec es).length ∧
          t.r2.objects.find pack = some (pack, packObject codec es)) ∨ Fails quiet x) := by
  have hwrote := h.wrote hsize hobj
  constructor
  · intro row hrow
    obtain ⟨hi, hplace⟩ := hwrote.rows row hrow
    exact ⟨hi, by rw [hplace, slice_packObject hi]⟩
  rintro rfl quiet r
  obtain ⟨u, hu, hpack, hsending⟩ := hwrote.sending
  have hall := hwrote.all_bytes hsending
  have hcount : w.count = w.expected := hwrote.count.trans hwrote.expected.symm
  have hoffset : w.offset = (packBytes codec es).length := by rw [hwrote.offset, hall]
  constructor
  · refine (writing_finishInner hsize hobj hsending hu hall hcount r).mono ?_
    rintro v x t (⟨w', r', u', rfl, ht, -, -, hup, -⟩ | hfail)
    · exact .inl ⟨w', r', u', _, rfl, ht, hup.parts_eq, hup.flatten_parts, hup.length_front⟩
    · exact .inr hfail
  · refine (writing_finish hsize hobj hsending hu hall hcount hpack hoffset r).mono ?_
    rintro v x t (⟨m, r', rfl, hm, hbytes, hobject⟩ | hfail)
    · exact .inl ⟨m, r', rfl, hm.trans hwrote.count, hbytes, hobject⟩
    · exact .inr hfail

/-! ### Small packs -/

/-- The entry of an empty object. -/
def emptyEntry (k : Kind) : List UInt8 :=
  [UInt8.ofNat (16 * k.code), 0x78, 0x9c, 0x03, 0, 0, 0, 0, 1]

/-- The entries of an empty blob and an empty tree. -/
def emptyEntries : List (List UInt8) := [emptyEntry .blob, emptyEntry .tree]

/-- A reply without an error. -/
def goodReply (fresh : ℕ) : Reply := ⟨0, false, fresh, none⟩

/-- The bucket with the upload and its first part. -/
def onePart : Db := storePart 3 1 4 (packHeaderBytes 2) (openUpload 3 1 Db.fresh)

/-- A writer of two entries that uploaded the header, with some entries in the buffer. -/
def headerSent (es : List (List UInt8)) : PackWriter :=
  ⟨3, 1, es.flatten, [(1, 4)], 12 + es.flatten.length, es.length, 2, packHeaderBytes 2, maxU64, 0,
    12⟩

section TwoEntries

theorem writes_headerSent : Writes (.git .sha1) encode emptyEntries 12 3 1 onePart
    (headerSent [emptyEntry .blob]) 1 [(0, 12, 9)] := by
  have hcreate : Runs (BesideUpload 3 1) (PackWriter.create (.git .sha1) 1 2) Db.fresh
      (.ok (⟨3, 1, packHeaderBytes 2, [], 12, 0, 2, [], maxU64, 0, partBytes⟩, goodReply 3))
      (openUpload 3 1 Db.fresh) :=
    .await (r := goodReply 3) ⟨rfl, rfl⟩ (.sync (.await (r := goodReply 3) ⟨rfl, rfl⟩ (.ret _ _)))
  have hnew : Writes (.git .sha1) encode emptyEntries 12 3 1 (openUpload 3 1 Db.fresh)
      (PackWriter.setPartSize 12
        ⟨3, 1, packHeaderBytes 2, [], 12, 0, 2, [], maxU64, 0, partBytes⟩) 0 [] :=
    .create rfl hcreate rfl
  have happend : Writes (.git .sha1) encode emptyEntries 12 3 1 (openUpload 3 1 Db.fresh)
      ⟨3, 1, packHeaderBytes 2 ++ emptyEntry .blob, [], 21, 1, 2, [], maxU64, 0, 12⟩ 1
      [(0, 12, 9)] :=
    hnew.appendStored (by decide) rfl rfl
  have hflush : Runs (BesideUpload 3 1)
      (PackWriter.flushIfFull 1
        ⟨3, 1, packHeaderBytes 2 ++ emptyEntry .blob, [], 21, 1, 2, [], maxU64, 0, 12⟩
        (goodReply 3))
      (openUpload 3 1 Db.fresh) (.ok (headerSent [emptyEntry .blob], goodReply 4)) onePart :=
    .await (r := goodReply 4) ⟨rfl, rfl⟩
      (.sync (.sync (.await (r := goodReply 4) ⟨rfl, rfl⟩ (.ret _ _))))
  exact happend.flush hflush

/-- The writer is cut with an entry in the buffer, which is lost and appended again, and once more
with the buffer. -/
theorem writes_two_cuts : Writes (.git .sha1) encode emptyEntries 12 3 1 onePart
    (headerSent emptyEntries) 2 [(0, 12, 9), (0, 12, 9), (1, 21, 9)] := by
  have hupload : onePart.r2.uploads.find 3 = some ⟨3, 1, [(1, 4, packHeaderBytes 2)]⟩ := rfl
  have hlost : Writes (.git .sha1) encode emptyEntries 12 3 1 onePart (headerSent []) 0
      [(0, 12, 9)] :=
    writes_headerSent.cut hupload hupload rfl (fun _ _ => rfl) ⟨by decide, by decide, by decide⟩
  have hagain : Writes (.git .sha1) encode emptyEntries 12 3 1 onePart
      (headerSent [emptyEntry .blob]) 1 [(0, 12, 9), (0, 12, 9)] :=
    hlost.appendStored (by decide) rfl rfl
  have hkept : Writes (.git .sha1) encode emptyEntries 12 3 1 onePart
      (((headerSent [emptyEntry .blob]).resumed (.git .sha1) 12 0 maxU64 0).resumeTail
        (emptyEntry .blob) 1 maxU64 0) 1 [(0, 12, 9), (0, 12, 9)] :=
    hagain.cutWithTail hupload hupload rfl (fun _ _ => rfl) rfl
  exact hkept.appendStored (by decide) rfl rfl

end TwoEntries

/-- The object that the writer leaves after the two cuts, with its digest of 20 bytes. -/
theorem finish_two_cuts :
    wp (writing True 3 1) (PackWriter.finish (.git .sha1) (headerSent emptyEntries) (goodReply 5))
      onePart onePart fun _ x t =>
        (∃ m r', x = .ok (m, r') ∧ m.count = 2 ∧ m.bytes = 50 ∧
          t.r2.objects.find 1 = some (1, packObject (.git .sha1) emptyEntries)) ∨ Fails True x := by
  have hlen : (packObject (.git .sha1) emptyEntries).length = 50 := by
    rw [packObject, List.length_append, Codec.digest_length]
    rfl
  have hfinish := ((finish_exact (.git .sha1) (fun k data => .ok (encodeEntry (k, data)))
    emptyEntries 12 3 1 (by decide) (by rw [hlen]; decide) writes_two_cuts).2 rfl True
    (goodReply 5)).2
  rw [hlen] at hfinish
  exact hfinish

/-- A count that no one corrected: the entry that was buffered at the cut is counted twice. -/
theorem resume_counts_twice :
    ∃ w₁ w₂ row,
      (PackWriter.appendStored (.git .sha1) (emptyEntry .blob)
        ⟨0, 1, packHeaderBytes 1, [], 12, 0, 1, [], maxU64, 0, partBytes⟩ = .ok (row, w₁)) ∧
      w₁.part.length < partBytes ∧
      PackWriter.appendStored (.git .sha1) (emptyEntry .blob)
        (PackWriter.resume (.git .sha1) 1 0 (w₁.parts.map Prod.snd) w₁.snapshot) = .ok (row, w₂) ∧
      w₂.part = packBytes (.git .sha1) [emptyEntry .blob] ∧
      ∀ r, PackWriter.finishInner (.git .sha1) w₂ r =
        Process.fail (.internal "wrote 2 entries, header says 1") := by
  refine ⟨_, _, _, rfl, by decide, rfl, rfl, fun r => rfl⟩

end GitEdge
