import GitEdge.Lib.Utf8
import GitEdge.Pack.Format
import GitEdge.Store.Writer
import GitEdge.Wire.PktLine

/-!
# Fetching the pack of a remote

The download of `fetch_slice` of `jobs/import.rs`: the packets of the remote's answer, of which
those of band 1 after the line `packfile` are the pack. Its bytes go to a multipart upload, and the
last bytes are held back from the hasher, so that they can be compared with its digest when the pack
ends. `Staging` is what the loop keeps: the parts and the buffer of the upload are the bytes of the
pack so far, and so are the bytes of the hasher and those held back.

The requests of the upload are numbered. Each of them is charged to the budget of the slice, and may
fail; `Served` tells that the first so many did not.
-/

namespace GitEdge

variable {digest : ObjFormat → List UInt8 → Option (List UInt8)} {n : ℕ}

/-! ## The upload -/

/-- What the requests of an upload meet: which charges come after the time limit, and what the
bucket answers. -/
structure RemoteWorld where
  late : ℕ → Bool
  answer : ℕ → Option String

/-- The subrequests of a slice. -/
def sliceSubrequests : ℕ := 400

/-- A request of the upload: `ReqBudget::charge`, and the answer of the bucket. -/
def RemoteWorld.request (w : RemoteWorld) (n : ℕ) : Except Error Unit :=
  if sliceSubrequests < n + 1 || w.late n then .error .budget
  else
    match w.answer n with
    | some m => .error (.storage m)
    | none => .ok ()

/-- `RawWriter`, with the bytes of its parts and the number of its next request. -/
structure RawWriter where
  part : List UInt8
  parts : List (List UInt8)
  used : ℕ
deriving DecidableEq, Repr

namespace RawWriter

/-- The upload of a part. -/
def put (w : RemoteWorld) (o : RawWriter) (chunk : List UInt8) : Except Error RawWriter :=
  if maxU16 < o.parts.length + 1 then .error (.limit "too many parts")
  else
    match w.request o.used with
    | .error e => .error e
    | .ok () => .ok { o with parts := o.parts ++ [chunk], used := o.used + 1 }

/-- The loop of `flush_if_full`, with a bound on its rounds. -/
def flushLoop (w : RemoteWorld) : ℕ → RawWriter → Except Error RawWriter
  | 0, o => .ok o
  | n + 1, o =>
    if o.part.length < partBytes then .ok o
    else
      match put w { o with part := o.part.drop partBytes } (o.part.take partBytes) with
      | .error e => .error e
      | .ok o => flushLoop w n o

/-- `flush_if_full`: no round takes fewer bytes than one. -/
def flushIfFull (w : RemoteWorld) (o : RawWriter) : Except Error RawWriter :=
  flushLoop w o.part.length o

/-- The end of `finish`: the object of the parts. -/
def complete (w : RemoteWorld) (o : RawWriter) : Except Error (List UInt8) :=
  match w.request o.used with
  | .error e => .error e
  | .ok () => .ok o.parts.flatten

/-- `finish`. -/
def finish (w : RemoteWorld) (o : RawWriter) : Except Error (List UInt8) :=
  if o.part = [] then o.complete w
  else
    match put w { o with part := [] } o.part with
    | .error e => .error e
    | .ok o => o.complete w

end RawWriter

/-! ## The loop over the packets -/

/-- The variables of the loop. The hasher is the bytes that it was fed. -/
structure Fetching where
  in_pack : Bool
  out : RawWriter
  hashed : List UInt8
  hold : List UInt8
  total : ℕ
deriving DecidableEq, Repr

/-- The line before the pack. -/
def packfileLine : List UInt8 := [0x70, 0x61, 0x63, 0x6b, 0x66, 0x69, 0x6c, 0x65, 0x0a]

/-- The bytes of a packet of band 1. -/
def Fetching.append (w : RemoteWorld) (fmt : ObjFormat) (s : Fetching) (data : List UInt8) :
    Except Error Fetching :=
  let hold := s.hold ++ data
  let n := hold.length - fmt.width
  match ({ s.out with part := s.out.part ++ data } : RawWriter).flushIfFull w with
  | .error e => .error e
  | .ok out => .ok ⟨s.in_pack, out, s.hashed ++ hold.take n, hold.drop n, s.total + data.length⟩

/-- One packet. The flush after the pack ends the loop; a line of the pack is never empty, and one
that is would be out of range. -/
def fetchPkt (w : RemoteWorld) (fmt : ObjFormat) (s : Fetching) :
    Pkt → Except Error (Fetching ⊕ Fetching)
  | .flush => .ok (if s.in_pack then .inr s else .inl s)
  | .delim => .ok (.inl s)
  | .responseEnd => .ok (.inl s)
  | .data d =>
    if !s.in_pack then .ok (.inl { s with in_pack := d = packfileLine })
    else
      match d with
      | [] => .error (.internal "range start index out of range")
      | band :: data =>
        if band = 1 then (s.append w fmt data).map .inl
        else if band = 2 then .ok (.inl s)
        else .error (.protocol ("remote ERR: " ++ String.ofList (Utf8.lossy data)))

/-- The loop over the chunks of the response. -/
def fetchLoop (w : RemoteWorld) (d : PktDecoder) (fmt : ObjFormat) :
    List (Except String (List UInt8)) → Fetching → List UInt8 → Except Error Fetching
  | stream, s, buf =>
    match d.scan (fetchPkt w fmt) s buf with
    | .failed e => .error e
    | .done s _ => .ok s
    | .more s rest =>
      match stream with
      | [] => .error (.protocol "remote stream ended mid-pack")
      | .error e :: _ => .error (.internal s!"remote stream: {e}")
      | .ok chunk :: stream => fetchLoop w d fmt stream s (rest ++ chunk)

/-- What a slice does with the answer: it goes on with the staged object, it rejects the push, or it
fails and is run again. -/
inductive Fetched where
  | staged (object : List UInt8) (bytes : ℕ)
  | rejected (why : String)
  | failed (e : Error)
deriving DecidableEq, Repr

/-- The errors that end the import. -/
def Error.deterministic : Error → Bool
  | .protocol _ | .limit _ => true
  | _ => false

/-- The download, from the creation of the upload to its end. -/
def fetchPack (w : RemoteWorld) (d : PktDecoder)
    (digest : ObjFormat → List UInt8 → Option (List UInt8)) (fmt : ObjFormat)
    (stream : List (Except String (List UInt8))) : Fetched :=
  match w.request 0 with
  | .error e => .failed e
  | .ok () =>
    match fetchLoop w d fmt stream ⟨false, ⟨[], [], 1⟩, [], [], 0⟩ [] with
    | .error e => if e.deterministic then .rejected e.message else .failed e
    | .ok s =>
      if s.hold.length = fmt.width ∧ digest fmt s.hashed = some s.hold then
        match s.out.finish w with
        | .error e => .failed e
        | .ok object => .staged object s.total
      else .rejected "remote pack trailer mismatch"

/-! ## The answer of a remote -/

/-- A packet of the pack's section. -/
inductive Band where
  | pack (data : List UInt8)
  | progress (data : List UInt8)
deriving DecidableEq, Repr

namespace Band

def line : Band → List UInt8
  | pack data => 1 :: data
  | progress data => 2 :: data

def pkt (x : Band) : Pkt := .data x.line

/-- The bytes of the pack in a packet. -/
def bytes : Band → List UInt8
  | pack data => data
  | progress _ => []

end Band

/-- The pack that some packets hold. -/
def packOf (bands : List Band) : List UInt8 := bands.flatMap Band.bytes

/-- The bytes are an answer with these packets: any packets up to the line `packfile`, those of the
pack's section, a flush, and whatever follows. -/
def Answers (d : PktDecoder) (b : List UInt8) (bands : List Band) : Prop :=
  ∃ (lines : List Pkt) (rest : List (Except Error Pkt)), Pkt.data packfileLine ∉ lines ∧
    d.frames b = lines.map .ok ++ .ok (.data packfileLine) ::
      (bands.map (fun x => .ok x.pkt) ++ .ok .flush :: rest)

/-- A pack with its digest at the end. -/
def Intact (digest : ObjFormat → List UInt8 → Option (List UInt8)) (fmt : ObjFormat)
    (b : List UInt8) : Prop :=
  fmt.width ≤ b.length ∧
    digest fmt (b.take (b.length - fmt.width)) = some (b.drop (b.length - fmt.width))

/-- The first so many requests are served. -/
def Served (w : RemoteWorld) (n : ℕ) : Prop := ∀ i < n, w.request i = .ok ()

/-- The requests that stage so many bytes: the upload is created, each full part and a shorter last
one are uploaded, and the upload is completed. -/
def uploadRequests (n : ℕ) : ℕ := n / partBytes + (if n % partBytes = 0 then 0 else 1) + 2

/-! ## The requests -/

section

variable {w : RemoteWorld} {d : PktDecoder} {fmt : ObjFormat} {b data : List UInt8}

theorem partBytes_pos : 0 < partBytes := by decide

theorem Served.mono {m : ℕ} (h : Served w n) (hm : m ≤ n) : Served w m :=
  fun i hi => h i (hi.trans_le hm)

theorem served_succ : Served w (n + 1) ↔ Served w n ∧ w.request n = .ok () := by
  constructor
  · exact fun h => ⟨h.mono (Nat.le_succ n), h n (Nat.lt_succ_self n)⟩
  · rintro ⟨h, hn⟩ i hi
    rcases Nat.lt_succ_iff_lt_or_eq.mp hi with hi | rfl
    · exact h i hi
    · exact hn

/-- A request that is served is within the budget. -/
theorem Served.le (h : Served w n) : n ≤ sliceSubrequests := by
  cases n with
  | zero => exact Nat.zero_le _
  | succ n =>
    have hlast := h n (Nat.lt_succ_self n)
    rw [RemoteWorld.request] at hlast
    split_ifs at hlast with hover
    simp only [Bool.or_eq_true, decide_eq_true_eq, not_or, not_lt] at hover
    exact hover.1

/-- A request that fails does not end the import. -/
theorem request_error {e : Error} (h : w.request n = .error e) : e.deterministic = false := by
  rw [RemoteWorld.request] at h
  split_ifs at h with hover
  · cases h
    rfl
  · cases hanswer : w.answer n with
    | none =>
      rw [hanswer] at h
      cases h
    | some m =>
      rw [hanswer] at h
      cases h
      rfl

/-- A computation that makes the requests below `n`: it comes to a result with `P` if they are all
served, and to an error that does not end the import if not. -/
def Makes {α : Type} (w : RemoteWorld) (n : ℕ) (x : Except Error α) (P : α → Prop) : Prop :=
  (Served w n → ∃ a, x = .ok a ∧ P a) ∧
    (¬ Served w n → ∃ e, x = .error e ∧ e.deterministic = false)

/-! ## The writer -/

/-- The parts are full and uploaded, and the requests so far were served. -/
structure RawWriter.Filling (w : RemoteWorld) (o : RawWriter) (b : List UInt8) : Prop where
  bytes : o.parts.flatten ++ o.part = b
  full : ∀ p ∈ o.parts, p.length = partBytes
  used_eq : o.used = o.parts.length + 1
  served : Served w o.used

/-- The budget is spent before the part numbers are. -/
theorem RawWriter.put_eq {o : RawWriter} (hused : o.used = o.parts.length + 1)
    (hserved : Served w o.used) (chunk : List UInt8) : o.put w chunk =
      match w.request o.used with
      | .error e => .error e
      | .ok () => .ok { o with parts := o.parts ++ [chunk], used := o.used + 1 } := by
  have hle := hserved.le
  have hnum : ¬ maxU16 < o.parts.length + 1 := by
    unfold sliceSubrequests at hle
    unfold maxU16
    omega
  rw [RawWriter.put, if_neg hnum]

theorem RawWriter.makes_complete {o : RawWriter} (hserved : Served w o.used) :
    Makes w (o.used + 1) (o.complete w) (· = o.parts.flatten) := by
  rw [RawWriter.complete, Makes, served_succ]
  cases hreq : w.request o.used with
  | ok u => exact ⟨fun _ => ⟨_, rfl, rfl⟩, fun hnot => absurd ⟨hserved, rfl⟩ hnot⟩
  | error e => exact ⟨fun hs => absurd hs.2 (by simp), fun _ => ⟨e, rfl, request_error hreq⟩⟩

namespace RawWriter.Filling

variable {o : RawWriter}

theorem length_eq (h : o.Filling w b) : b.length = o.parts.length * partBytes + o.part.length := by
  have hsum : ∀ l : List (List UInt8), (∀ p ∈ l, p.length = partBytes) →
      l.flatten.length = l.length * partBytes := by
    intro l
    induction l with
    | nil => exact fun _ => rfl
    | cons p l ih =>
      intro hl
      rw [List.flatten_cons, List.length_append, hl p List.mem_cons_self,
        ih fun q hq => hl q (List.mem_cons_of_mem p hq), List.length_cons, Nat.succ_mul,
        Nat.add_comm]
  rw [← h.bytes, List.length_append, hsum o.parts h.full]

/-- The parts that are uploaded are the full ones. -/
theorem length_parts (h : o.Filling w b) (hpart : o.part.length < partBytes) :
    o.parts.length = b.length / partBytes := by
  rw [h.length_eq, Nat.add_comm, Nat.add_mul_div_right _ _ partBytes_pos, Nat.div_eq_of_lt hpart,
    Nat.zero_add]

theorem append (h : o.Filling w b) (data : List UInt8) :
    RawWriter.Filling w { o with part := o.part ++ data } (b ++ data) := by
  refine ⟨?_, h.full, h.used_eq, h.served⟩
  rw [← List.append_assoc, h.bytes]

/-- A round of the loop. -/
theorem put (h : o.Filling w b) (hpart : partBytes ≤ o.part.length)
    (hok : w.request o.used = .ok ()) :
    RawWriter.Filling w ⟨o.part.drop partBytes, o.parts ++ [o.part.take partBytes], o.used + 1⟩
      b := by
  constructor
  · rw [List.flatten_append, List.flatten_singleton, List.append_assoc, List.take_append_drop]
    exact h.bytes
  · intro p hp
    rcases List.mem_append.mp hp with hp | hp
    · exact h.full p hp
    · rw [List.mem_singleton.mp hp, List.length_take, Nat.min_eq_left hpart]
  · rw [h.used_eq, List.length_append, List.length_singleton]
  · exact served_succ.mpr ⟨h.served, hok⟩

/-- The loop uploads the full parts. -/
theorem flushLoop (h : o.Filling w b) (hn : o.part.length ≤ n) :
    Makes w (b.length / partBytes + 1) (RawWriter.flushLoop w n o)
      fun o' => o'.Filling w b ∧ o'.part.length < partBytes := by
  induction n generalizing o with
  | zero =>
    have hpart : o.part.length < partBytes := Nat.lt_of_le_of_lt hn partBytes_pos
    have hserved : Served w (b.length / partBytes + 1) := by
      rw [← h.length_parts hpart, ← h.used_eq]
      exact h.served
    exact ⟨fun _ => ⟨o, rfl, h, hpart⟩, fun hnot => absurd hserved hnot⟩
  | succ n ih =>
    rw [RawWriter.flushLoop]
    by_cases hpart : o.part.length < partBytes
    · rw [if_pos hpart]
      have hserved : Served w (b.length / partBytes + 1) := by
        rw [← h.length_parts hpart, ← h.used_eq]
        exact h.served
      exact ⟨fun _ => ⟨o, rfl, h, hpart⟩, fun hnot => absurd hserved hnot⟩
    · rw [if_neg hpart]
      have hpart : partBytes ≤ o.part.length := not_lt.mp hpart
      rw [RawWriter.put_eq (o := { o with part := o.part.drop partBytes }) h.used_eq h.served]
      dsimp only
      cases hreq : w.request o.used with
      | ok u =>
        cases u
        refine ih (h.put hpart hreq) ?_
        rw [List.length_drop]
        have := partBytes_pos
        omega
      | error e =>
        -- The part is one of those to be uploaded.
        have hmore : o.parts.length + 1 ≤ b.length / partBytes := by
          rw [Nat.le_div_iff_mul_le partBytes_pos, h.length_eq, Nat.succ_mul]
          omega
        have hused := h.used_eq
        refine ⟨fun hserved => ?_, fun _ => ⟨e, rfl, request_error hreq⟩⟩
        rw [hserved o.used (by omega)] at hreq
        cases hreq

/-- The end of the upload. -/
theorem finish (h : o.Filling w b) (hpart : o.part.length < partBytes) :
    Makes w (uploadRequests b.length) (o.finish w) (· = b) := by
  have hdiv := h.length_parts hpart
  have hmod : b.length % partBytes = o.part.length := by
    rw [h.length_eq, Nat.add_comm, Nat.add_mul_mod_self_right, Nat.mod_eq_of_lt hpart]
  have hused := h.used_eq
  unfold RawWriter.finish
  by_cases hnil : o.part = []
  · have hcount : uploadRequests b.length = o.used + 1 := by
      rw [uploadRequests, hmod, hnil, ← hdiv, hused]
      rfl
    have hbytes : o.parts.flatten = b := by
      rw [← h.bytes, hnil, List.append_nil]
    rw [if_pos hnil, hcount, ← hbytes]
    exact RawWriter.makes_complete h.served
  · have hne : ¬ o.part.length = 0 := fun hlen => hnil (List.length_eq_zero_iff.mp hlen)
    have hcount : uploadRequests b.length = o.used + 1 + 1 := by
      rw [uploadRequests, hmod, if_neg hne, ← hdiv, hused]
    have hbytes : (o.parts ++ [o.part]).flatten = b := by
      rw [List.flatten_append, List.flatten_singleton]
      exact h.bytes
    rw [if_neg hnil, RawWriter.put_eq (o := { o with part := [] }) h.used_eq h.served, hcount]
    dsimp only
    cases hreq : w.request o.used with
    | ok u =>
      rw [← hbytes]
      exact RawWriter.makes_complete (o := ⟨[], o.parts ++ [o.part], o.used + 1⟩)
        (served_succ.mpr ⟨h.served, hreq⟩)
    | error e =>
      refine ⟨fun hs => ?_, fun _ => ⟨e, rfl, request_error hreq⟩⟩
      rw [hs o.used (by omega)] at hreq
      cases hreq

end RawWriter.Filling

/-! ## The loop over the packets -/

/-- The variables of the loop after the bytes `b` of the pack. -/
structure Fetching.Staging (w : RemoteWorld) (fmt : ObjFormat) (s : Fetching) (b : List UInt8) :
    Prop where
  filling : s.out.Filling w b
  part_lt : s.out.part.length < partBytes
  hashed : s.hashed ++ s.hold = b
  /-- The last bytes are held back, as many as a digest has. -/
  hold_length : s.hold.length = min b.length fmt.width
  total_eq : s.total = b.length

/-- Bytes of the pack. -/
theorem Fetching.Staging.append {s : Fetching} (h : s.Staging w fmt b) (data : List UInt8) :
    Makes w ((b ++ data).length / partBytes + 1) (s.append w fmt data)
      fun s' => s'.in_pack = s.in_pack ∧ s'.Staging w fmt (b ++ data) := by
  have hflush := (h.filling.append data).flushLoop (le_refl _)
  have hlen : (s.hold ++ data).length = min b.length fmt.width + data.length := by
    rw [List.length_append, h.hold_length]
  rw [Fetching.append]
  dsimp only
  constructor
  · intro hserved
    obtain ⟨out, hout, hfilling, hpart⟩ := hflush.1 hserved
    rw [RawWriter.flushIfFull, hout]
    refine ⟨_, rfl, rfl, hfilling, hpart, ?_, ?_, ?_⟩
    · rw [List.append_assoc, List.take_append_drop, ← List.append_assoc, h.hashed]
    · rw [List.length_drop, hlen, List.length_append]
      omega
    · show s.total + data.length = _
      rw [List.length_append, h.total_eq]
  · intro hnot
    obtain ⟨e, he, hdet⟩ := hflush.2 hnot
    rw [RawWriter.flushIfFull, he]
    exact ⟨e, rfl, hdet⟩

/-- The packets of the pack's section. -/
theorem Fetching.Staging.bands {s : Fetching} (h : s.Staging w fmt b) (hin : s.in_pack = true)
    (bands : List Band) (l : List (Except Error Pkt)) :
    (Served w ((b ++ packOf bands).length / partBytes + 1) →
      ∃ s', s'.in_pack = true ∧ s'.Staging w fmt (b ++ packOf bands) ∧
        Decoder.runFrames (fetchPkt w fmt) s (bands.map (fun x => .ok x.pkt) ++ l) =
          Decoder.runFrames (fetchPkt w fmt) s' l) ∧
    (¬ Served w ((b ++ packOf bands).length / partBytes + 1) →
      ∃ e, Decoder.runFrames (fetchPkt w fmt) s (bands.map (fun x => .ok x.pkt) ++ l) = .error e ∧
        e.deterministic = false) := by
  induction bands generalizing s b with
  | nil =>
    have hserved : Served w ((b ++ packOf []).length / partBytes + 1) := by
      rw [packOf, List.flatMap_nil, List.append_nil, ← h.filling.length_parts h.part_lt,
        ← h.filling.used_eq]
      exact h.filling.served
    refine ⟨fun _ => ⟨s, hin, ?_, rfl⟩, fun hnot => absurd hserved hnot⟩
    rw [packOf, List.flatMap_nil, List.append_nil]
    exact h
  | cons x bands ih =>
    rw [List.map_cons, List.cons_append, Decoder.runFrames]
    cases x with
    | progress data =>
      have hpack : packOf (.progress data :: bands) = packOf bands := rfl
      have hstep : fetchPkt w fmt s (Band.progress data).pkt = .ok (.inl s) := by
        simp only [Band.pkt, Band.line, fetchPkt, hin]
        rfl
      rw [hpack, hstep]
      exact ih h hin
    | pack data =>
      have hpack : b ++ packOf (.pack data :: bands) = (b ++ data) ++ packOf bands := by
        rw [packOf, List.flatMap_cons, List.append_assoc]
        rfl
      have hstep : fetchPkt w fmt s (Band.pack data).pkt = (s.append w fmt data).map .inl := by
        simp only [Band.pkt, Band.line, fetchPkt, hin]
        rfl
      have happend := h.append data
      rw [hpack, hstep]
      by_cases hserved : Served w ((b ++ data).length / partBytes + 1)
      · obtain ⟨s', hs', hin', hstaging⟩ := happend.1 hserved
        rw [hs']
        exact ih hstaging (hin'.trans hin)
      · -- A request of this packet fails, and so not all of them are served.
        obtain ⟨e, he, hdet⟩ := happend.2 hserved
        have hle : (b ++ data).length / partBytes ≤ (b ++ data ++ packOf bands).length /
            partBytes := by
          refine Nat.div_le_div_right ?_
          have hlen : (b ++ data ++ packOf bands).length = (b ++ data).length +
              (packOf bands).length :=
            List.length_append
          omega
        rw [he]
        exact ⟨fun hs => absurd (hs.mono (Nat.succ_le_succ hle)) hserved, fun _ => ⟨e, rfl, hdet⟩⟩

/-- The packets before the pack leave the loop as it is. -/
theorem runFrames_lines {s : Fetching} (hin : s.in_pack = false) {lines : List Pkt}
    (hlines : Pkt.data packfileLine ∉ lines) (l : List (Except Error Pkt)) :
    Decoder.runFrames (fetchPkt w fmt) s (lines.map .ok ++ l) =
      Decoder.runFrames (fetchPkt w fmt) s l := by
  induction lines with
  | nil => rfl
  | cons p lines ih =>
    obtain ⟨hp, hlines⟩ := not_or.mp (mt List.mem_cons.mpr hlines)
    have hstep : fetchPkt w fmt s p = .ok (.inl s) := by
      cases p with
      | flush => simp [fetchPkt, hin]
      | delim => rfl
      | responseEnd => rfl
      | data line =>
        have hline : ¬ line = packfileLine := fun heq => hp (congrArg Pkt.data heq.symm)
        obtain ⟨in_pack, out, hashed, hold, total⟩ := s
        cases hin
        simp [fetchPkt, hline]
    rw [List.map_cons, List.cons_append, Decoder.runFrames, hstep]
    exact ih hlines

/-- The chunks do not matter. -/
theorem fetchLoop_eq (chunks : List (List UInt8)) (s : Fetching) (buf : List UInt8) :
    fetchLoop w d fmt (chunks.map .ok) s buf =
      match Decoder.runFrames (fetchPkt w fmt) s (d.frames (buf ++ chunks.flatten)) with
      | .error e => .error e
      | .ok (.inr s) => .ok s
      | .ok (.inl _) => .error (.protocol "remote stream ended mid-pack") := by
  rw [← Decoder.result_scan]
  induction chunks generalizing s buf with
  | nil =>
    rw [List.map_nil, List.flatten_nil, List.append_nil, fetchLoop]
    cases d.scan (fetchPkt w fmt) s buf <;> rfl
  | cons chunk chunks ih =>
    rw [List.map_cons, List.flatten_cons, fetchLoop, Decoder.scan_append]
    cases d.scan (fetchPkt w fmt) s buf with
    | failed e => rfl
    | done s' rest => rfl
    | more s' rest =>
      dsimp only [Decoder.Scan.append]
      rw [ih, List.append_assoc]

/-- The loop over an answer ends with the pack staged. -/
theorem makes_fetchLoop {chunks : List (List UInt8)} {bands : List Band}
    (h : Answers d chunks.flatten bands) (hcreate : w.request 0 = .ok ()) :
    Makes w ((packOf bands).length / partBytes + 1)
      (fetchLoop w d fmt (chunks.map .ok) ⟨false, ⟨[], [], 1⟩, [], [], 0⟩ [])
      fun s => s.Staging w fmt (packOf bands) := by
  obtain ⟨lines, rest, hlines, hframes⟩ := h
  have hserved : Served w 1 := served_succ.mpr ⟨fun i hi => absurd hi (Nat.not_lt_zero i), hcreate⟩
  have hstart : Fetching.Staging w fmt ⟨true, ⟨[], [], 1⟩, [], [], 0⟩ [] :=
    ⟨⟨rfl, fun p hp => absurd hp List.not_mem_nil, rfl, hserved⟩, partBytes_pos, rfl,
      (Nat.zero_min _).symm, rfl⟩
  have hbands := hstart.bands rfl bands (.ok .flush :: rest)
  rw [List.nil_append] at hbands
  have hline : Decoder.runFrames (fetchPkt w fmt) ⟨false, ⟨[], [], 1⟩, [], [], 0⟩
      (.ok (.data packfileLine) :: (bands.map (fun x => .ok x.pkt) ++ .ok .flush :: rest)) =
      Decoder.runFrames (fetchPkt w fmt) ⟨true, ⟨[], [], 1⟩, [], [], 0⟩
        (bands.map (fun x => .ok x.pkt) ++ .ok .flush :: rest) := rfl
  rw [fetchLoop_eq, List.nil_append, hframes, runFrames_lines rfl hlines, hline]
  constructor
  · intro hs
    obtain ⟨s, hin, hstaging, hrun⟩ := hbands.1 hs
    refine ⟨s, ?_, hstaging⟩
    rw [hrun, Decoder.runFrames, fetchPkt, hin]
    rfl
  · intro hs
    obtain ⟨e, hrun, hdet⟩ := hbands.2 hs
    exact ⟨e, by rw [hrun], hdet⟩

/-- The test at the end of the loop is that of the whole pack. -/
theorem Fetching.Staging.intact_iff {s : Fetching} (h : s.Staging w fmt b) :
    (s.hold.length = fmt.width ∧ digest fmt s.hashed = some s.hold) ↔ Intact digest fmt b := by
  have hhold := h.hold_length
  have hlen : b.length = s.hashed.length + s.hold.length := by
    rw [← h.hashed, List.length_append]
  have hsplit : s.hold.length = fmt.width →
      b.take (b.length - fmt.width) = s.hashed ∧ b.drop (b.length - fmt.width) = s.hold := by
    intro hwidth
    have hcut : b.length - fmt.width = s.hashed.length := by omega
    rw [hcut, ← h.hashed]
    exact ⟨List.take_left, List.drop_left⟩
  constructor
  · rintro ⟨hwidth, hdigest⟩
    obtain ⟨htake, hdrop⟩ := hsplit hwidth
    refine ⟨by omega, ?_⟩
    rw [htake, hdrop]
    exact hdigest
  · rintro ⟨hle, hdigest⟩
    have hwidth : s.hold.length = fmt.width := by omega
    obtain ⟨htake, hdrop⟩ := hsplit hwidth
    rw [htake, hdrop] at hdigest
    exact ⟨hwidth, hdigest⟩

/-- What a slice does with an answer. -/
theorem fetchPack_cases (w : RemoteWorld)
    (digest : ObjFormat → List UInt8 → Option (List UInt8)) (fmt : ObjFormat)
    {chunks : List (List UInt8)} {bands : List Band} (h : Answers d chunks.flatten bands) :
    (Served w (uploadRequests (packOf bands).length) ∧ Intact digest fmt (packOf bands) ∧
      fetchPack w d digest fmt (chunks.map .ok) = .staged (packOf bands) (packOf bands).length) ∨
    (Served w ((packOf bands).length / partBytes + 1) ∧ ¬ Intact digest fmt (packOf bands) ∧
      fetchPack w d digest fmt (chunks.map .ok) = .rejected "remote pack trailer mismatch") ∨
    (¬ Served w (uploadRequests (packOf bands).length) ∧ Intact digest fmt (packOf bands) ∧
      ∃ e, fetchPack w d digest fmt (chunks.map .ok) = .failed e) ∨
    (¬ Served w ((packOf bands).length / partBytes + 1) ∧
      ∃ e, fetchPack w d digest fmt (chunks.map .ok) = .failed e) := by
  have hless : (packOf bands).length / partBytes + 1 ≤ uploadRequests (packOf bands).length := by
    rw [uploadRequests]
    omega
  rw [fetchPack]
  cases hcreate : w.request 0 with
  | error e =>
    have hnot : ¬ Served w ((packOf bands).length / partBytes + 1) := fun hs => by
      rw [hs 0 (Nat.succ_pos _)] at hcreate
      cases hcreate
    exact .inr (.inr (.inr ⟨hnot, e, rfl⟩))
  | ok u =>
    have hloop : Makes w ((packOf bands).length / partBytes + 1)
      (fetchLoop w d fmt (chunks.map .ok) ⟨false, ⟨[], [], 1⟩, [], [], 0⟩ [])
      fun s => s.Staging w fmt (packOf bands) := makes_fetchLoop h hcreate
    dsimp only
    by_cases hserved : Served w ((packOf bands).length / partBytes + 1)
    · obtain ⟨s, hs, hstaging⟩ := hloop.1 hserved
      rw [hs]
      dsimp only
      by_cases hintact : Intact digest fmt (packOf bands)
      · rw [if_pos (hstaging.intact_iff.mpr hintact)]
        have hfinish := hstaging.filling.finish hstaging.part_lt
        by_cases hall : Served w (uploadRequests (packOf bands).length)
        · obtain ⟨object, hobject, rfl⟩ := hfinish.1 hall
          rw [hobject, hstaging.total_eq]
          exact .inl ⟨hall, hintact, rfl⟩
        · obtain ⟨e, he, -⟩ := hfinish.2 hall
          rw [he]
          exact .inr (.inr (.inl ⟨hall, hintact, e, rfl⟩))
      · rw [if_neg (mt hstaging.intact_iff.mp hintact)]
        exact .inr (.inl ⟨hserved, hintact, rfl⟩)
    · obtain ⟨e, he, hdet⟩ := hloop.2 hserved
      rw [he]
      dsimp only
      rw [hdet]
      exact .inr (.inr (.inr ⟨hserved, e, rfl⟩))

/-- However the packets and the chunks are cut, the pack is accepted exactly if it is intact and the
requests of its upload are served, and what is staged are the bytes of band 1. It is rejected only
if it is not intact. -/
theorem remote_pack_exact (w : RemoteWorld) (d : PktDecoder)
    (digest : ObjFormat → List UInt8 → Option (List UInt8)) (fmt : ObjFormat)
    (chunks : List (List UInt8)) (bands : List Band) (h : Answers d chunks.flatten bands) :
    ((∃ object bytes, fetchPack w d digest fmt (chunks.map .ok) = .staged object bytes) ↔
      Intact digest fmt (packOf bands) ∧ Served w (uploadRequests (packOf bands).length)) ∧
    (∀ object bytes, fetchPack w d digest fmt (chunks.map .ok) = .staged object bytes →
      object = packOf bands ∧ bytes = (packOf bands).length) ∧
    ((∃ why, fetchPack w d digest fmt (chunks.map .ok) = .rejected why) ↔
      ¬ Intact digest fmt (packOf bands) ∧ Served w ((packOf bands).length / partBytes + 1)) := by
  have hless : (packOf bands).length / partBytes + 1 ≤ uploadRequests (packOf bands).length := by
    rw [uploadRequests]
    omega
  rcases fetchPack_cases w digest fmt h with
    ⟨hs, hi, heq⟩ | ⟨hs, hi, heq⟩ | ⟨hs, hi, e, heq⟩ | ⟨hs, e, heq⟩
  · simp [heq, hs, hi]
  · simp [heq, hs, hi]
  · simp [heq, hs, hi]
  · have hall : ¬ Served w (uploadRequests (packOf bands).length) := fun h => hs (h.mono hless)
    simp [heq, hs, hall]

/-! ## Answers as bytes -/

/-- The bytes of an answer. -/
def answerBytes (bands : List Band) : List UInt8 :=
  encodeData packfileLine ++
    (bands.flatMap (fun x => encodeData x.line) ++ [0x30, 0x30, 0x30, 0x30])

theorem answers_answerBytes {bands : List Band} (h : ∀ x ∈ bands, x.line.length + 4 ≤ maxLine) :
    Answers pktLine (answerBytes bands) bands := by
  have hflush : pktLine.decode [0x30, 0x30, 0x30, 0x30] = .ok (some (.flush, 4)) := by decide
  have hbands : ∀ c, pktLine.frames (bands.flatMap (fun x => encodeData x.line) ++ c) =
      bands.map (fun x => .ok x.pkt) ++ pktLine.frames c := by
    intro c
    induction bands with
    | nil => rfl
    | cons x bands ih =>
      have hne : x.line ≠ [] := by cases x <;> exact List.cons_ne_nil _ _
      rw [List.flatMap_cons, List.append_assoc,
        Decoder.frames_of_decode (decode_encodeData hne (h x List.mem_cons_self)),
        ih fun y hy => h y (List.mem_cons_of_mem x hy)]
      rfl
  refine ⟨[], [], List.not_mem_nil, ?_⟩
  rw [answerBytes, Decoder.frames_of_decode (decode_encodeData (by decide) (by decide)), hbands,
    Decoder.frames_eq, hflush]
  rfl

/-- A bucket that answers every request in time. -/
def promptly : RemoteWorld := ⟨fun _ => false, fun _ => none⟩

theorem served_promptly (h : n ≤ sliceSubrequests) : Served promptly n := by
  intro i hi
  rw [RemoteWorld.request, if_neg]
  · rfl
  · simp only [promptly, Bool.or_false, decide_eq_true_eq, not_lt]
    omega

/-- Bytes followed by their digest are an intact pack. -/
theorem intact_append {fmt : ObjFormat} {b d : List UInt8} (h : digest fmt b = some d)
    (hd : d.length = fmt.width) : Intact digest fmt (b ++ d) := by
  have hlen : (b ++ d).length - fmt.width = b.length := by
    rw [List.length_append]
    omega
  refine ⟨by rw [List.length_append]; omega, ?_⟩
  rw [hlen, List.take_left, List.drop_left]
  exact h

/-- The digest of nothing in two packets, with a progress packet between them. -/
def smallBands : List Band :=
  [.pack ((digestOf .sha1 []).take 15), .progress [0x31], .pack ((digestOf .sha1 []).drop 15)]

/-- Its answer, cut inside the first line of the pack. -/
theorem remote_pack_exact_small :
    fetchPack promptly pktLine storedLib.digest .sha1
      (([(answerBytes smallBands).take 20, (answerBytes smallBands).drop 20]).map .ok) =
        .staged (digestOf .sha1 []) 20 := by
  have hanswers : Answers pktLine
      [(answerBytes smallBands).take 20, (answerBytes smallBands).drop 20].flatten smallBands := by
    rw [List.flatten_cons, List.flatten_singleton, List.take_append_drop]
    exact answers_answerBytes (by decide +kernel)
  have hpack : packOf smallBands = [] ++ digestOf .sha1 [] := by
    simp [packOf, smallBands, Band.bytes]
  have hlen : (digestOf .sha1 []).length = 20 := length_digestOf .sha1 []
  have hintact : Intact storedLib.digest .sha1 (packOf smallBands) := by
    rw [hpack]
    exact intact_append (storedLib_digest .sha1 []) hlen
  obtain ⟨hiff, hstaged, -⟩ :=
    remote_pack_exact promptly pktLine storedLib.digest .sha1 _ _ hanswers
  have hserved : Served promptly (uploadRequests (packOf smallBands).length) := by
    rw [hpack, List.nil_append, hlen]
    exact served_promptly (by decide)
  obtain ⟨object, bytes, heq⟩ := hiff.mpr ⟨hintact, hserved⟩
  obtain ⟨rfl, rfl⟩ := hstaged object bytes heq
  rw [heq, hpack, List.nil_append, hlen]

/-- So many packets of zeros, each as long as a line can be, and a last one. -/
def longBands (m : ℕ) (d : List UInt8) : List Band :=
  List.replicate m (.pack (List.replicate 65515 0)) ++ [.pack d]

theorem packOf_longBands (m : ℕ) (d : List UInt8) :
    packOf (longBands m d) = List.replicate (m * 65515) 0 ++ d := by
  induction m with
  | zero => exact List.append_nil d
  | succ m ih =>
    have hcons : packOf (longBands (m + 1) d) =
      List.replicate 65515 0 ++ packOf (longBands m d) := rfl
    rw [hcons, ih, ← List.append_assoc, List.replicate_append_replicate, Nat.succ_mul, Nat.add_comm]

/-- An intact pack of more than 400 parts, zeros and their digest, is not accepted, though every
request is answered. -/
theorem longBands_not_accepted {d : List UInt8}
    (hd : digest .sha1 (List.replicate (60000 * 65515) 0) = some d) (hlen : d.length = 20) :
    Answers pktLine [answerBytes (longBands 60000 d)].flatten (longBands 60000 d) ∧
    Intact digest .sha1 (packOf (longBands 60000 d)) ∧
    ¬ ∃ object bytes, fetchPack promptly pktLine digest .sha1
      ([answerBytes (longBands 60000 d)].map .ok) = .staged object bytes := by
  have hlines : ∀ x ∈ longBands 60000 d, x.line.length + 4 ≤ maxLine := by
    intro x hx
    rcases List.mem_append.mp hx with hx | hx
    · rw [List.eq_of_mem_replicate hx, Band.line, List.length_cons, List.length_replicate]
      decide
    · rw [List.mem_singleton.mp hx, Band.line, List.length_cons, hlen]
      decide
  have hanswers : Answers pktLine [answerBytes (longBands 60000 d)].flatten (longBands 60000 d) := by
    rw [List.flatten_singleton]
    exact answers_answerBytes hlines
  have hintact : Intact digest .sha1 (packOf (longBands 60000 d)) := by
    rw [packOf_longBands]
    exact intact_append hd hlen
  have hbudget : ¬ Served promptly (uploadRequests (packOf (longBands 60000 d)).length) := by
    intro hs
    have hle := hs.le
    rw [packOf_longBands, List.length_append, List.length_replicate, hlen] at hle
    revert hle
    decide
  refine ⟨hanswers, hintact, ?_⟩
  rintro ⟨object, bytes, hstaged⟩
  rcases fetchPack_cases promptly digest .sha1 hanswers with
    ⟨hs, -, -⟩ | ⟨-, hnot, -⟩ | ⟨-, -, e, heq⟩ | ⟨-, e, heq⟩
  · exact hbudget hs
  · exact hnot hintact
  · rw [heq] at hstaged
    cases hstaged
  · rw [heq] at hstaged
    cases hstaged

/-- The SHA-1 of the zeros. -/
def zerosDigest : List UInt8 := digestOf .sha1 (List.replicate (60000 * 65515) 0)

theorem zeroBands_not_accepted :
    Answers pktLine [answerBytes (longBands 60000 zerosDigest)].flatten (longBands 60000 zerosDigest) ∧
    Intact storedLib.digest .sha1 (packOf (longBands 60000 zerosDigest)) ∧
    ¬ ∃ object bytes, fetchPack promptly pktLine storedLib.digest .sha1
      ([answerBytes (longBands 60000 zerosDigest)].map .ok) = .staged object bytes :=
  longBands_not_accepted (storedLib_digest .sha1 _) (length_digestOf .sha1 _)

end

end GitEdge
