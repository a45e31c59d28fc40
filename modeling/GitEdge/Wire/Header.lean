import GitEdge.Wire.PktLine
import GitEdge.Wire.Upload

/-!
# Reading the receive header

`receive_header` of `edge/mod.rs` gathers bytes of the request until `parse_receive_header` finds
the flush, and puts back what it gathered beyond it. Every round parses all that was gathered so far
from its beginning, so the header itself does not depend on where the body is cut. The cap of 1 MiB
does: it is applied to all that was gathered, the beginning of the pack included.
-/

namespace GitEdge

section

variable (d : PktDecoder) (from_hex : List UInt8 → Option Oid)

/-! ## The loop -/

/-- The loop of `receive_header`, with a bound on its rounds: the header, the bytes that are put
back, and the reader. -/
def receiveLoop : ℕ → List UInt8 → BodyReader →
    Except Error (ReceiveHeader × List UInt8 × BodyReader)
  | 0, _, _ => .error (.protocol "truncated receive header")
  | n + 1, gathered, body =>
    match parseReceiveHeader from_hex d gathered with
    | .failed e => .error e
    | .done h rest => .ok (h, rest, body)
    | .more _ _ =>
      let body := body.fill fillStep
      if body.buf = [] then .error (.protocol "truncated receive header")
      else
        let gathered := gathered ++ body.buf
        let body := body.consume body.buf.length
        if cmdCap < gathered.length then .error (.protocol "receive header > 1 MiB")
        else receiveLoop n gathered body

/-- `receive_header`. Every round but the last takes a chunk. -/
def receiveHeader (body : BodyReader) : Except Error (ReceiveHeader × List UInt8 × BodyReader) :=
  receiveLoop d from_hex (body.stream.length + 2) [] body

/-- A body whose command section is within the cap is read as it is, however it is cut: the header
is that of the whole body, and what is put back and what is left are what follows the flush. -/
def HeaderExact (chunks : List (List UInt8)) : Prop :=
  ∀ h rest, parseReceiveHeader from_hex d chunks.flatten = .done h rest →
    chunks.flatten.length - rest.length ≤ cmdCap →
    ∃ back body, receiveHeader d from_hex ⟨chunks, [], 0⟩ = .ok (h, back, body) ∧
      back ++ body.left = rest

/-- The bytes that are gathered until there are `need` of them, from so many gathered and so many in
the reader's buffer. The chunks are given by their lengths. -/
def gather (need : ℕ) : ℕ → ℕ → List ℕ → ℕ
  | gathered, buffered, [] => gathered + buffered
  | gathered, buffered, c :: cs =>
    if fillStep ≤ buffered then
      if need ≤ gathered + buffered then gathered + buffered
      else gather need (gathered + buffered) c cs
    else gather need gathered (buffered + c) cs

/-- The round that completes the command section gathers no more than the cap. -/
def GathersWithin (chunks : List (List UInt8)) : Prop :=
  ∀ h rest, parseReceiveHeader from_hex d chunks.flatten = .done h rest →
    chunks.flatten.length - rest.length ≤ cmdCap →
    gather (chunks.flatten.length - rest.length) 0 0 (chunks.map List.length) ≤ cmdCap

end

/-! ## Filling -/

section Fill

variable {stream : List (List UInt8)} {buf : List UInt8} {need gathered total : ℕ}

/-- A fill ends with the stream or with a full buffer. -/
theorem fillLoop_full (min : ℕ) (stream : List (List UInt8)) (buf : List UInt8) (total : ℕ) :
    (BodyReader.fillLoop min stream buf total).stream = [] ∨
      min ≤ (BodyReader.fillLoop min stream buf total).buf.length := by
  induction stream generalizing buf total with
  | nil => exact .inl rfl
  | cons chunk stream ih =>
    rw [BodyReader.fillLoop]
    split_ifs with h
    · exact ih _ _
    · exact .inr (not_lt.mp h)

theorem fillLoop_length (min : ℕ) (stream : List (List UInt8)) (buf : List UInt8) (total : ℕ)
    (hbuf : buf.length < min) :
    (BodyReader.fillLoop min stream buf total).stream.length ≤ stream.length - 1 := by
  have hle : ∀ (stream : List (List UInt8)) (buf : List UInt8) (total : ℕ),
      (BodyReader.fillLoop min stream buf total).stream.length ≤ stream.length := by
    intro stream
    induction stream with
    | nil => exact fun _ _ => le_refl _
    | cons chunk stream ih =>
      intro buf total
      rw [BodyReader.fillLoop]
      split_ifs
      · exact (ih _ _).trans (Nat.le_succ _)
      · exact le_refl _
  cases stream with
  | nil => exact le_refl _
  | cons chunk stream =>
    rw [BodyReader.fillLoop, if_pos hbuf]
    exact hle stream _ _

/-- A fill does not change what is gathered. -/
theorem gather_fillLoop (stream : List (List UInt8)) (buf : List UInt8) (total : ℕ) :
    gather need gathered buf.length (stream.map List.length) =
      gather need gathered (BodyReader.fillLoop fillStep stream buf total).buf.length
        ((BodyReader.fillLoop fillStep stream buf total).stream.map List.length) := by
  induction stream generalizing buf total with
  | nil => rfl
  | cons chunk stream ih =>
    rw [BodyReader.fillLoop]
    split_ifs with h
    · rw [← ih (buf ++ chunk), List.map_cons, gather, if_neg (not_le.mpr h), List.length_append]
    · rfl

/-- A full buffer, or the last one, ends a round. -/
theorem gather_round {buffered : ℕ} {cs : List ℕ} (h : cs = [] ∨ fillStep ≤ buffered) :
    gather need gathered buffered cs =
      if need ≤ gathered + buffered then gathered + buffered
      else gather need (gathered + buffered) 0 cs := by
  cases cs with
  | nil =>
    rw [gather, gather]
    split_ifs <;> rfl
  | cons c cs =>
    have hfull := h.resolve_left (List.cons_ne_nil c cs)
    have hzero : ¬ fillStep ≤ 0 := by
      unfold fillStep
      omega
    rw [gather, if_pos hfull, gather, if_neg hzero, Nat.zero_add]

end Fill

/-! ## Chunks -/

section Chunks

variable {d : PktDecoder} {from_hex : List UInt8 → Option Oid} {b : List UInt8} {h : ReceiveHeader}
  {rest : List UInt8}

/-- Of a body with a header, a beginning without the whole command section needs more bytes, and one
with it has the header. -/
theorem parseReceiveHeader_front (hscan : parseReceiveHeader from_hex d b = .done h rest) {front back : List UInt8}
    (hb : front ++ back = b) :
    (front.length < b.length - rest.length ∧ ∃ s left, parseReceiveHeader from_hex d front = .more s left) ∨
      (b.length - rest.length ≤ front.length ∧
        ∃ left, parseReceiveHeader from_hex d front = .done h left ∧ left ++ back = rest) := by
  have happend := Decoder.scan_append (d := d) (f := headerStep from_hex)
    (⟨[], .none, []⟩ : ReceiveHeader) front back
  rw [hb] at happend
  have hdone := happend.symm.trans hscan
  have hlen : b.length = front.length + back.length := by
    rw [← hb, List.length_append]
  cases hfront : parseReceiveHeader from_hex d front with
  | failed e =>
    rw [parseReceiveHeader] at hfront
    rw [hfront] at hdone
    cases hdone
  | more s left =>
    rw [parseReceiveHeader] at hfront
    rw [hfront] at hdone
    have := Decoder.length_of_more_done hfront hdone
    exact .inl ⟨by omega, s, left, rfl⟩
  | done h' left =>
    rw [parseReceiveHeader] at hfront
    rw [hfront] at hdone
    cases hdone
    refine .inr ⟨?_, left, rfl, rfl⟩
    rw [List.length_append]
    omega

/-- The loop from a beginning of the body on: it succeeds exactly if the round that completes the
command section is within the cap. -/
theorem receiveLoop_iff (hscan : parseReceiveHeader from_hex d b = .done h rest)
    (hsection : b.length - rest.length ≤ cmdCap) {n : ℕ} {gathered : List UInt8}
    {stream : List (List UInt8)} {total : ℕ} (hn : stream.length + 2 ≤ n)
    (hb : gathered ++ stream.flatten = b) (hgathered : gathered.length ≤ cmdCap) :
    (∃ back body, receiveLoop d from_hex n gathered ⟨stream, [], total⟩ = .ok (h, back, body) ∧
      back ++ body.left = rest) ↔
      (b.length - rest.length ≤ gathered.length ∨
        gather (b.length - rest.length) gathered.length 0 (stream.map List.length) ≤ cmdCap) := by
  induction n generalizing gathered stream total with
  | zero => omega
  | succ n ih =>
    rw [receiveLoop]
    rcases parseReceiveHeader_front hscan hb with ⟨hshort, s, left, hmore⟩ | ⟨hlong, left, hdone, hleft⟩
    · rw [hmore]
      dsimp only
      set body := BodyReader.fill fillStep ⟨stream, [], total⟩ with hbody
      have hleft : body.left = stream.flatten := by
        rw [hbody, BodyReader.fill, BodyReader.fillLoop_left, List.nil_append]
      have hsplit : body.buf ++ body.stream.flatten = stream.flatten := hleft
      have hfull : body.stream = [] ∨ fillStep ≤ body.buf.length :=
        fillLoop_full fillStep stream [] total
      have hgather : gather (b.length - rest.length) gathered.length 0 (stream.map List.length) =
          gather (b.length - rest.length) gathered.length body.buf.length
            (body.stream.map List.length) := gather_fillLoop stream [] total
      have hzero : ¬ fillStep ≤ 0 := by
        unfold fillStep
        omega
      -- The section is not complete, so there are bytes left to read.
      have hne : body.buf ≠ [] := by
        intro hnil
        rcases hfull with hend | hfull
        · rw [hnil, hend] at hsplit
          have hall : gathered = b := by
            rw [← hb, ← hsplit]
            simp
          rw [hall] at hshort
          omega
        · rw [hnil] at hfull
          exact hzero hfull
      have hround : gather (b.length - rest.length) gathered.length body.buf.length
          (body.stream.map List.length) =
          if b.length - rest.length ≤ (gathered ++ body.buf).length then
            (gathered ++ body.buf).length
          else gather (b.length - rest.length) (gathered ++ body.buf).length 0
            (body.stream.map List.length) := by
        rw [gather_round (hfull.imp (fun hend => by rw [hend]; rfl) id), List.length_append]
      rw [if_neg hne, hgather, hround]
      by_cases hover : cmdCap < (gathered ++ body.buf).length
      · rw [if_pos hover]
        have hneed : b.length - rest.length ≤ (gathered ++ body.buf).length := by omega
        rw [if_pos hneed]
        constructor
        · rintro ⟨back, body', heq, -⟩
          cases heq
        · rintro (hle | hle) <;> omega
      · rw [if_neg hover]
        have hcut : (body.consume body.buf.length) = ⟨body.stream, [], body.total⟩ := by
          rw [BodyReader.consume, List.drop_length]
        have hstream : body.stream.length ≤ stream.length - 1 :=
          fillLoop_length fillStep stream [] total (not_le.mp hzero)
        -- A round that took bytes took a chunk.
        have hsome : stream ≠ [] := by
          rintro rfl
          rw [List.flatten_nil] at hsplit
          exact hne (List.append_eq_nil_iff.mp hsplit).1
        have hpos := List.length_pos_iff.mpr hsome
        rw [hcut, ih (by omega) (by rw [List.append_assoc, hsplit]; exact hb) (not_lt.mp hover)]
        by_cases hneed : b.length - rest.length ≤ (gathered ++ body.buf).length
        · rw [if_pos hneed]
          exact ⟨fun _ => .inr (not_lt.mp hover), fun _ => .inl hneed⟩
        · rw [if_neg hneed]
          constructor
          · rintro (hle | hle)
            · exact absurd hle hneed
            · exact .inr hle
          · rintro (hle | hle)
            · omega
            · exact .inr hle
    · rw [hdone]
      exact ⟨fun _ => .inl hlong, fun _ => ⟨left, _, rfl, hleft⟩⟩

/-- The header does not depend on how the body is cut exactly if the round that completes the
command section gathers no more than the cap. -/
theorem header_exact_iff (d : PktDecoder) (from_hex : List UInt8 → Option Oid)
    (chunks : List (List UInt8)) :
    HeaderExact d from_hex chunks ↔ GathersWithin d from_hex chunks := by
  have hloop : ∀ h rest, parseReceiveHeader from_hex d chunks.flatten = .done h rest →
      chunks.flatten.length - rest.length ≤ cmdCap →
      ((∃ back body, receiveHeader d from_hex ⟨chunks, [], 0⟩ = .ok (h, back, body) ∧
        back ++ body.left = rest) ↔
        gather (chunks.flatten.length - rest.length) 0 0 (chunks.map List.length) ≤ cmdCap) := by
    intro h rest hscan hsection
    have hiff : (∃ back body, receiveLoop d from_hex (chunks.length + 2) [] ⟨chunks, [], 0⟩ =
        .ok (h, back, body) ∧ back ++ body.left = rest) ↔ _ :=
      receiveLoop_iff hscan hsection (le_refl _) rfl (Nat.zero_le _)
    rw [receiveHeader, hiff]
    constructor
    · rintro (hle | hle)
      · -- A header is never empty.
        rcases parseReceiveHeader_front hscan (List.nil_append _) with ⟨hpos, -⟩ | ⟨-, left, hdone, -⟩
        · rw [List.length_nil] at hle hpos
          omega
        · exfalso
          rw [parseReceiveHeader, Decoder.scan_eq] at hdone
          cases hd : d.decode [] with
          | error e =>
            rw [hd] at hdone
            cases hdone
          | ok o =>
            cases o with
            | none =>
              rw [hd] at hdone
              cases hdone
            | some pk =>
              obtain ⟨hpos, hlen⟩ := d.pos hd
              rw [List.length_nil] at hlen
              omega
      · exact hle
    · exact .inr
  exact forall₄_congr fun h rest hscan hsection => hloop h rest hscan hsection

end Chunks

/-! ## A small header before a large pack -/

/-- A flush, and so many bytes of a pack in the same chunk. -/
def packBehind (n : ℕ) : List UInt8 := [0x30, 0x30, 0x30, 0x30] ++ List.replicate n 0

/-- The command section is four bytes long. -/
theorem parseReceiveHeader_packBehind (from_hex : List UInt8 → Option Oid) (n : ℕ) :
    parseReceiveHeader from_hex pktLine (packBehind n) = .done ⟨[], .none, []⟩ (List.replicate n 0) := by
  have hflush : pktLine.decode [0x30, 0x30, 0x30, 0x30] = .ok (some (.flush, 4)) := by decide
  rw [parseReceiveHeader, Decoder.scan_eq, packBehind, pktLine.stable _ hflush]
  rfl

theorem length_packBehind (n : ℕ) : (packBehind n).length = n + 4 := by
  rw [packBehind, List.length_append, List.length_replicate, Nat.add_comm]
  rfl

/-- The first fill takes the whole chunk, and the cap is applied to it. -/
theorem receiveHeader_packBehind (from_hex : List UInt8 → Option Oid) {n : ℕ}
    (hn : cmdCap < n + 4) :
    receiveHeader pktLine from_hex ⟨[packBehind n], [], 0⟩ =
      .error (.protocol "receive header > 1 MiB") := by
  have hnone : parseReceiveHeader from_hex pktLine [] = .more ⟨[], .none, []⟩ [] := by
    rw [parseReceiveHeader, Decoder.scan_eq]
    rfl
  have hzero : ([] : List UInt8).length < fillStep := by decide
  have hfill : BodyReader.fill fillStep ⟨[packBehind n], [], 0⟩ =
      ⟨[], packBehind n, 0 + (packBehind n).length⟩ := by
    rw [BodyReader.fill, BodyReader.fillLoop, if_pos hzero, BodyReader.fillLoop, List.nil_append]
  have hne : packBehind n ≠ [] := List.cons_ne_nil _ _
  have hover : cmdCap < ([] ++ packBehind n).length := by
    rw [List.nil_append, length_packBehind]
    exact hn
  rw [receiveHeader, receiveLoop, hnone]
  dsimp only
  rw [hfill, if_neg hne, if_pos hover]

/-- A pack of 1 MiB behind the flush, in the same chunk. -/
theorem packBehind_not_exact :
    ¬ HeaderExact pktLine (fun _ => none) [packBehind (2 ^ 20)] := by
  intro hexact
  have hflat : [packBehind (2 ^ 20)].flatten = packBehind (2 ^ 20) := by
    rw [List.flatten_cons, List.flatten_nil, List.append_nil]
  have hsection : [packBehind (2 ^ 20)].flatten.length -
      (List.replicate (2 ^ 20) (0 : UInt8)).length ≤ cmdCap := by
    rw [hflat, length_packBehind, List.length_replicate, cmdCap]
    omega
  obtain ⟨back, body, hok, -⟩ := hexact _ _
    ((congrArg _ hflat).trans (parseReceiveHeader_packBehind _ _)) hsection
  rw [receiveHeader_packBehind _ (by rw [cmdCap]; omega)] at hok
  cases hok

end GitEdge
