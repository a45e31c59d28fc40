import GitEdge.Wire.Receive

/-!
# Packet lines

The decoder behind `PktReader::next` of `wire/mod.rs` is that of the packet-line library. What is
used of it are the laws of `Decoder`: a line is found, refused or waited for by its own bytes alone.
`pktLine` is a decoder of the format with these laws: four hexadecimal digits of length, of which
the first four numbers are the flush, the delimiter, the end of a response and an error; a line
without data is refused.
-/

namespace GitEdge

/-- The value of a hexadecimal digit. -/
def hexValue (b : UInt8) : Option ℕ :=
  if 0x30 ≤ b.toNat ∧ b.toNat ≤ 0x39 then some (b.toNat - 0x30)
  else if 0x61 ≤ b.toNat ∧ b.toNat ≤ 0x66 then some (b.toNat - 0x57)
  else if 0x41 ≤ b.toNat ∧ b.toNat ≤ 0x46 then some (b.toNat - 0x37)
  else none

/-- The length that four digits stand for. -/
def pktLength (b : List UInt8) : Option ℕ :=
  ((b.take 4).mapM hexValue).map fun ds => ds.foldl (fun n d => 16 * n + d) 0

/-- The longest line, with its length. -/
def maxLine : ℕ := 65520

/-- The line with a length that is given. -/
def pktBody (b : List UInt8) (n : ℕ) : Except Error (Option (Pkt × ℕ)) :=
  if n = 0 then .ok (some (.flush, 4))
  else if n = 1 then .ok (some (.delim, 4))
  else if n = 2 then .ok (some (.responseEnd, 4))
  else if n ≤ 4 then .error (.protocol "pkt-line: no data")
  else if maxLine < n then .error (.protocol "pkt-line: line too long")
  else if b.length < n then .ok none
  else .ok (some (.data ((b.take n).drop 4), n))

/-- The first packet line. -/
def decodePkt (b : List UInt8) : Except Error (Option (Pkt × ℕ)) :=
  if b.length < 4 then .ok none
  else
    match pktLength b with
    | none => .error (.protocol "pkt-line: invalid length")
    | some n => pktBody b n

theorem pktLength_append {b : List UInt8} (h : 4 ≤ b.length) (c : List UInt8) :
    pktLength (b ++ c) = pktLength b := by
  rw [pktLength, List.take_append_of_le_length h, pktLength]

/-- More bytes change a line only if it goes past those that are there. -/
theorem pktBody_append (b c : List UInt8) (n : ℕ) :
    pktBody b n = .ok none ∧ b.length < n ∨ pktBody (b ++ c) n = pktBody b n := by
  rw [pktBody, pktBody]
  split_ifs with h0 h1 h2 hmin hmax hlen hlen' hlen'
  · exact .inr rfl
  · exact .inr rfl
  · exact .inr rfl
  · exact .inr rfl
  · exact .inr rfl
  · exact .inl ⟨rfl, hlen⟩
  · exact .inl ⟨rfl, hlen⟩
  · rw [List.length_append] at hlen'
    omega
  · rw [List.take_append_of_le_length (not_lt.mp hlen)]
    exact .inr rfl

/-- A line that is found is as long as its length says, and there are so many bytes. -/
theorem pktBody_some {b : List UInt8} {n k : ℕ} {p : Pkt} (hb : 4 ≤ b.length)
    (h : pktBody b n = .ok (some (p, k))) : 4 ≤ k ∧ n ≤ k ∧ k ≤ b.length := by
  rw [pktBody] at h
  split_ifs at h with h0 h1 h2 hmin hmax hlen <;> cases h
  all_goals omega

/-- What the decoder says depends on the line alone. -/
theorem decodePkt_append (b c : List UInt8) :
    decodePkt b = .ok none ∨ decodePkt (b ++ c) = decodePkt b := by
  by_cases h : b.length < 4
  · exact .inl (if_pos h)
  · have h' : ¬ (b ++ c).length < 4 := by
      rw [List.length_append]
      omega
    rw [decodePkt, decodePkt, if_neg h, if_neg h', pktLength_append (not_lt.mp h)]
    cases pktLength b with
    | none => exact .inr rfl
    | some n => exact (pktBody_append b c n).imp And.left id

theorem decodePkt_some {b : List UInt8} {p : Pkt} {k : ℕ} (h : decodePkt b = .ok (some (p, k))) :
    ∃ n, 4 ≤ b.length ∧ pktLength b = some n ∧ pktBody b n = .ok (some (p, k)) := by
  rw [decodePkt] at h
  split_ifs at h with hlen
  · cases h
  · cases hn : pktLength b with
    | none =>
      rw [hn] at h
      cases h
    | some n =>
      rw [hn] at h
      exact ⟨n, not_lt.mp hlen, rfl, h⟩

/-- A decoder of packet lines. -/
def pktLine : PktDecoder where
  decode := decodePkt
  pos h := by
    obtain ⟨n, hb, -, hbody⟩ := decodePkt_some h
    obtain ⟨hk, -, hle⟩ := pktBody_some hb hbody
    omega
  stable {b p n} c h := by
    rcases decodePkt_append b c with hnone | heq
    · rw [hnone] at h
      cases h
    · exact heq.trans h
  fails {b e} c h := by
    rcases decodePkt_append b c with hnone | heq
    · rw [hnone] at h
      cases h
    · exact heq.trans h
  enough {b c p k} h hk := by
    obtain ⟨n, hbc, hn, hbody⟩ := decodePkt_some h
    obtain ⟨h4, hnk, -⟩ := pktBody_some hbc hbody
    have hb : 4 ≤ b.length := h4.trans hk
    rw [pktLength_append hb] at hn
    rw [decodePkt, if_neg (not_lt.mpr hb), hn]
    rcases pktBody_append b c n with ⟨-, hlt⟩ | heq
    · omega
    · exact heq.symm.trans hbody

/-! ## Writing a line -/

/-- The digit of a number below sixteen. -/
def digitByte (n : ℕ) : UInt8 := if n < 10 then UInt8.ofNat (0x30 + n) else UInt8.ofNat (0x57 + n)

/-- A length in four digits. -/
def lengthBytes (n : ℕ) : List UInt8 :=
  [digitByte (n / 4096 % 16), digitByte (n / 256 % 16), digitByte (n / 16 % 16), digitByte (n % 16)]

/-- A line of data. -/
def encodeData (data : List UInt8) : List UInt8 := lengthBytes (data.length + 4) ++ data

theorem hexValue_digitByte : ∀ n < 16, hexValue (digitByte n) = some n := by decide

theorem pktLength_lengthBytes {n : ℕ} (hn : n < 65536) : pktLength (lengthBytes n) = some n := by
  have hdigit : ∀ k, hexValue (digitByte (k % 16)) = some (k % 16) := fun k =>
    hexValue_digitByte _ (Nat.mod_lt _ (by omega))
  have hvalue : ((n / 4096 % 16 * 16 + n / 256 % 16) * 16 + n / 16 % 16) * 16 + n % 16 = n := by
    omega
  simp only [pktLength, lengthBytes, List.take, List.mapM_cons, List.mapM_nil, hdigit,
    Option.pure_def, Option.bind_eq_bind, Option.bind_some, Option.map_some, List.foldl_cons,
    List.foldl_nil]
  rw [Option.some_inj]
  omega

/-- A line that was written is read back. -/
theorem decode_encodeData {data : List UInt8} (hne : data ≠ []) (hlen : data.length + 4 ≤ maxLine) :
    pktLine.decode (encodeData data) = .ok (some (.data data, (encodeData data).length)) := by
  have hpos := List.length_pos_iff.mpr hne
  have hmax : data.length + 4 < 65536 := by
    unfold maxLine at hlen
    omega
  have hfour : (lengthBytes (data.length + 4)).length = 4 := rfl
  have htotal : (encodeData data).length = data.length + 4 := by
    rw [encodeData, List.length_append, hfour, Nat.add_comm]
  have hnum : pktLength (encodeData data) = some (data.length + 4) := by
    rw [encodeData, pktLength_append (le_of_eq hfour.symm), pktLength_lengthBytes hmax]
  have hbody : ((encodeData data).take (data.length + 4)).drop 4 = data := by
    rw [← htotal, List.take_length, encodeData]
    exact List.drop_left' hfour
  show decodePkt (encodeData data) = _
  rw [decodePkt, if_neg (by omega), hnum]
  dsimp only
  rw [pktBody, if_neg (by omega), if_neg (by omega), if_neg (by omega), if_neg (by omega),
    if_neg (by omega), if_neg (by omega), hbody, htotal]

end GitEdge
