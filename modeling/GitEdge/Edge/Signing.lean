import GitEdge.Lib.Decimal
import GitEdge.Lib.Utf8
import GitEdge.Repo.Lfs
import GitEdge.Wire.PktLine

/-!
# Signed URLs

The URL of a pack or of an LFS object carries its own credential: the HMAC of a text that names the
repository, the pack or the object, the expiry, and for LFS the direction (`sign.rs`). The routes
`pack_get` and `lfs_object` of `edge/mod.rs` make the text from the request and compare.

The fields of the text are lines. No field has a line break, because the routes take only names of
letters, digits and `._-`, and a number is written in digits, so the lines of a text are its fields
(`Capability.lines_message`). Texts of packs have four of them, texts of LFS objects six, and a text
determines what it is for (`Capability.message_inj`).
-/

namespace GitEdge

/-! ## Names -/

/-- `RepoRoute::seg_ok`. -/
def segOk (s : String) : Bool :=
  1 ≤ s.utf8ByteSize && s.utf8ByteSize ≤ 64 &&
    s.toList.all (fun c => c.isAlphanum || "._-".toList.contains c) && s ≠ "." && s ≠ ".."

/-- A segment of a route: a repository id or a pack id. -/
abbrev Segment := { s : String // segOk s = true }

/-- The id of an LFS object. -/
abbrev LfsOid := { s : String // lfsOidOk s = true }

/-- The directions of an LFS transfer. -/
inductive LfsOp where
  | get | put
deriving DecidableEq, Repr

/-- The text of a direction. -/
def LfsOp.text : LfsOp → String
  | .get => "get"
  | .put => "put"

/-- What a signed URL gives: a pack to download, or an LFS object to transfer in one direction. -/
inductive Capability where
  | pack (repo pack : Segment) (exp : ℤ)
  | lfs (repo : Segment) (oid : LfsOid) (exp : ℤ) (op : LfsOp)
deriving DecidableEq

/-! ## Messages -/

/-- `msg`. -/
def packMsg (repo pack : String) (exp : ℤ) : List UInt8 :=
  Utf8.encode s!"v1\n{repo}\n{pack}\n{exp}".toList

/-- `lmsg`. -/
def lfsMsg (repo oid : String) (exp : ℤ) (op : String) : List UInt8 :=
  Utf8.encode s!"v1\nlfs\n{repo}\n{oid}\n{exp}\n{op}".toList

/-- The message that is signed for a capability. -/
def Capability.message : Capability → List UInt8
  | .pack repo p exp => packMsg repo p exp
  | .lfs repo oid exp op => lfsMsg repo oid exp op.text

/-! ## Signatures -/

section Mac

-- `mac`: the HMAC of a message under a key.
variable (mac : String → List UInt8 → Except Error (List UInt8))

/-- `u8::from_str_radix` of two characters: two digits, or a plus sign and a digit. -/
def hexByte (a b : UInt8) : Option UInt8 :=
  match hexValue a, hexValue b with
  | some m, some n => some (UInt8.ofNat (16 * m + n))
  | none, some n => if a = 0x2b then some (UInt8.ofNat n) else none
  | _, none => none

/-- The bytes of a signature, two characters for each. -/
def sigBytes : List UInt8 → Option (List UInt8)
  | a :: b :: rest => (hexByte a b).bind fun x => (sigBytes rest).map fun xs => x :: xs
  | _ => some []

/-- The body of `pack_sig_ok` and `lfs_sig_ok`: the signature has 64 characters, and is the HMAC of
the message. -/
def sigOk (key : String) (msg : List UInt8) (sig : String) : Bool :=
  if sig.utf8ByteSize ≠ 64 then false
  else
    match sigBytes (Utf8.encode sig.toList) with
    | none => false
    | some sig =>
      match mac key msg with
      | .ok m => m = sig
      | .error _ => false

/-- `pack_sig_ok`. -/
def packSigOk (key repo pack : String) (exp : ℤ) (sig : String) : Bool :=
  sigOk mac key (packMsg repo pack exp) sig

/-- `lfs_sig_ok`. -/
def lfsSigOk (key repo oid : String) (exp : ℤ) (op sig : String) : Bool :=
  sigOk mac key (lfsMsg repo oid exp op) sig

/-! ## Routes -/

/-- The query parameters of a signed URL: the expiry, the repository id and the signature. -/
structure SignedQuery where
  e : Option String
  r : Option String
  s : Option String

/-- The digits of a number, after its sign. -/
def digitsValue (ds : List Char) : Option ℕ :=
  if ds = [] ∨ ¬ ds.all Char.isDigit then none else some (Nat.ofDigitChars 10 ds 0)

/-- `str::parse` of an `i64`. -/
def parseI64 (s : String) : Option ℤ :=
  let value : Option ℤ :=
    match s.toList with
    | '-' :: ds => (digitsValue ds).map fun n => -n
    | '+' :: ds => (digitsValue ds).map fun n => n
    | ds => (digitsValue ds).map fun n => n
  value.filter fun n => -2^63 ≤ n ∧ n < 2^63

/-- A segment of a route, if the text is one. -/
def segment (s : String) : Option Segment := if h : segOk s = true then some ⟨s, h⟩ else none

/-- `strip_suffix(".pack")`. -/
def stripPack (name : String) : Option String :=
  if ".pack".toList <:+ name.toList then some
    (String.ofList (name.toList.take (name.toList.length - 5)))
  else none

/-- The part of both routes from the expiry on: what is granted under the repository and the expiry
of the query, if the signature is that of its message. -/
def grant (now : ℤ) (q : SignedQuery) (what : Segment → ℤ → Capability)
    (ok : Segment → ℤ → String → Bool) : Except Error Capability :=
  match q.e.bind parseI64 with
  | none => .error .forbidden
  | some exp =>
    if exp < now.tdiv 1000 then .error .forbidden
    else
      match q.r.bind segment, q.s with
      | some repo, some sig => if ok repo exp sig then .ok (what repo exp) else .error .forbidden
      | _, _ => .error .forbidden

/-- The checks of `pack_get`, for a signing key, the clock, the name in the path and the query: the
capability that is served. -/
def packGet (key : Option String) (now : ℤ) (name : String) (q : SignedQuery) :
    Except Error Capability :=
  match key, (stripPack name).bind segment with
  | some key, some pack =>
    grant now q (fun repo exp => .pack repo pack exp) fun repo exp sig =>
      packSigOk mac key repo pack exp sig
  | _, _ => .error .notFound

/-- The checks of `lfs_object`, for an object id and a direction. -/
def lfsObject (key : Option String) (now : ℤ) (oid : String) (op : LfsOp) (q : SignedQuery) :
    Except Error Capability :=
  match key with
  | none => .error .notFound
  | some key =>
    if h : lfsOidOk oid = true then
      grant now q (fun repo exp => .lfs repo ⟨oid, h⟩ exp op) fun repo exp sig =>
        lfsSigOk mac key repo oid exp op.text sig
    else .error .notFound

/-- A request with a signed URL. -/
inductive SignedRequest where
  | pack (name : String) (query : SignedQuery)
  | lfs (oid : String) (op : LfsOp) (query : SignedQuery)

/-- The query of a request. -/
def SignedRequest.query : SignedRequest → SignedQuery
  | .pack _ q | .lfs _ _ q => q

/-- The capability that a request is served. -/
def SignedRequest.serve (key : Option String) (now : ℤ) : SignedRequest → Except Error Capability
  | .pack name q => packGet mac key now name q
  | .lfs oid op q => lfsObject mac key now oid op q

end Mac

/-! ## What a message says -/

namespace Capability

/-- The lines of a message. -/
def lines : Capability → List (List Char)
  | pack repo p exp => ["v1".toList, repo.val.toList, p.val.toList, exp.repr.toList]
  | lfs repo oid exp op =>
    ["v1".toList, "lfs".toList, repo.val.toList, oid.val.toList, exp.repr.toList, op.text.toList]

theorem message_eq (c : Capability) : c.message = Utf8.encode (['\n'].intercalate c.lines) := by
  cases c with
  | pack repo p exp =>
    change Utf8.encode _ = _
    congr 1
    simp [lines, List.intercalate]
    rfl
  | lfs repo oid exp op =>
    change Utf8.encode _ = _
    congr 1
    simp [lines, List.intercalate]
    rfl

theorem newline_not_mem_segment (s : Segment) : '\n' ∉ s.val.toList := by
  intro hmem
  have hok := s.property
  simp only [segOk, Bool.and_eq_true, List.all_eq_true] at hok
  exact absurd (hok.1.1.2 _ hmem) (by decide)

theorem newline_not_mem_lfsOid (oid : LfsOid) : '\n' ∉ oid.val.toList := by
  intro hmem
  have hok := oid.property
  simp only [lfsOidOk, Bool.and_eq_true, List.all_eq_true] at hok
  exact absurd (hok.2 _ hmem) (by decide)

theorem newline_not_mem_repr (n : ℤ) : '\n' ∉ n.repr.toList := by
  intro hmem
  rcases Decimal.mem_intRepr hmem with h | h
  · exact absurd h (by decide)
  · exact absurd h (by decide)

/-- No line of a message has a line break in it. -/
theorem newline_not_mem_lines (c : Capability) : ∀ l ∈ c.lines, '\n' ∉ l := by
  cases c with
  | pack repo p exp =>
    simp only [lines, List.forall_mem_cons, List.not_mem_nil, false_implies, implies_true, and_true]
    exact ⟨by decide, newline_not_mem_segment repo, newline_not_mem_segment p,
      newline_not_mem_repr exp⟩
  | lfs repo oid exp op =>
    simp only [lines, List.forall_mem_cons, List.not_mem_nil, false_implies, implies_true, and_true]
    refine ⟨by decide, by decide, newline_not_mem_segment repo, newline_not_mem_lfsOid oid,
      newline_not_mem_repr exp, ?_⟩
    cases op <;> decide

/-- The lines of a message can be read off it. -/
theorem lines_message (c : Capability) : (Utf8.lossy c.message).splitOn '\n' = c.lines := by
  have hread : Utf8.lossy c.message = ['\n'].intercalate c.lines := by
    rw [message_eq]
    simpa [Utf8.lossy] using Utf8.lossy_encode (['\n'].intercalate c.lines) []
  rw [hread]
  apply List.splitOn_intercalate _ (newline_not_mem_lines c)
  cases c <;> simp [lines]

theorem lines_inj {c c' : Capability} (h : c.lines = c'.lines) : c = c' := by
  cases c with
  | pack repo p exp =>
    cases c' with
    | pack repo' p' exp' =>
      simp only [lines, List.cons.injEq, String.toList_inj, true_and, and_true] at h
      obtain ⟨hrepo, hp, hexp⟩ := h
      rw [Subtype.ext hrepo, Subtype.ext hp, Decimal.intRepr_inj hexp]
    | lfs repo' oid' exp' op' => simp [lines] at h
  | lfs repo oid exp op =>
    cases c' with
    | pack repo' p' exp' => simp [lines] at h
    | lfs repo' oid' exp' op' =>
      simp only [lines, List.cons.injEq, String.toList_inj, true_and, and_true] at h
      obtain ⟨hrepo, hoid, hexp, hop⟩ := h
      have hop' : op = op' := by
        cases op <;> cases op' <;> first | rfl | exact absurd hop (by decide)
      rw [Subtype.ext hrepo, Subtype.ext hoid, Decimal.intRepr_inj hexp, hop']

/-- A message is signed for one capability only. -/
theorem message_inj {c c' : Capability} (h : c.message = c'.message) : c = c' := by
  apply lines_inj
  rw [← lines_message, ← lines_message, h]

end Capability

/-! ## What a signature is good for -/

section Binds

variable {mac : String → List UInt8 → Except Error (List UInt8)} {key sig : String}

/-- One signature is the HMAC of both messages. -/
theorem mac_eq_of_sigOk {m m' : List UInt8} (h : sigOk mac key m sig = true)
    (h' : sigOk mac key m' sig = true) : mac key m = mac key m' := by
  have hmac : ∀ {m : List UInt8}, sigOk mac key m sig = true →
      ∃ bytes, sigBytes (Utf8.encode sig.toList) = some bytes ∧ mac key m = .ok bytes := by
    intro m h
    unfold sigOk at h
    split_ifs at h
    split at h
    · cases h
    · rename_i bytes hbytes
      split at h
      · rename_i t ht
        exact ⟨bytes, hbytes, by rw [ht, of_decide_eq_true h]⟩
      · cases h
  obtain ⟨bytes, hbytes, hm⟩ := hmac h
  obtain ⟨bytes', hbytes', hm'⟩ := hmac h'
  rw [hbytes] at hbytes'
  rw [hm, hm', Option.some.inj hbytes']

theorem grant_eq_ok {now : ℤ} {q : SignedQuery} {what : Segment → ℤ → Capability}
    {ok : Segment → ℤ → String → Bool} {c : Capability} (h : grant now q what ok = .ok c) :
    ∃ repo exp sig, q.s = some sig ∧ c = what repo exp ∧ ok repo exp sig = true := by
  unfold grant at h
  split at h
  · cases h
  · split_ifs at h
    split at h
    · rename_i repo sig _ hsig
      split_ifs at h with hok
      cases h
      exact ⟨repo, _, sig, hsig, rfl, hok⟩
    · cases h

/-- A request is served a capability only with the signature of its message. -/
theorem sigOk_of_serve {now : ℤ} {req : SignedRequest} {c : Capability}
    (h : req.serve mac (some key) now = .ok c) :
    ∃ sig, req.query.s = some sig ∧ sigOk mac key c.message sig = true := by
  cases req with
  | pack name q =>
    change packGet mac (some key) now name q = .ok c at h
    unfold packGet at h
    split at h
    · rename_i key' p hkey _
      cases hkey
      obtain ⟨repo, exp, sig, hsig, rfl, hok⟩ := grant_eq_ok h
      exact ⟨sig, hsig, hok⟩
    · cases h
  | lfs oid op q =>
    change lfsObject mac (some key) now oid op q = .ok c at h
    unfold lfsObject at h
    dsimp only at h
    split_ifs at h
    obtain ⟨repo, exp, sig, hsig, rfl, hok⟩ := grant_eq_ok h
    exact ⟨sig, hsig, hok⟩

end Binds

/-- Different capabilities have different messages; so if the HMACs of two messages are equal only
for equal messages, two requests that are served under one signature are served the same
capability. -/
theorem signature_binds (mac : String → List UInt8 → Except Error (List UInt8)) (key : String) :
    (∀ c c' : Capability, c.message = c'.message → c = c') ∧
      ∀ (now now' : ℤ) (req req' : SignedRequest) (c c' : Capability),
        (mac key c.message = mac key c'.message → c.message = c'.message) →
        req.query.s = req'.query.s → req.serve mac (some key) now = .ok c →
        req'.serve mac (some key) now' = .ok c' → c = c' := by
  constructor
  · exact fun c c' h => Capability.message_inj h
  · intro now now' req req' c c' hmac hsame hserved hserved'
    obtain ⟨sig, hsig, hok⟩ := sigOk_of_serve hserved
    obtain ⟨sig', hsig', hok'⟩ := sigOk_of_serve hserved'
    rw [hsig, hsig'] at hsame
    cases hsame
    exact Capability.message_inj (hmac (mac_eq_of_sigOk hok hok'))

/-- A code of 32 bytes that tells short messages apart. -/
def padMac (_key : String) (msg : List UInt8) : Except Error (List UInt8) :=
  .ok ((msg ++ List.replicate 32 0).take 32)

/-- The URL of the pack `p` of the repository `r`, until the fifth second. -/
def packRequest : SignedRequest :=
  .pack "p.pack" ⟨some "5", some "r",
    some "76310a720a700a35000000000000000000000000000000000000000000000000"⟩

/-- The signature of a pack is good for the pack, and not for another one. -/
theorem signature_binds_pack :
    packRequest.serve padMac (some "k") 0 = .ok (.pack ⟨"r", by decide⟩ ⟨"p", by decide⟩ 5) ∧
      (SignedRequest.pack "q.pack" packRequest.query).serve padMac (some "k") 0 ≠
        .ok (.pack ⟨"r", by decide⟩ ⟨"q", by decide⟩ 5) := by
  have hserved : packRequest.serve padMac (some "k") 0 =
      .ok (.pack ⟨"r", by decide⟩ ⟨"p", by decide⟩ 5) := by decide +kernel
  refine ⟨hserved, fun hother => ?_⟩
  have heq := (signature_binds padMac "k").2 0 0 packRequest
    (.pack "q.pack" packRequest.query) (.pack ⟨"r", by decide⟩ ⟨"p", by decide⟩ 5)
    (.pack ⟨"r", by decide⟩ ⟨"q", by decide⟩ 5) (by decide +kernel) (by decide) hserved hother
  exact absurd heq (by decide)

end GitEdge
