import GitEdge.Lib.Fips180
import GitEdge.Store.Schema

/-!
# Hashers that are carried across slices

`CkptSha1`, `CkptSha256` and `CkptHash` of `store/mod.rs`: the hashers of a pack whose state is a
value that a checkpoint stores. In the other modules the state of a hasher is the bytes that it
took; here it is what the source keeps of them, the hash value of the full blocks, the length and
the bytes of the block that is not full.

The two hashers differ in what they do with a block, and share the rest. A block does what the
standard says (`sha1Block_eq`, `sha256Block_eq`); the calls of `update` feed the bytes to the blocks
however they are split (`update_feed`), and a state that was exported, stored as JSON and restored
is the state that it was (`restore_export`). So the digest is that of the standard (`digest_exact`).
-/

namespace GitEdge

open Fips180 (Word byteWord beBytes padBytes)

variable {n w : ℕ} {m : List UInt8}

/-! ## The state of a hasher -/

/-- The fields of `CkptSha1` (of five words) and of `CkptSha256` (of eight). -/
@[ext]
structure CkptState (n : ℕ) where
  h : Vector Word n
  len : BitVec 64
  buf : List UInt8
deriving DecidableEq, Repr

section Shared

variable (block : Vector Word n → List UInt8 → Vector Word n)

/-- The loop of `update`, which ends when no bytes are left. Each round takes one at least, so that
there are no more rounds than bytes. -/
def updateLoop : ℕ → CkptState n → List UInt8 → CkptState n
  | 0, s, _ => s
  | rounds + 1, s, d =>
    if d.isEmpty then s
    else
      let k := min (64 - s.buf.length) d.length
      let buf := s.buf ++ d.take k
      let s := if buf.length = 64 then { s with h := block s.h buf, buf := [] } else
        { s with buf := buf }
      updateLoop rounds s (d.drop k)

/-- `update`. -/
def CkptState.update (s : CkptState n) (d : List UInt8) : CkptState n :=
  updateLoop block d.length { s with len := s.len + BitVec.ofNat 64 d.length } d

/-- The loop of `fin`, which a block of bytes ends. -/
def zeroLoop : ℕ → CkptState n → CkptState n
  | 0, s => s
  | rounds + 1, s => if s.buf.length = 56 then s else zeroLoop rounds (s.update block [0])

/-- `fin`. -/
def CkptState.fin (s : CkptState n) : List UInt8 :=
  let bits := s.len * 8
  let s := s.update block [0x80]
  let s := zeroLoop block 64 s
  let s := s.update block (beBytes 8 bits.toNat)
  s.h.toList.flatMap fun h => beBytes 4 h.toNat

theorem CkptState.length_fin (s : CkptState n) : (s.fin block).length = 4 * n := by
  simp [CkptState.fin, List.length_flatMap, Nat.mul_comm]

end Shared

/-! ## The blocks -/

/-- The loops that fill the array of a message schedule: the words of the block, and then each word
from those before it. -/
def fillSchedule (next : List Word → ℕ → Word) (count : ℕ) (b : List UInt8) : List Word :=
  (List.range' 16 count).foldl (fun w i => w ++ [next w i]) ((List.range 16).map (byteWord b))

/-- The word `w[i]` of the schedule of `CkptSha1::block`. -/
def sha1Next (w : List Word) (i : ℕ) : Word :=
  (w.getD (i - 3) 0 ^^^ w.getD (i - 8) 0 ^^^ w.getD (i - 14) 0 ^^^ w.getD (i - 16) 0).rotateLeft 1

/-- A round of `CkptSha1::block`. -/
def sha1Round (s : Vector Word 5) (wi : Word) (i : ℕ) : Vector Word 5 :=
  let fk : Word × Word :=
    if i ≤ 19 then ((s[1] &&& s[2]) ||| (~~~s[1] &&& s[3]), 0x5A827999)
    else if i ≤ 39 then (s[1] ^^^ s[2] ^^^ s[3], 0x6ED9EBA1)
    else if i ≤ 59 then ((s[1] &&& s[2]) ||| (s[1] &&& s[3]) ||| (s[2] &&& s[3]), 0x8F1BBCDC)
    else (s[1] ^^^ s[2] ^^^ s[3], 0xCA62C1D6)
  #v[s[0].rotateLeft 5 + fk.1 + s[4] + fk.2 + wi, s[0], s[1].rotateLeft 30, s[2], s[3]]

/-- `CkptSha1::block`. -/
def sha1Block (h : Vector Word 5) (b : List UInt8) : Vector Word 5 :=
  let w := fillSchedule sha1Next 64 b
  h.zipWith (· + ·) (w.zipIdx.foldl (fun s x => sha1Round s x.1 x.2) h)

/-- The table `K` of `CkptSha256::block`. -/
def sha256K : List Word :=
  [0x428A2F98, 0x71374491, 0xB5C0FBCF, 0xE9B5DBA5, 0x3956C25B, 0x59F111F1, 0x923F82A4,
    0xAB1C5ED5, 0xD807AA98, 0x12835B01, 0x243185BE, 0x550C7DC3, 0x72BE5D74, 0x80DEB1FE,
    0x9BDC06A7, 0xC19BF174, 0xE49B69C1, 0xEFBE4786, 0x0FC19DC6, 0x240CA1CC, 0x2DE92C6F,
    0x4A7484AA, 0x5CB0A9DC, 0x76F988DA, 0x983E5152, 0xA831C66D, 0xB00327C8, 0xBF597FC7,
    0xC6E00BF3, 0xD5A79147, 0x06CA6351, 0x14292967, 0x27B70A85, 0x2E1B2138, 0x4D2C6DFC,
    0x53380D13, 0x650A7354, 0x766A0ABB, 0x81C2C92E, 0x92722C85, 0xA2BFE8A1, 0xA81A664B,
    0xC24B8B70, 0xC76C51A3, 0xD192E819, 0xD6990624, 0xF40E3585, 0x106AA070, 0x19A4C116,
    0x1E376C08, 0x2748774C, 0x34B0BCB5, 0x391C0CB3, 0x4ED8AA4A, 0x5B9CCA4F, 0x682E6FF3,
    0x748F82EE, 0x78A5636F, 0x84C87814, 0x8CC70208, 0x90BEFFFA, 0xA4506CEB, 0xBEF9A3F7,
    0xC67178F2]

/-- The word `w[i]` of the schedule of `CkptSha256::block`. -/
def sha256Next (w : List Word) (i : ℕ) : Word :=
  let x := w.getD (i - 15) 0
  let y := w.getD (i - 2) 0
  let s0 := x.rotateRight 7 ^^^ x.rotateRight 18 ^^^ (x >>> 3)
  let s1 := y.rotateRight 17 ^^^ y.rotateRight 19 ^^^ (y >>> 10)
  w.getD (i - 16) 0 + s0 + w.getD (i - 7) 0 + s1

/-- A round of `CkptSha256::block`. -/
def sha256Round (s : Vector Word 8) (wi : Word) (i : ℕ) : Vector Word 8 :=
  let e1 := s[4].rotateRight 6 ^^^ s[4].rotateRight 11 ^^^ s[4].rotateRight 25
  let ch := (s[4] &&& s[5]) ^^^ (~~~s[4] &&& s[6])
  let t1 := s[7] + e1 + ch + sha256K.getD i 0 + wi
  let e0 := s[0].rotateRight 2 ^^^ s[0].rotateRight 13 ^^^ s[0].rotateRight 22
  let mj := (s[0] &&& s[1]) ^^^ (s[0] &&& s[2]) ^^^ (s[1] &&& s[2])
  let t2 := e0 + mj
  #v[t1 + t2, s[0], s[1], s[2], s[3] + t1, s[4], s[5], s[6]]

/-- `CkptSha256::block`. -/
def sha256Block (h : Vector Word 8) (b : List UInt8) : Vector Word 8 :=
  let w := fillSchedule sha256Next 48 b
  h.zipWith (· + ·) (w.zipIdx.foldl (fun s x => sha256Round s x.1 x.2) h)

/-! ## The two hashers -/

abbrev CkptSha1 := CkptState 5

abbrev CkptSha256 := CkptState 8

/-- `CkptSha1::new`. -/
def CkptSha1.new : CkptSha1 :=
  ⟨#v[0x67452301, 0xEFCDAB89, 0x98BADCFE, 0x10325476, 0xC3D2E1F0], 0, []⟩

/-- `CkptSha1::update`. -/
def CkptSha1.update (s : CkptSha1) (d : List UInt8) : CkptSha1 := CkptState.update sha1Block s d

/-- `CkptSha1::fin`. -/
def CkptSha1.fin (s : CkptSha1) : List UInt8 := CkptState.fin sha1Block s

/-- `CkptSha256::new`. -/
def CkptSha256.new : CkptSha256 :=
  ⟨#v[0x6A09E667, 0xBB67AE85, 0x3C6EF372, 0xA54FF53A, 0x510E527F, 0x9B05688C, 0x1F83D9AB,
    0x5BE0CD19], 0, []⟩

/-- `CkptSha256::update`. -/
def CkptSha256.update (s : CkptSha256) (d : List UInt8) : CkptSha256 :=
  CkptState.update sha256Block s d

/-- `CkptSha256::fin`. -/
def CkptSha256.fin (s : CkptSha256) : List UInt8 := CkptState.fin sha256Block s

/-- `CkptHash`. -/
inductive CkptHash where
  | sha1 (s : CkptSha1)
  | sha256 (s : CkptSha256)
deriving DecidableEq, Repr

namespace CkptHash

/-- `CkptHash::new`. -/
def new : ObjFormat → CkptHash
  | .sha256 => .sha256 .new
  | .sha1 => .sha1 .new

/-- `CkptHash::update`. -/
def update (d : List UInt8) : CkptHash → CkptHash
  | .sha1 h => .sha1 (CkptSha1.update h d)
  | .sha256 h => .sha256 (CkptSha256.update h d)

/-- `CkptHash::fin`. -/
def fin : CkptHash → List UInt8
  | .sha1 h => CkptSha1.fin h
  | .sha256 h => CkptSha256.fin h

end CkptHash

/-! ## Checkpoints -/

/-- `WriterCkpt`, with the states of the hashers as it stores them. -/
@[ext]
structure StoredCkpt where
  pos : BitVec 64
  sha : Option CkptSha1
  sha256 : Option CkptSha256
  count : BitVec 32
  expected : BitVec 32
  commit_lo : BitVec 64
  commit_hi : BitVec 64
deriving DecidableEq, Repr

/-- `WriterCkpt::hash`. -/
def StoredCkpt.hash (st : StoredCkpt) : Except Error CkptHash :=
  match st.sha256 with
  | some h => .ok (.sha256 h)
  | none =>
    match st.sha with
    | some h => .ok (.sha1 h)
    | none => .error (.internal "checkpoint without hash state")

/-- `WriterCkpt::set_hash`. -/
def StoredCkpt.setHash (st : StoredCkpt) : CkptHash → StoredCkpt
  | .sha1 s => { st with sha := some s, sha256 := none }
  | .sha256 s => { st with sha256 := some s, sha := none }

/-- A JSON value, as far as checkpoints have them. -/
inductive Json where
  | null
  | num (n : ℕ)
  | arr (xs : List Json)
  | obj (fields : List (String × Json))

/-- The value of a field of an object. -/
def Json.field (name : String) : Json → Option Json
  | .obj fields => (fields.find? fun f => f.1 = name).map Prod.snd
  | _ => none

/-- A number of `w` bits. -/
def Json.word (w : ℕ) : Json → Option (BitVec w)
  | .num n => if n < 2 ^ w then some (BitVec.ofNat w n) else none
  | _ => none

/-- An array of numbers of `w` bits. -/
def Json.words (w : ℕ) : Json → Option (List (BitVec w))
  | .arr xs => xs.mapM (Json.word w)
  | _ => none

def Json.ofWord (x : BitVec w) : Json := .num x.toNat

def Json.ofWords (l : List (BitVec w)) : Json := .arr (l.map Json.ofWord)

/-- The derived `Serialize` of a hasher. -/
def CkptState.toJson (s : CkptState n) : Json :=
  .obj [("h", .ofWords s.h.toList), ("len", .ofWord s.len),
    ("buf", .ofWords (s.buf.map UInt8.toBitVec))]

/-- The derived `Deserialize` of a hasher. -/
def CkptState.ofJson (n : ℕ) (j : Json) : Option (CkptState n) := do
  let h ← (← j.field "h").words 32
  let len ← (← j.field "len").word 64
  let buf ← (← j.field "buf").words 8
  if hn : h.toArray.size = n then some ⟨⟨h.toArray, hn⟩, len, buf.map UInt8.ofBitVec⟩ else none

/-- An optional field of which `None` is the default. -/
def Json.optional {α : Type} (name : String) (read : Json → Option α) (j : Json) :
    Option (Option α) :=
  match j.field name with
  | none => some none
  | some .null => some none
  | some v => (read v).map some

def Json.ofOption {α : Type} (f : α → Json) : Option α → Json
  | none => .null
  | some a => f a

/-- The derived `Serialize` of a checkpoint. -/
def StoredCkpt.toJson (st : StoredCkpt) : Json :=
  .obj [("pos", .ofWord st.pos), ("sha", .ofOption CkptState.toJson st.sha),
    ("sha256", .ofOption CkptState.toJson st.sha256), ("count", .ofWord st.count),
    ("expected", .ofWord st.expected), ("commit_lo", .ofWord st.commit_lo),
    ("commit_hi", .ofWord st.commit_hi)]

/-- The derived `Deserialize` of a checkpoint. -/
def StoredCkpt.ofJson (j : Json) : Option StoredCkpt := do
  let pos ← (← j.field "pos").word 64
  let sha ← j.optional "sha" (CkptState.ofJson 5)
  let sha256 ← j.optional "sha256" (CkptState.ofJson 8)
  let count ← (← j.field "count").word 32
  let expected ← (← j.field "expected").word 32
  let commit_lo ← (← j.field "commit_lo").word 64
  let commit_hi ← (← j.field "commit_hi").word 64
  some ⟨pos, sha, sha256, count, expected, commit_lo, commit_hi⟩

/-- The texts of `serde_json`: that of a checkpoint is read as the value that it is of. -/
structure JsonText where
  text : Type
  print : Json → text
  parse : text → Option Json
  parse_print : ∀ st : StoredCkpt, parse (print st.toJson) = some st.toJson

/-- A hasher that is exported to a checkpoint, of which the text is stored, and restored from it. -/
def carry (J : JsonText) (st : StoredCkpt) (h : CkptHash) : Option CkptHash := do
  let j ← J.parse (J.print (st.setHash h).toJson)
  let st' ← StoredCkpt.ofJson j
  st'.hash.toOption

/-- What is done to a hasher: it takes bytes, or goes through a checkpoint. -/
inductive HashStep where
  | update (d : List UInt8)
  | carry (st : StoredCkpt)

/-- The hasher after the steps. -/
def runHash (J : JsonText) : List HashStep → CkptHash → Option CkptHash
  | [], h => some h
  | .update d :: steps, h => runHash J steps (h.update d)
  | .carry st :: steps, h => (GitEdge.carry J st h).bind (runHash J steps)

/-- The bytes that the hasher takes. -/
def hashedBytes : List HashStep → List UInt8
  | [] => []
  | .update d :: steps => d ++ hashedBytes steps
  | .carry _ :: steps => hashedBytes steps

/-! ## The blocks are those of the standard -/

/-- A schedule that is filled as its words depend on those before them. -/
theorem fillSchedule_eq {next : List Word → ℕ → Word} {w : ℕ → Word} {b : List UInt8}
    (hfirst : ∀ t < 16, w t = byteWord b t)
    (hnext : ∀ t, 16 ≤ t → next ((List.range t).map w) t = w t) (count : ℕ) :
    fillSchedule next count b = (List.range (16 + count)).map w := by
  induction count with
  | zero => exact List.map_congr_left fun t ht => (hfirst t (List.mem_range.mp ht)).symm
  | succ count ih =>
    unfold fillSchedule at ih ⊢
    rw [List.range'_concat, List.foldl_append, ih, List.foldl_cons, List.foldl_nil, Nat.one_mul,
      hnext _ (Nat.le_add_right _ _), ← Nat.add_assoc, List.range_succ, List.map_append,
      List.map_singleton]

theorem getD_range_map (w : ℕ → Word) {t i : ℕ} (h : i < t) :
    ((List.range t).map w).getD i 0 = w i := by
  simp [h]

theorem zipIdx_range_map (w : ℕ → Word) (t : ℕ) :
    ((List.range t).map w).zipIdx = (List.range t).map fun i => (w i, i) := by
  refine List.ext_getElem (by simp) fun i hi _ => ?_
  simp

/-- The rounds of a block are those of the standard, when each one is. -/
theorem foldl_rounds {σ β : Type} (vars : σ → β) {round : σ → Word → ℕ → σ} {step : β → ℕ → β}
    {w : ℕ → Word} (hround : ∀ s t, vars (round s (w t) t) = step (vars s) t) (n : ℕ) (s : σ) :
    (List.range n).foldl step (vars s) =
      vars (((List.range n).map w).zipIdx.foldl (fun s x => round s x.1 x.2) s) := by
  rw [zipIdx_range_map, List.foldl_map]
  exact List.foldl_hom vars fun s t => (hround s t).symm

/-! ### SHA-1 -/

/-- The words of the state as the variables of the standard. -/
def sha1Vars (s : Vector Word 5) : Fips180.Sha1.Vars := ⟨s[0], s[1], s[2], s[3], s[4]⟩

theorem rotateLeft_eq (n : ℕ) (x : Word) (hn : n < 32) : x.rotateLeft n = Fips180.rotl n x := by
  rw [BitVec.rotateLeft_def, Nat.mod_eq_of_lt hn, Fips180.rotl]

theorem rotateRight_eq (n : ℕ) (x : Word) (hn : n < 32) : x.rotateRight n = Fips180.rotr n x := by
  rw [BitVec.rotateRight_def, Nat.mod_eq_of_lt hn, Fips180.rotr]

theorem or_eq_ch (x y z : Word) : (x &&& y) ||| (~~~x &&& z) = Fips180.ch x y z := by
  refine BitVec.eq_of_getLsbD_eq fun i hi => ?_
  simp only [Fips180.ch, BitVec.getLsbD_or, BitVec.getLsbD_and, BitVec.getLsbD_xor,
    BitVec.getLsbD_not, hi, decide_true, Bool.true_and]
  cases x.getLsbD i <;> simp

theorem or_eq_maj (x y z : Word) : (x &&& y) ||| (x &&& z) ||| (y &&& z) = Fips180.maj x y z := by
  refine BitVec.eq_of_getLsbD_eq fun i hi => ?_
  simp only [Fips180.maj, BitVec.getLsbD_or, BitVec.getLsbD_and, BitVec.getLsbD_xor]
  cases x.getLsbD i <;> cases y.getLsbD i <;> simp

theorem sha1Round_eq (s : Vector Word 5) (w : ℕ → Word) (t : ℕ) :
    sha1Vars (sha1Round s (w t) t) = Fips180.Sha1.step w (sha1Vars s) t := by
  have h5 : ∀ x : Word, x.rotateLeft 5 = Fips180.rotl 5 x := fun x => rotateLeft_eq 5 x (by decide)
  have h30 : ∀ x : Word, x.rotateLeft 30 = Fips180.rotl 30 x := fun x =>
    rotateLeft_eq 30 x (by decide)
  simp only [sha1Round, Fips180.Sha1.step, Fips180.Sha1.f, Fips180.Sha1.k, or_eq_ch, or_eq_maj,
    h5, h30, Fips180.parity, sha1Vars]
  split_ifs <;> rfl

theorem sha1Schedule_eq (b : List UInt8) :
    fillSchedule sha1Next 64 b = (List.range 80).map (Fips180.Sha1.schedule (byteWord b)) := by
  apply fillSchedule_eq
  · intro t ht
    rw [Fips180.Sha1.schedule, if_pos ht]
  · intro t ht
    rw [Fips180.Sha1.schedule.eq_def _ t, if_neg (Nat.not_lt.mpr ht), sha1Next,
      getD_range_map _ (by omega), getD_range_map _ (by omega), getD_range_map _ (by omega),
      getD_range_map _ (by omega), rotateLeft_eq 1 _ (by decide)]

/-- A block of `CkptSha1` does what the standard says. -/
theorem sha1Block_eq (h : Vector Word 5) (b : List UInt8) :
    sha1Vars (sha1Block h b) = Fips180.Sha1.compress (sha1Vars h) (byteWord b) := by
  have hrounds := foldl_rounds sha1Vars
    (fun s t => sha1Round_eq s (Fips180.Sha1.schedule (byteWord b)) t) 80 h
  rw [sha1Block, Fips180.Sha1.compress, sha1Schedule_eq, hrounds]
  simp only [sha1Vars, Vector.getElem_zipWith, BitVec.add_comm]

theorem toList_sha1Vars (v : Vector Word 5) :
    v.toList = [(sha1Vars v).a, (sha1Vars v).b, (sha1Vars v).c, (sha1Vars v).d,
      (sha1Vars v).e] := by
  obtain ⟨⟨l⟩, hl⟩ := v
  match l, hl with
  | [_, _, _, _, _], _ => rfl

theorem sha1Vars_new : sha1Vars CkptSha1.new.h = Fips180.Sha1.init := rfl

/-! ### SHA-256 -/

/-- The words of the state as the variables of the standard. -/
def sha256Vars (s : Vector Word 8) : Fips180.Sha256.Vars :=
  ⟨s[0], s[1], s[2], s[3], s[4], s[5], s[6], s[7]⟩

/-- The table has the first bits of the cube roots. -/
theorem sha256K_eq (t : ℕ) : sha256K.getD t 0 = Fips180.Sha256.k t := by
  have htable : sha256K = Fips180.Sha256.primes.map (Fips180.Sha256.fraction 3) := by decide +kernel
  have hzero : (0 : Word) = Fips180.Sha256.fraction 3 0 := by decide
  rw [htable, hzero, List.getD_map]
  rfl

theorem sha256Round_eq (s : Vector Word 8) (w : ℕ → Word) (t : ℕ) :
    sha256Vars (sha256Round s (w t) t) = Fips180.Sha256.step w (sha256Vars s) t := by
  have h : ∀ (n : ℕ) (x : Word), n < 32 → x.rotateRight n = Fips180.rotr n x := rotateRight_eq
  simp only [sha256Round, Fips180.Sha256.step, Fips180.Sha256.bigSigma0, Fips180.Sha256.bigSigma1,
    Fips180.ch, Fips180.maj, sha256Vars, sha256K_eq t, h 2 _ (by decide), h 6 _ (by decide),
    h 11 _ (by decide), h 13 _ (by decide), h 22 _ (by decide), h 25 _ (by decide)]
  rfl

theorem sha256Schedule_eq (b : List UInt8) :
    fillSchedule sha256Next 48 b = (List.range 64).map (Fips180.Sha256.schedule (byteWord b)) := by
  apply fillSchedule_eq
  · intro t ht
    rw [Fips180.Sha256.schedule, if_pos ht]
  · intro t ht
    have h : ∀ (n : ℕ) (x : Word), n < 32 → x.rotateRight n = Fips180.rotr n x := rotateRight_eq
    rw [Fips180.Sha256.schedule.eq_def _ t, if_neg (Nat.not_lt.mpr ht), sha256Next,
      getD_range_map _ (by omega), getD_range_map _ (by omega), getD_range_map _ (by omega),
      getD_range_map _ (by omega), Fips180.Sha256.smallSigma0, Fips180.Sha256.smallSigma1,
      h 7 _ (by decide), h 17 _ (by decide), h 18 _ (by decide), h 19 _ (by decide)]
    -- The words are added in another order.
    simp only [Fips180.shr]
    ac_rfl

/-- A block of `CkptSha256` does what the standard says. -/
theorem sha256Block_eq (h : Vector Word 8) (b : List UInt8) :
    sha256Vars (sha256Block h b) = Fips180.Sha256.compress (sha256Vars h) (byteWord b) := by
  have hrounds := foldl_rounds sha256Vars
    (fun s t => sha256Round_eq s (Fips180.Sha256.schedule (byteWord b)) t) 64 h
  rw [sha256Block, Fips180.Sha256.compress, sha256Schedule_eq, hrounds]
  simp only [sha256Vars, Vector.getElem_zipWith, BitVec.add_comm]

theorem toList_sha256Vars (v : Vector Word 8) :
    v.toList = [(sha256Vars v).a, (sha256Vars v).b, (sha256Vars v).c, (sha256Vars v).d,
      (sha256Vars v).e, (sha256Vars v).f, (sha256Vars v).g, (sha256Vars v).h] := by
  obtain ⟨⟨l⟩, hl⟩ := v
  match l, hl with
  | [_, _, _, _, _, _, _, _], _ => rfl

/-- The first hash value has the first bits of the square roots. -/
theorem sha256Vars_new : sha256Vars CkptSha256.new.h = Fips180.Sha256.init := by
  ext1 <;> decide +kernel

/-! ## The calls of `update` -/

section Stream

variable {block : Vector Word n → List UInt8 → Vector Word n}

/-- What the blocks depend on. -/
def CkptState.stream (s : CkptState n) : Vector Word n × List UInt8 := (s.h, s.buf)

theorem updateLoop_feed {rounds : ℕ} {s : CkptState n} {d : List UInt8} (hbuf : s.buf.length < 64)
    (hd : d.length ≤ rounds) :
    (updateLoop block rounds s d).stream = Streaming.feed 64 block s.stream d ∧
      (updateLoop block rounds s d).len = s.len := by
  induction rounds generalizing s d with
  | zero =>
    cases List.length_eq_zero_iff.mp (Nat.le_zero.mp hd)
    exact ⟨rfl, rfl⟩
  | succ rounds ih =>
    cases hempty : d.isEmpty with
    | true =>
      cases List.isEmpty_iff.mp hempty
      exact ⟨rfl, rfl⟩
    | false =>
      have hpos : 0 < d.length := List.length_pos_iff.mpr (by simpa using hempty)
      rw [updateLoop, hempty, if_neg Bool.false_ne_true]
      dsimp only
      generalize hk : min (64 - s.buf.length) d.length = k
      have htake : (d.take k).length = k := by
        rw [List.length_take]
        omega
      have hrest : (d.drop k).length ≤ rounds := by
        rw [List.length_drop]
        omega
      -- The bytes of the round fill the block, or are all that is left.
      have hround : Streaming.feed 64 block s.stream d =
          Streaming.feed 64 block (Streaming.feed 64 block s.stream (d.take k)) (d.drop k) := by
        rw [← Streaming.feed_append, List.take_append_drop]
      rw [hround]
      split_ifs with hfull
      · rw [List.length_append, htake] at hfull
        have hfeed : Streaming.feed 64 block s.stream (d.take k) =
            (block s.h (s.buf ++ d.take k), []) :=
            Streaming.feed_of_eq hbuf (by rw [htake]; exact hfull)
        rw [hfeed]
        exact @ih { s with h := block s.h (s.buf ++ d.take k), buf := [] } (d.drop k)
          (Nat.zero_lt_succ _) hrest
      · rw [List.length_append, htake] at hfull
        have hshort : s.buf.length + (d.take k).length < 64 := by
          rw [htake]
          omega
        have hfeed : Streaming.feed 64 block s.stream (d.take k) = (s.h, s.buf ++ d.take k) :=
          Streaming.feed_of_lt hshort
        rw [← List.length_append] at hshort
        rw [hfeed]
        exact @ih { s with buf := s.buf ++ d.take k } (d.drop k) hshort hrest

/-- However the bytes arrive, they are fed to the blocks. -/
theorem update_feed {s : CkptState n} (hbuf : s.buf.length < 64) (d : List UInt8) :
    (s.update block d).stream = Streaming.feed 64 block s.stream d ∧
      (s.update block d).len = s.len + BitVec.ofNat 64 d.length :=
  updateLoop_feed (s := { s with len := s.len + BitVec.ofNat 64 d.length }) hbuf le_rfl

theorem length_buf_update {s : CkptState n} (hbuf : s.buf.length < 64) (d : List UInt8) :
    (s.update block d).buf.length = (s.buf.length + d.length) % 64 := by
  have hlen := Streaming.length_feed (f := block) (by decide : 0 < 64) s.stream hbuf d
  rw [← (update_feed hbuf d).1] at hlen
  exact hlen

/-- The zeros of the padding. -/
theorem zeroLoop_feed {rounds : ℕ} {s : CkptState n} (hbuf : s.buf.length < 64)
    (hrounds : (120 - s.buf.length) % 64 ≤ rounds) :
    (zeroLoop block rounds s).stream =
        Streaming.feed 64 block s.stream (List.replicate ((120 - s.buf.length) % 64) 0) ∧
      (zeroLoop block rounds s).buf.length < 64 := by
  induction rounds generalizing s with
  | zero =>
    rw [Nat.le_zero.mp hrounds]
    exact ⟨rfl, hbuf⟩
  | succ rounds ih =>
    rw [zeroLoop]
    split_ifs with hdone
    · refine ⟨?_, hbuf⟩
      rw [hdone]
      rfl
    · have hnext : (s.update block [0]).buf.length = (s.buf.length + 1) % 64 :=
        length_buf_update hbuf [0]
      have hlt : (s.update block [0]).buf.length < 64 := by omega
      have hone : (120 - s.buf.length) % 64 = (120 - (s.update block [0]).buf.length) % 64 +
        1 := by omega
      obtain ⟨hstream, hshort⟩ := ih hlt (by omega)
      refine ⟨?_, hshort⟩
      rw [hstream, (update_feed hbuf [0]).1, hone, List.replicate_succ]
      rfl

/-- The state of a hasher that took the bytes `m`. -/
structure Took (block : Vector Word n → List UInt8 → Vector Word n) (init : Vector Word n)
    (m : List UInt8) (s : CkptState n) : Prop where
  stream : s.stream = Streaming.feed 64 block (init, []) m
  len : s.len = BitVec.ofNat 64 m.length

variable {init : Vector Word n} {s : CkptState n}

theorem Took.length_buf (h : Took block init m s) : s.buf.length = m.length % 64 := by
  have hlen := Streaming.length_feed (f := block) (by decide : 0 < 64) (init, [])
    (Nat.zero_lt_succ _) m
  rw [← h.stream, List.length_nil, Nat.zero_add] at hlen
  exact hlen

theorem Took.update (h : Took block init m s) (d : List UInt8) :
    Took block init (m ++ d) (s.update block d) := by
  have hbuf : s.buf.length < 64 := by
    have := h.length_buf
    omega
  obtain ⟨hstream, hlen⟩ := @update_feed n block s hbuf d
  refine ⟨?_, ?_⟩
  · rw [hstream, h.stream, Streaming.feed_append]
  · rw [hlen, h.len, List.length_append, BitVec.ofNat_add]

/-- `fin` feeds the padding, and what is left is the hash value of the blocks. -/
theorem Took.fin (h : Took block init m s) :
    s.fin block = ((Streaming.blocks 64 (padBytes m)).foldl block init).toList.flatMap
      fun w => beBytes 4 w.toNat := by
  have hbuf := h.length_buf
  -- The byte after the message, the zeros to the length field, and the length field.
  have hone := h.update [0x80]
  have hbuf' := hone.length_buf
  rw [List.length_append, List.length_singleton] at hbuf'
  have hlt : (s.update block [0x80]).buf.length < 64 := by omega
  obtain ⟨hzeros, hshort⟩ := @zeroLoop_feed n block 64 _ hlt (by omega)
  have hlast := (@update_feed n block _ hshort (beBytes 8 (s.len * 8).toNat)).1
  have hcount : (120 - (s.update block [0x80]).buf.length) % 64 = (119 - m.length % 64) %
    64 := by omega
  have hfield : beBytes 8 (s.len * 8).toNat = beBytes 8 (8 * m.length) := by
    rw [← Fips180.beBytes_mod 8 (8 * m.length), h.len, BitVec.toNat_mul, BitVec.toNat_ofNat,
      Nat.mod_mul_mod, Nat.mul_comm 8]
    rfl
  rw [hzeros, hone.stream, hcount, hfield, ← Streaming.feed_append,
    ← Streaming.feed_append] at hlast
  have hpad : m ++ [0x80] ++
      (List.replicate ((119 - m.length % 64) % 64) 0 ++ beBytes 8 (8 * m.length)) = padBytes m := by
    rw [padBytes, List.append_assoc, List.singleton_append, List.cons_append]
  rw [hpad, Streaming.feed_blocks (by decide) init (Fips180.dvd_length_padBytes m)] at hlast
  simp only [CkptState.fin, hfield]
  exact congrArg (fun x => x.1.toList.flatMap fun w => beBytes 4 w.toNat) hlast

end Stream

/-! ## Checkpoints -/

theorem Json.word_ofWord (x : BitVec w) : (Json.ofWord x).word w = some x := by
  rw [Json.ofWord, Json.word, if_pos x.isLt, BitVec.ofNat_toNat, BitVec.setWidth_eq]

theorem Json.words_ofWords (l : List (BitVec w)) : (Json.ofWords l).words w = some l := by
  rw [Json.ofWords, Json.words]
  induction l with
  | nil => rfl
  | cons x l ih =>
    rw [List.map_cons, List.mapM_cons, Json.word_ofWord, ih]
    rfl

theorem CkptState.ofJson_toJson (s : CkptState n) : CkptState.ofJson n s.toJson = some s := by
  have hh : s.toJson.field "h" = some (Json.ofWords s.h.toList) := rfl
  have hlen : s.toJson.field "len" = some (Json.ofWord s.len) := rfl
  have hbuf : s.toJson.field "buf" = some (Json.ofWords (s.buf.map UInt8.toBitVec)) := rfl
  have hbytes : (s.buf.map UInt8.toBitVec).map UInt8.ofBitVec = s.buf := by
    rw [List.map_map]
    exact List.map_id' s.buf
  have hsize : s.h.toList.toArray.size = n := by simp
  simp only [CkptState.ofJson, hh, hlen, hbuf, Option.bind_eq_bind, Option.bind_some,
    Json.words_ofWords, Json.word_ofWord, hbytes, dif_pos hsize]
  rfl

/-- A field that is null or a hasher. -/
theorem Json.optional_ofOption {name : String} {j : Json} {x : Option (CkptState n)}
    (h : j.field name = some (Json.ofOption CkptState.toJson x)) :
    j.optional name (CkptState.ofJson n) = some x := by
  rw [Json.optional, h]
  cases x with
  | none => rfl
  | some s =>
    have hread := CkptState.ofJson_toJson s
    exact congrArg (Option.map some) hread

theorem StoredCkpt.ofJson_toJson (st : StoredCkpt) : StoredCkpt.ofJson st.toJson = some st := by
  have hpos : st.toJson.field "pos" = some (Json.ofWord st.pos) := rfl
  have hsha : st.toJson.optional "sha" (CkptState.ofJson 5) = some st.sha :=
    Json.optional_ofOption rfl
  have hsha256 : st.toJson.optional "sha256" (CkptState.ofJson 8) = some st.sha256 :=
    Json.optional_ofOption rfl
  have hcount : st.toJson.field "count" = some (Json.ofWord st.count) := rfl
  have hexpected : st.toJson.field "expected" = some (Json.ofWord st.expected) := rfl
  have hlo : st.toJson.field "commit_lo" = some (Json.ofWord st.commit_lo) := rfl
  have hhi : st.toJson.field "commit_hi" = some (Json.ofWord st.commit_hi) := rfl
  simp only [StoredCkpt.ofJson, hpos, hsha, hsha256, hcount, hexpected, hlo, hhi,
    Option.bind_eq_bind, Option.bind_some, Json.word_ofWord]

theorem StoredCkpt.hash_setHash (st : StoredCkpt) (h : CkptHash) : (st.setHash h).hash = .ok h := by
  cases h <;> rfl

/-- A hasher comes back from a checkpoint as it was. -/
theorem carry_eq (J : JsonText) (st : StoredCkpt) (h : CkptHash) : carry J st h = some h := by
  simp only [carry, J.parse_print, Option.bind_eq_bind, Option.bind_some, StoredCkpt.ofJson_toJson,
    StoredCkpt.hash_setHash]
  rfl

/-! ### Texts as tokens -/

/-- The tokens of a JSON text. -/
inductive JsonToken where
  | null | comma | colon | openArr | closeArr | openObj | closeObj
  | num (n : ℕ)
  | str (s : String)

mutual

/-- The tokens of a value. -/
def Json.tokens : Json → List JsonToken
  | .null => [.null]
  | .num n => [.num n]
  | .arr [] => [.openArr, .closeArr]
  | .arr (x :: xs) => .openArr :: x.tokens ++ itemTokens xs
  | .obj [] => [.openObj, .closeObj]
  | .obj ((k, v) :: fs) => .openObj :: .str k :: .colon :: v.tokens ++ fieldTokens fs

/-- The tokens after a value of an array. -/
def itemTokens : List Json → List JsonToken
  | [] => [.closeArr]
  | x :: xs => .comma :: x.tokens ++ itemTokens xs

/-- The tokens after a field of an object. -/
def fieldTokens : List (String × Json) → List JsonToken
  | [] => [.closeObj]
  | (k, v) :: fs => .comma :: .str k :: .colon :: v.tokens ++ fieldTokens fs

end

mutual

/-- Reads a value at the front. -/
def readValue : ℕ → List JsonToken → Option (Json × List JsonToken)
  | _ + 1, .null :: t => some (.null, t)
  | _ + 1, .num n :: t => some (.num n, t)
  | _ + 1, .openArr :: .closeArr :: t => some (.arr [], t)
  | rounds + 1, .openArr :: t => do
    let (x, t) ← readValue rounds t
    let (xs, t) ← readItems rounds t
    some (.arr (x :: xs), t)
  | _ + 1, .openObj :: .closeObj :: t => some (.obj [], t)
  | rounds + 1, .openObj :: .str k :: .colon :: t => do
    let (v, t) ← readValue rounds t
    let (fs, t) ← readFields rounds t
    some (.obj ((k, v) :: fs), t)
  | _, _ => none

/-- Reads what comes after a value of an array. -/
def readItems : ℕ → List JsonToken → Option (List Json × List JsonToken)
  | _ + 1, .closeArr :: t => some ([], t)
  | rounds + 1, .comma :: t => do
    let (x, t) ← readValue rounds t
    let (xs, t) ← readItems rounds t
    some (x :: xs, t)
  | _, _ => none

/-- Reads what comes after a field of an object. -/
def readFields : ℕ → List JsonToken → Option (List (String × Json) × List JsonToken)
  | _ + 1, .closeObj :: t => some ([], t)
  | rounds + 1, .comma :: .str k :: .colon :: t => do
    let (v, t) ← readValue rounds t
    let (fs, t) ← readFields rounds t
    some ((k, v) :: fs, t)
  | _, _ => none

end

/-- A value does not begin with the end of an array. -/
theorem Json.tokens_ne (j : Json) (t l : List JsonToken) : j.tokens ++ t ≠ .closeArr :: l := by
  unfold Json.tokens
  split <;> simp

mutual

/-- The tokens of a value are read as the value. -/
theorem readValue_tokens (j : Json) {n : ℕ} (h : j.tokens.length < n) (t : List JsonToken) :
    readValue n (j.tokens ++ t) = some (j, t) := by
  cases n with
  | zero => omega
  | succ n =>
    match j with
    | .null => rfl
    | .num k => rfl
    | .arr [] => rfl
    | .arr (x :: xs) =>
      simp only [Json.tokens, List.length_cons, List.length_append, List.cons_append,
        List.append_assoc] at h ⊢
      simp [readValue, Json.tokens_ne, readValue_tokens x (n := n) (by omega),
        readItems_tokens xs (n := n) (by omega)]
    | .obj [] => rfl
    | .obj ((k, v) :: fs) =>
      simp only [Json.tokens, List.length_cons, List.length_append, List.cons_append,
        List.append_assoc] at h ⊢
      simp [readValue, readValue_tokens v (n := n) (by omega),
        readFields_tokens fs (n := n) (by omega)]

theorem readItems_tokens (xs : List Json) {n : ℕ} (h : (itemTokens xs).length < n)
    (t : List JsonToken) : readItems n (itemTokens xs ++ t) = some (xs, t) := by
  cases n with
  | zero => omega
  | succ n =>
    match xs with
    | [] => rfl
    | x :: xs =>
      simp only [itemTokens, List.length_cons, List.length_append, List.cons_append,
        List.append_assoc] at h ⊢
      simp [readItems, readValue_tokens x (n := n) (by omega),
        readItems_tokens xs (n := n) (by omega)]

theorem readFields_tokens (fs : List (String × Json)) {n : ℕ} (h : (fieldTokens fs).length < n)
    (t : List JsonToken) : readFields n (fieldTokens fs ++ t) = some (fs, t) := by
  cases n with
  | zero => omega
  | succ n =>
    match fs with
    | [] => rfl
    | (k, v) :: fs =>
      simp only [fieldTokens, List.length_cons, List.length_append, List.cons_append,
        List.append_assoc] at h ⊢
      simp [readFields, readValue_tokens v (n := n) (by omega),
        readFields_tokens fs (n := n) (by omega)]

end

/-- Texts as sequences of tokens. -/
def JsonText.tokens : JsonText where
  text := List JsonToken
  print := Json.tokens
  parse t := (readValue (t.length + 1) t).map Prod.fst
  parse_print st := by
    have h := readValue_tokens st.toJson (Nat.lt_succ_self _) []
    rw [List.append_nil] at h
    rw [h]
    rfl
/-! ## The digest -/

/-- The hasher of a kind that took the bytes. -/
def CkptHash.Took : ObjFormat → List UInt8 → CkptHash → Prop
  | .sha1, m, .sha1 s => GitEdge.Took sha1Block CkptSha1.new.h m s
  | .sha256, m, .sha256 s => GitEdge.Took sha256Block CkptSha256.new.h m s
  | _, _, _ => False

theorem CkptHash.took_new (kind : ObjFormat) : CkptHash.Took kind [] (CkptHash.new kind) := by
  cases kind
  · exact ⟨rfl, rfl⟩
  · exact ⟨rfl, rfl⟩

theorem CkptHash.Took.update {kind : ObjFormat} {h : CkptHash} (ht : CkptHash.Took kind m h)
    (d : List UInt8) : CkptHash.Took kind (m ++ d) (h.update d) := by
  cases kind <;> cases h
  · exact GitEdge.Took.update ht d
  · exact ht.elim
  · exact ht.elim
  · exact GitEdge.Took.update ht d

/-- A run of steps gives a hasher that took their bytes. -/
theorem runHash_took (J : JsonText) (kind : ObjFormat) (steps : List HashStep) {h : CkptHash}
    (ht : CkptHash.Took kind m h) :
    ∃ h', runHash J steps h = some h' ∧ CkptHash.Took kind (m ++ hashedBytes steps) h' := by
  induction steps generalizing m h with
  | nil => exact ⟨h, rfl, by rw [hashedBytes, List.append_nil]; exact ht⟩
  | cons step steps ih =>
    cases step with
    | update d =>
      obtain ⟨h', hrun, ht'⟩ := ih (ht.update d)
      refine ⟨h', hrun, ?_⟩
      rw [hashedBytes, ← List.append_assoc]
      exact ht'
    | carry st =>
      obtain ⟨h', hrun, ht'⟩ := ih ht
      refine ⟨h', ?_, ht'⟩
      rw [runHash, carry_eq, Option.bind_some, hrun]

/-- The functions of the standard. -/
def ObjFormat.standard : ObjFormat → List Bool → List Bool
  | .sha1 => Fips180.Sha1.digest
  | .sha256 => Fips180.Sha256.digest

/-- The fold over the blocks is that of the standard. -/
theorem foldl_vars {β : Type} {block : Vector Word n → List UInt8 → Vector Word n}
    {vars : Vector Word n → β} {compress : β → (ℕ → Word) → β}
    (hblock : ∀ h b, vars (block h b) = compress (vars h) (byteWord b)) (bs : List (List UInt8))
    (h : Vector Word n) :
    vars (bs.foldl block h) = bs.foldl (fun v b => compress v (byteWord b)) (vars h) := by
  exact (List.foldl_hom vars fun h b => (hblock h b).symm).symm

theorem CkptHash.Took.fin {kind : ObjFormat} {h : CkptHash} (ht : CkptHash.Took kind m h) :
    Fips180.ofBytes h.fin = kind.standard (Fips180.ofBytes m) := by
  cases kind <;> cases h
  case sha1.sha1 s =>
    have hvars := foldl_vars sha1Block_eq (Streaming.blocks 64 (padBytes m)) CkptSha1.new.h
    rw [sha1Vars_new, ← Fips180.hashBlocks_ofBytes] at hvars
    rw [CkptHash.fin, CkptSha1.fin, GitEdge.Took.fin ht, ObjFormat.standard,
      Fips180.Sha1.digest, ← hvars, Fips180.output_eq_ofBytes]
    generalize (Streaming.blocks 64 (padBytes m)).foldl sha1Block CkptSha1.new.h = v
    exact congrArg (fun l => Fips180.ofBytes (l.flatMap fun w => beBytes 4 w.toNat))
      (toList_sha1Vars v)
  case sha256.sha256 s =>
    have hvars := foldl_vars sha256Block_eq (Streaming.blocks 64 (padBytes m)) CkptSha256.new.h
    rw [sha256Vars_new, ← Fips180.hashBlocks_ofBytes] at hvars
    rw [CkptHash.fin, CkptSha256.fin, GitEdge.Took.fin ht, ObjFormat.standard,
      Fips180.Sha256.digest, ← hvars, Fips180.output_eq_ofBytes]
    generalize (Streaming.blocks 64 (padBytes m)).foldl sha256Block CkptSha256.new.h = v
    exact congrArg (fun l => Fips180.ofBytes (l.flatMap fun w => beBytes 4 w.toNat))
      (toList_sha256Vars v)
  case sha1.sha256 => exact ht.elim
  case sha256.sha1 => exact ht.elim

/-- However a byte string is split into calls of `update`, and wherever between them the hasher goes
through a stored checkpoint, the digest is that of FIPS 180-4. -/
theorem digest_exact (J : JsonText) (kind : ObjFormat) (steps : List HashStep) :
    ∃ h, runHash J steps (CkptHash.new kind) = some h ∧
      Fips180.ofBytes h.fin = kind.standard (Fips180.ofBytes (hashedBytes steps)) := by
  obtain ⟨h, hrun, ht⟩ := runHash_took J kind steps (CkptHash.took_new kind)
  exact ⟨h, hrun, ht.fin⟩

/-- The standard's example `abc`, with a checkpoint after its first byte. -/
theorem digest_exact_abc :
    ∃ h, runHash .tokens [.update [0x61], .carry ⟨0, none, none, 0, 0, 0, 0⟩, .update [0x62, 0x63]]
        (.new .sha256) = some h ∧
      Fips180.ofBytes h.fin = Fips180.Sha256.digest (Fips180.ofBytes [0x61, 0x62, 0x63]) :=
  digest_exact .tokens .sha256
    [.update [0x61], .carry ⟨0, none, none, 0, 0, 0, 0⟩, .update [0x62, 0x63]]

-- The answer of that example.
example : (CkptHash.update [0x61, 0x62, 0x63] (.new .sha256)).fin =
    [0xba, 0x78, 0x16, 0xbf, 0x8f, 0x01, 0xcf, 0xea, 0x41, 0x41, 0x40, 0xde, 0x5d, 0xae, 0x22, 0x23,
      0xb0, 0x03, 0x61, 0xa3, 0x96, 0x17, 0x7a, 0x9c, 0xb4, 0x10, 0xff, 0x61, 0xf2, 0x00,
      0x15, 0xad] := by
  decide +kernel

end GitEdge
