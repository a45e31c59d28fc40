import Mathlib.Data.Nat.Bitwise
import Mathlib.Data.Nat.Find
import Mathlib.Data.Nat.NthRoot.Defs
import Mathlib.Tactic.Ring
import GitEdge.Lib.Streaming

/-!
# SHA-1 and SHA-256

The functions of FIPS 180-4 on bit strings, with the section numbers of the standard. The standard
defines them on messages of less than `2^64` bits; the length field is here modulo `2^64`, so that
they are defined on every message.

The messages of a program are byte strings. The second half of the file reads the standard on those:
the padding adds bytes (`pad_ofBytes`), and the blocks and their words are blocks and words of bytes
(`hashBlocks_ofBytes`).
-/

namespace Fips180

/-! ## Bit strings and words (§2.2, §3.1) -/

/-- The last `w` bits of a number, the most significant first. -/
def bits (w n : ℕ) : List Bool := (List.range w).map fun i => n.testBit (w - 1 - i)

/-- The number of a bit string. -/
def value (l : List Bool) : ℕ := l.foldl (fun n b => 2 * n + b.toNat) 0

/-- The words of both functions have 32 bits. -/
abbrev Word := BitVec 32

/-- `ROTL`. -/
def rotl (n : ℕ) (x : Word) : Word := x <<< n ||| x >>> (32 - n)

/-- `ROTR`. -/
def rotr (n : ℕ) (x : Word) : Word := x >>> n ||| x <<< (32 - n)

/-- `SHR`. -/
def shr (n : ℕ) (x : Word) : Word := x >>> n

/-! ## Functions (§4.1) -/

def ch (x y z : Word) : Word := (x &&& y) ^^^ (~~~x &&& z)

def parity (x y z : Word) : Word := x ^^^ y ^^^ z

def maj (x y z : Word) : Word := (x &&& y) ^^^ (x &&& z) ^^^ (y &&& z)

/-! ## Preprocessing (§5) -/

theorem exists_zeros (l : ℕ) : ∃ k, (l + 1 + k) % 512 = 448 := ⟨(959 - l % 512) % 512, by omega⟩

/-- The number of zeros of the padding of a message of `l` bits: the smallest one with which the
length field ends a block. -/
def zeros (l : ℕ) : ℕ := Nat.find (exists_zeros l)

/-- The padded message: the bit 1, zeros, and the length in 64 bits. -/
def pad (m : List Bool) : List Bool :=
  m ++ (true :: List.replicate (zeros m.length) false ++ bits 64 m.length)

/-- The word `M_t` of a block. -/
def wordOf (block : List Bool) (t : ℕ) : Word :=
  BitVec.ofNat 32 (value ((block.drop (32 * t)).take 32))

/-- The hash value after the blocks of a message, from the first one and what a block does to it. -/
def hashBlocks {σ : Type} (compress : σ → (ℕ → Word) → σ) (init : σ) (m : List Bool) : σ :=
  (Streaming.blocks 512 (pad m)).foldl (fun h block => compress h (wordOf block)) init

/-- The bits of the words of a hash value. -/
def output (ws : List Word) : List Bool := ws.flatMap fun w => bits 32 w.toNat

/-! ## SHA-1 (§4.1.1, §4.2.1, §5.3.1, §6.1) -/

namespace Sha1

/-- The hash value, and the working variables. -/
@[ext]
structure Vars where
  a : Word
  b : Word
  c : Word
  d : Word
  e : Word

def f (t : ℕ) (x y z : Word) : Word :=
  if t ≤ 19 then ch x y z
  else if t ≤ 39 then parity x y z
  else if t ≤ 59 then maj x y z
  else parity x y z

def k (t : ℕ) : Word :=
  if t ≤ 19 then 0x5a827999
  else if t ≤ 39 then 0x6ed9eba1
  else if t ≤ 59 then 0x8f1bbcdc
  else 0xca62c1d6

def init : Vars := ⟨0x67452301, 0xefcdab89, 0x98badcfe, 0x10325476, 0xc3d2e1f0⟩

/-- The message schedule. -/
def schedule (m : ℕ → Word) (t : ℕ) : Word :=
  if t < 16 then m t
  else rotl 1
    (schedule m (t - 3) ^^^ schedule m (t - 8) ^^^ schedule m (t - 14) ^^^ schedule m (t - 16))
termination_by t

def step (w : ℕ → Word) (v : Vars) (t : ℕ) : Vars :=
  ⟨rotl 5 v.a + f t v.b v.c v.d + v.e + k t + w t, v.a, rotl 30 v.b, v.c, v.d⟩

def compress (h : Vars) (m : ℕ → Word) : Vars :=
  let v := (List.range 80).foldl (step (schedule m)) h
  ⟨v.a + h.a, v.b + h.b, v.c + h.c, v.d + h.d, v.e + h.e⟩

/-- SHA-1. -/
def digest (m : List Bool) : List Bool :=
  let h := hashBlocks compress init m
  output [h.a, h.b, h.c, h.d, h.e]

end Sha1

/-! ## SHA-256 (§4.1.2, §4.2.2, §5.3.3, §6.2) -/

namespace Sha256

/-- The hash value, and the working variables. -/
@[ext]
structure Vars where
  a : Word
  b : Word
  c : Word
  d : Word
  e : Word
  f : Word
  g : Word
  h : Word

def bigSigma0 (x : Word) : Word := rotr 2 x ^^^ rotr 13 x ^^^ rotr 22 x

def bigSigma1 (x : Word) : Word := rotr 6 x ^^^ rotr 11 x ^^^ rotr 25 x

def smallSigma0 (x : Word) : Word := rotr 7 x ^^^ rotr 18 x ^^^ shr 3 x

def smallSigma1 (x : Word) : Word := rotr 17 x ^^^ rotr 19 x ^^^ shr 10 x

/-- The first sixty-four primes. -/
def primes : List ℕ :=
  [2, 3, 5, 7, 11, 13, 17, 19, 23, 29, 31, 37, 41, 43, 47, 53, 59, 61, 67, 71, 73, 79, 83, 89,
    97, 101, 103, 107, 109, 113, 127, 131, 137, 139, 149, 151, 157, 163, 167, 173, 179, 181,
    191, 193, 197, 199, 211, 223, 227, 229, 233, 239, 241, 251, 257, 263, 269, 271, 277, 281,
    283, 293, 307, 311]

/-- The first 32 bits of the fractional part of the `n`-th root of `p`. -/
def fraction (n p : ℕ) : Word := BitVec.ofNat 32 (Nat.nthRoot n (p * 2 ^ (32 * n)))

/-- The constants come from the cube roots of the primes. -/
def k (t : ℕ) : Word := fraction 3 (primes.getD t 0)

/-- The first hash value comes from the square roots of the first eight primes. -/
def init : Vars :=
  ⟨fraction 2 2, fraction 2 3, fraction 2 5, fraction 2 7, fraction 2 11, fraction 2 13,
    fraction 2 17, fraction 2 19⟩

/-- The message schedule. -/
def schedule (m : ℕ → Word) (t : ℕ) : Word :=
  if t < 16 then m t
  else smallSigma1 (schedule m (t - 2)) + schedule m (t - 7) + smallSigma0 (schedule m (t - 15)) +
    schedule m (t - 16)
termination_by t

def step (w : ℕ → Word) (v : Vars) (t : ℕ) : Vars :=
  let t₁ := v.h + bigSigma1 v.e + ch v.e v.f v.g + k t + w t
  let t₂ := bigSigma0 v.a + maj v.a v.b v.c
  ⟨t₁ + t₂, v.a, v.b, v.c, v.d + t₁, v.e, v.f, v.g⟩

def compress (h : Vars) (m : ℕ → Word) : Vars :=
  let v := (List.range 64).foldl (step (schedule m)) h
  ⟨v.a + h.a, v.b + h.b, v.c + h.c, v.d + h.d, v.e + h.e, v.f + h.f, v.g + h.g, v.h + h.h⟩

/-- SHA-256. -/
def digest (m : List Bool) : List Bool :=
  let h := hashBlocks compress init m
  output [h.a, h.b, h.c, h.d, h.e, h.f, h.g, h.h]

end Sha256

/-! ## Byte strings -/

/-- The bits of a byte string. -/
def ofBytes (l : List UInt8) : List Bool := l.flatMap fun b => bits 8 b.toNat

/-- The last `k` bytes of a number, the most significant first. -/
def beBytes (k n : ℕ) : List UInt8 := (List.range k).map fun i =>
    UInt8.ofNat (n / 2 ^ (8 * (k - 1 - i)))

/-- The number of a byte string. -/
def beValue (l : List UInt8) : ℕ := l.foldl (fun n b => 256 * n + b.toNat) 0

/-- The padding in bytes. -/
def padBytes (m : List UInt8) : List UInt8 :=
  m ++ (0x80 :: List.replicate ((119 - m.length % 64) % 64) 0 ++ beBytes 8 (8 * m.length))

/-- The word `M_t` of a block of bytes. -/
def byteWord (block : List UInt8) (t : ℕ) : Word :=
  BitVec.ofNat 32 (beValue ((block.drop (4 * t)).take 4))

@[simp] theorem length_bits (w n : ℕ) : (bits w n).length = w := by simp [bits]

theorem ofBytes_cons (b : UInt8) (l : List UInt8) :
    ofBytes (b :: l) = bits 8 b.toNat ++ ofBytes l := rfl

@[simp] theorem length_ofBytes (l : List UInt8) : (ofBytes l).length = 8 * l.length := by
  induction l with
  | nil => rfl
  | cons b l ih =>
    rw [ofBytes_cons, List.length_append, length_bits, ih, List.length_cons]
    omega

theorem ofBytes_append (l m : List UInt8) : ofBytes (l ++ m) = ofBytes l ++ ofBytes m :=
  List.flatMap_append

/-- The bits of a number in two parts. -/
theorem bits_add (v w n : ℕ) : bits (v + w) n = bits v (n / 2 ^ w) ++ bits w n := by
  rw [bits, List.range_add, List.map_append, List.map_map, bits, bits]
  congr 1
  · refine List.map_congr_left fun i hi => ?_
    rw [Nat.testBit_div_two_pow]
    congr 1
    have := List.mem_range.mp hi
    omega
  · refine List.map_congr_left fun i _ => ?_
    rw [Function.comp_apply]
    congr 1
    omega

/-- Only the last bits of the number count. -/
theorem bits_mod (w n : ℕ) : bits w (n % 2 ^ w) = bits w n := by
  refine List.map_congr_left fun i hi => ?_
  have hlt : w - 1 - i < w := by
    have := List.mem_range.mp hi
    omega
  rw [Nat.testBit_mod_two_pow, decide_eq_true hlt, Bool.true_and]

theorem beBytes_succ (k n : ℕ) : beBytes (k + 1) n = UInt8.ofNat (n / 2 ^ (8 * k)) ::
    beBytes k n := by
  rw [beBytes, List.range_succ_eq_map, List.map_cons, List.map_map, beBytes]
  congr 1
  refine List.map_congr_left fun i _ => ?_
  have hi : k + 1 - 1 - (i + 1) = k - 1 - i := by omega
  rw [Function.comp_apply, Nat.succ_eq_add_one, hi]

theorem ofBytes_beBytes (k n : ℕ) : ofBytes (beBytes k n) = bits (8 * k) n := by
  induction k with
  | zero => rfl
  | succ k ih =>
    have hfirst : bits 8 (UInt8.ofNat (n / 2 ^ (8 * k))).toNat = bits 8 (n / 2 ^ (8 * k)) :=
      bits_mod 8 _
    rw [beBytes_succ, ofBytes_cons, ih, hfirst, Nat.mul_succ, Nat.add_comm, bits_add]

@[simp]
theorem length_beBytes (k n : ℕ) : (beBytes k n).length = k := by simp [beBytes]

/-- Only the last bytes of the number count. -/
theorem beBytes_mod (k n : ℕ) : beBytes k (n % 2 ^ (8 * k)) = beBytes k n := by
  refine List.map_congr_left fun i hi => UInt8.toNat_inj.mp ?_
  have hi := List.mem_range.mp hi
  generalize hj : k - 1 - i = j
  have hk : 8 * k = 8 * j + 8 + 8 * (k - 1 - j) := by omega
  have hdiv : n % 2 ^ (8 * k) / 2 ^ (8 * j) = n / 2 ^ (8 * j) % 2 ^ (8 + 8 * (k - 1 - j)) := by
    rw [hk, Nat.add_assoc, pow_add, Nat.mod_mul_right_div_self]
  rw [UInt8.toNat_ofNat', UInt8.toNat_ofNat', hdiv, pow_add, Nat.mod_mul_right_mod]

/-! ### Numbers -/

theorem value_append (l m : List Bool) : value (l ++ m) = value l * 2 ^ m.length + value m := by
  have key : ∀ (m : List Bool) (x : ℕ), m.foldl (fun n b => 2 * n + b.toNat) x =
      x * 2 ^ m.length + value m := by
    intro m
    induction m with
    | nil => exact fun x => (by simp [value])
    | cons b m ih =>
      intro x
      have hcons : value (b :: m) = b.toNat * 2 ^ m.length + value m := by
        rw [value, List.foldl_cons, ih, Nat.mul_zero, Nat.zero_add]
      rw [List.foldl_cons, ih, hcons, List.length_cons, pow_succ]
      ring
  rw [value, List.foldl_append, key]
  rfl

theorem value_bits_byte (b : UInt8) : value (bits 8 b.toNat) = b.toNat := by
  have key : ∀ n < 256, value (bits 8 n) = n := by decide +kernel
  exact key _ b.toNat_lt

theorem value_ofBytes (l : List UInt8) : value (ofBytes l) = beValue l := by
  have key : ∀ (l : List UInt8) (x : ℕ), l.foldl (fun n b => 256 * n + b.toNat) x =
      x * 2 ^ (8 * l.length) + value (ofBytes l) := by
    intro l
    induction l with
    | nil => exact fun x => (by simp [value, ofBytes])
    | cons b l ih =>
      intro x
      rw [List.foldl_cons, ih, ofBytes_cons, value_append, value_bits_byte, length_ofBytes,
        List.length_cons, Nat.mul_succ, pow_add]
      ring
  rw [beValue, key, Nat.zero_mul, Nat.zero_add]

/-! ### The padding -/

/-- On whole bytes the padding ends a byte before its zeros do. -/
theorem zeros_bytes (n : ℕ) : zeros (8 * n) = 7 + 8 * ((119 - n % 64) % 64) := by
  rw [zeros, Nat.find_eq_iff]
  constructor
  · omega
  · intro k hk
    omega

theorem ofBytes_replicate (k : ℕ) : ofBytes (List.replicate k 0) = List.replicate
    (8 * k) false := by
  induction k with
  | zero => rfl
  | succ k ih =>
    have hzero : bits 8 (0 : UInt8).toNat = List.replicate 8 false := by decide
    rw [List.replicate_succ, ofBytes_cons, ih, hzero, ← List.replicate_add, Nat.mul_succ,
      Nat.add_comm]

/-- The padding of a byte string, in bytes. -/
theorem pad_ofBytes (m : List UInt8) : pad (ofBytes m) = ofBytes (padBytes m) := by
  have hone : bits 8 (0x80 : UInt8).toNat = true :: List.replicate 7 false := by decide
  rw [pad, padBytes, length_ofBytes, zeros_bytes, ofBytes_append, ofBytes_append, ofBytes_beBytes,
    ofBytes_cons, ofBytes_replicate, hone, List.replicate_add]
  rfl

/-- The padded bytes are whole blocks. -/
theorem dvd_length_padBytes (m : List UInt8) : 64 ∣ (padBytes m).length := by
  simp only [padBytes, List.length_append, List.length_cons, List.length_replicate, length_beBytes]
  omega

/-! ### The blocks -/

theorem drop_ofBytes (l : List UInt8) (i : ℕ) : (ofBytes l).drop (8 * i) = ofBytes (l.drop i) := by
  induction i generalizing l with
  | zero => rfl
  | succ i ih =>
    cases l with
    | nil => rfl
    | cons b l =>
      rw [ofBytes_cons, Nat.mul_succ, Nat.add_comm, ← List.drop_drop,
        List.drop_left' (length_bits 8 _), ih, List.drop_succ_cons]

theorem take_ofBytes (l : List UInt8) (i : ℕ) : (ofBytes l).take (8 * i) = ofBytes (l.take i) := by
  induction i generalizing l with
  | zero => rfl
  | succ i ih =>
    cases l with
    | nil => rfl
    | cons b l =>
      rw [List.take_succ_cons, ofBytes_cons, ofBytes_cons, Nat.mul_succ, Nat.add_comm,
        List.take_add, List.take_left' (length_bits 8 _), List.drop_left' (length_bits 8 _), ih]

theorem blocks_ofBytes (l : List UInt8) :
    Streaming.blocks 512 (ofBytes l) = (Streaming.blocks 64 l).map ofBytes := by
  have hcount : 8 * l.length / 512 = l.length / 64 := by omega
  rw [Streaming.blocks, Streaming.blocks, List.map_map, length_ofBytes, hcount]
  refine List.map_congr_left fun i _ => ?_
  have hstart : 512 * i = 8 * (64 * i) := by omega
  rw [Function.comp_apply, hstart, drop_ofBytes]
  exact take_ofBytes _ 64

theorem wordOf_ofBytes (block : List UInt8) (t : ℕ) :
    wordOf (ofBytes block) t = byteWord block t := by
  have hstart : 32 * t = 8 * (4 * t) := by omega
  have htake : (ofBytes (block.drop (4 * t))).take 32 = ofBytes ((block.drop (4 * t)).take 4) :=
    take_ofBytes _ 4
  rw [wordOf, hstart, drop_ofBytes, htake, value_ofBytes, byteWord]

/-- The hash value of a byte string, by the blocks of its bytes. -/
theorem hashBlocks_ofBytes {σ : Type} (compress : σ → (ℕ → Word) → σ) (init : σ) (m : List UInt8) :
    hashBlocks compress init (ofBytes m) =
      (Streaming.blocks 64 (padBytes m)).foldl (fun h block => compress h (byteWord block))
      init := by
  rw [hashBlocks, pad_ofBytes, blocks_ofBytes, List.foldl_map]
  congr 1
  funext h block
  exact congrArg (compress h) (funext (wordOf_ofBytes block))

/-- The bits of a hash value are those of the bytes of its words. -/
theorem output_eq_ofBytes (ws : List Word) :
    output ws = ofBytes (ws.flatMap fun w => beBytes 4 w.toNat) := by
  induction ws with
  | nil => rfl
  | cons w ws ih =>
    rw [output, List.flatMap_cons, ← output, ih, List.flatMap_cons, ofBytes_append, ofBytes_beBytes]

end Fips180
