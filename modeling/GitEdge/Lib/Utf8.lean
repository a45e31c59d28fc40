import Mathlib.Data.List.Basic
import Mathlib.Data.Nat.Notation

/-!
# Reading bytes as text

`Utf8.lossy` reads bytes as UTF-8 and puts the replacement character for what is not: for each
longest piece that starts a character, or for one byte (the substitution of maximal subparts of the
Unicode standard). It gives back every text from its encoding (`lossy_encode`), and it gives a text
without the replacement character for the encoding of that text only (`encode_of_lossy`).
-/

namespace Utf8

/-- The bytes of a text. -/
def encode (l : List Char) : List UInt8 := l.flatMap String.utf8EncodeChar

/-- What stands for bytes that are no UTF-8. -/
def replacement : Char := Char.ofNat 0xfffd

/-- The byte continues a character. -/
def isTail (b : UInt8) : Bool := 0x80 ≤ b.toNat && b.toNat ≤ 0xbf

/-- The first two bytes of a character of more than one byte. -/
def starts (a b : UInt8) : Bool :=
  isTail b &&
    ((0xc2 ≤ a.toNat && a.toNat ≤ 0xdf) || (a.toNat = 0xe0 && 0xa0 ≤ b.toNat) ||
      (0xe1 ≤ a.toNat && a.toNat ≤ 0xec) || (a.toNat = 0xed && b.toNat ≤ 0x9f) ||
      (0xee ≤ a.toNat && a.toNat ≤ 0xef) || (a.toNat = 0xf0 && 0x90 ≤ b.toNat) ||
      (0xf1 ≤ a.toNat && a.toNat ≤ 0xf3) || (a.toNat = 0xf4 && b.toNat ≤ 0x8f))

/-- The characters of two, three and four bytes. -/
def char2 (a b : UInt8) : Char := Char.ofNat ((a.toNat - 0xc0) * 64 + (b.toNat - 0x80))

@[inherit_doc char2]
def char3 (a b c : UInt8) : Char :=
  Char.ofNat ((a.toNat - 0xe0) * 4096 + (b.toNat - 0x80) * 64 + (c.toNat - 0x80))

@[inherit_doc char2]
def char4 (a b c d : UInt8) : Char :=
  Char.ofNat ((a.toNat - 0xf0) * 262144 + (b.toNat - 0x80) * 4096 + (c.toNat - 0x80) * 64 +
    (d.toNat - 0x80))

/-- The bytes read as UTF-8, with the replacement character for what is not. -/
def lossy : List UInt8 → List Char
  | [] => []
  | a :: rest =>
    if a.toNat < 0x80 then Char.ofNat a.toNat :: lossy rest
    else
      match rest with
      | [] => [replacement]
      | b :: rest' =>
        if !starts a b then replacement :: lossy (b :: rest')
        else if a.toNat < 0xe0 then char2 a b :: lossy rest'
        else
          match rest' with
          | [] => [replacement]
          | c :: rest'' =>
            if !isTail c then replacement :: lossy (c :: rest'')
            else if a.toNat < 0xf0 then char3 a b c :: lossy rest''
            else
              match rest'' with
              | [] => [replacement]
              | d :: rest''' =>
                if !isTail d then replacement :: lossy (d :: rest''')
                else char4 a b c d :: lossy rest'''

/-! ## Characters and their bytes -/

theorem toNat_ofNat {n : ℕ} (h : n.isValidChar) : (Char.ofNat n).toNat = n := by
  rw [Char.ofNat, dif_pos h]
  exact UInt32.toNat_ofNatLT

theorem isValidChar_toNat (c : Char) : c.toNat.isValidChar := c.valid

theorem ofNat_toNat {n : ℕ} (b : UInt8) (h : n = b.toNat) : UInt8.ofNat n = b := by
  rw [h]
  exact UInt8.ofNat_toNat

theorem toNat_byte {n : ℕ} (h : n < 256) : (UInt8.ofNat n).toNat = n :=
  UInt8.toNat_ofNat_of_lt h

/-- The bytes of a character, by its number. -/
theorem encodeChar_eq (c : Char) :
    String.utf8EncodeChar c =
      if c.toNat ≤ 127 then [UInt8.ofNat c.toNat]
      else if c.toNat ≤ 2047 then
        [UInt8.ofNat (c.toNat / 64 % 32 + 192), UInt8.ofNat (c.toNat % 64 + 128)]
      else if c.toNat ≤ 65535 then
        [UInt8.ofNat (c.toNat / 4096 % 16 + 224), UInt8.ofNat (c.toNat / 64 % 64 + 128),
          UInt8.ofNat (c.toNat % 64 + 128)]
      else
        [UInt8.ofNat (c.toNat / 262144 % 8 + 240), UInt8.ofNat (c.toNat / 4096 % 64 + 128),
          UInt8.ofNat (c.toNat / 64 % 64 + 128), UInt8.ofNat (c.toNat % 64 + 128)] := rfl

theorem starts_iff {a b : UInt8} : starts a b = true ↔ (0x80 ≤ b.toNat ∧ b.toNat ≤ 0xbf) ∧
    ((0xc2 ≤ a.toNat ∧ a.toNat ≤ 0xdf) ∨ (a.toNat = 0xe0 ∧ 0xa0 ≤ b.toNat) ∨
      (0xe1 ≤ a.toNat ∧ a.toNat ≤ 0xec) ∨ (a.toNat = 0xed ∧ b.toNat ≤ 0x9f) ∨
      (0xee ≤ a.toNat ∧ a.toNat ≤ 0xef) ∨ (a.toNat = 0xf0 ∧ 0x90 ≤ b.toNat) ∨
      (0xf1 ≤ a.toNat ∧ a.toNat ≤ 0xf3) ∨ (a.toNat = 0xf4 ∧ b.toNat ≤ 0x8f)) := by
  simp only [starts, isTail, Bool.and_eq_true, Bool.or_eq_true, decide_eq_true_eq, or_assoc]

theorem isTail_iff {b : UInt8} : isTail b = true ↔ 0x80 ≤ b.toNat ∧ b.toNat ≤ 0xbf := by
  simp [isTail]

/-! ## From text to bytes and back -/

/-- The bytes of a character are read as the character. -/
theorem lossy_encodeChar (c : Char) (rest : List UInt8) :
    lossy (String.utf8EncodeChar c ++ rest) = c :: lossy rest := by
  have hvalid := isValidChar_toNat c
  have hback : ∀ n, n = c.toNat → Char.ofNat n = c := fun n hn => by rw [hn, Char.ofNat_toNat]
  generalize hn : c.toNat = n at hvalid
  rw [encodeChar_eq, hn]
  unfold Nat.isValidChar at hvalid
  split_ifs with h1 h2 h3
  · have ha : (UInt8.ofNat n).toNat = n := toNat_byte (by omega)
    rw [List.singleton_append, lossy.eq_def]
    dsimp only
    rw [if_pos (by omega), hback _ (by omega)]
  · have ha : (UInt8.ofNat (n / 64 % 32 + 192)).toNat = n / 64 % 32 + 192 := toNat_byte (by omega)
    have hb : (UInt8.ofNat (n % 64 + 128)).toNat = n % 64 + 128 := toNat_byte (by omega)
    generalize UInt8.ofNat (n / 64 % 32 + 192) = a at ha ⊢
    generalize UInt8.ofNat (n % 64 + 128) = b at hb ⊢
    have hstarts : starts a b = true := starts_iff.mpr (by omega)
    rw [List.cons_append, List.singleton_append, lossy.eq_def]
    simp only [hstarts, Bool.not_true, Bool.false_eq_true, if_false]
    rw [if_neg (by omega), if_pos (by omega), char2, hback _ (by omega)]
  · have ha : (UInt8.ofNat (n / 4096 % 16 + 224)).toNat = n / 4096 % 16 + 224 :=
      toNat_byte (by omega)
    have hb : (UInt8.ofNat (n / 64 % 64 + 128)).toNat = n / 64 % 64 + 128 := toNat_byte (by omega)
    have hc : (UInt8.ofNat (n % 64 + 128)).toNat = n % 64 + 128 := toNat_byte (by omega)
    generalize UInt8.ofNat (n / 4096 % 16 + 224) = a at ha ⊢
    generalize UInt8.ofNat (n / 64 % 64 + 128) = b at hb ⊢
    generalize UInt8.ofNat (n % 64 + 128) = d at hc ⊢
    have hstarts : starts a b = true := starts_iff.mpr (by omega)
    have htail : isTail d = true := isTail_iff.mpr (by omega)
    simp only [List.cons_append, List.nil_append]
    rw [lossy.eq_def]
    simp only [hstarts, htail, Bool.not_true, Bool.false_eq_true, if_false]
    rw [if_neg (by omega), if_neg (by omega), if_pos (by omega), char3, hback _ (by omega)]
  · have ha : (UInt8.ofNat (n / 262144 % 8 + 240)).toNat = n / 262144 % 8 + 240 :=
      toNat_byte (by omega)
    have hb : (UInt8.ofNat (n / 4096 % 64 + 128)).toNat = n / 4096 % 64 + 128 :=
      toNat_byte (by omega)
    have hc : (UInt8.ofNat (n / 64 % 64 + 128)).toNat = n / 64 % 64 + 128 := toNat_byte (by omega)
    have hd : (UInt8.ofNat (n % 64 + 128)).toNat = n % 64 + 128 := toNat_byte (by omega)
    generalize UInt8.ofNat (n / 262144 % 8 + 240) = a at ha ⊢
    generalize UInt8.ofNat (n / 4096 % 64 + 128) = b at hb ⊢
    generalize UInt8.ofNat (n / 64 % 64 + 128) = d at hc ⊢
    generalize UInt8.ofNat (n % 64 + 128) = e at hd ⊢
    have hstarts : starts a b = true := starts_iff.mpr (by omega)
    have htail : isTail d = true := isTail_iff.mpr (by omega)
    have htail' : isTail e = true := isTail_iff.mpr (by omega)
    simp only [List.cons_append, List.nil_append]
    rw [lossy.eq_def]
    simp only [hstarts, htail, htail', Bool.not_true, Bool.false_eq_true, if_false]
    rw [if_neg (by omega), if_neg (by omega), if_neg (by omega), char4, hback _ (by omega)]

/-- The bytes of a text are read as the text. -/
theorem lossy_encode (l : List Char) (rest : List UInt8) :
    lossy (encode l ++ rest) = l ++ lossy rest := by
  induction l with
  | nil => rfl
  | cons c l ih =>
    rw [encode, List.flatMap_cons, List.append_assoc, lossy_encodeChar, List.cons_append]
    exact congrArg _ ih

/-- The first character that is read is the replacement, or its bytes stand at the front. -/
theorem lossy_cons (a : UInt8) (rest : List UInt8) :
    ∃ c rest', lossy (a :: rest) = c :: lossy rest' ∧ rest'.length ≤ rest.length ∧
      (c = replacement ∨ a :: rest = String.utf8EncodeChar c ++ rest') := by
  have hbyte := a.toNat_lt
  rw [lossy.eq_def]
  dsimp only
  by_cases ha : a.toNat < 0x80
  · have hchar : (Char.ofNat a.toNat).toNat = a.toNat := toNat_ofNat (.inl (by omega))
    refine ⟨_, rest, if_pos ha, Nat.le_refl _, .inr ?_⟩
    rw [encodeChar_eq, hchar, if_pos (by omega), UInt8.ofNat_toNat]
    rfl
  rw [if_neg ha]
  cases rest with
  | nil => exact ⟨_, [], rfl, Nat.le_refl _, .inl rfl⟩
  | cons b rest =>
    by_cases hstarts : starts a b = true
    swap
    · refine ⟨_, b :: rest, by simp only [hstarts, Bool.not_false, if_true],
        Nat.le_refl _, .inl rfl⟩
    have hab := starts_iff.mp hstarts
    simp only [hstarts, Bool.not_true, Bool.false_eq_true, if_false]
    by_cases h2 : a.toNat < 0xe0
    · have hchar : (char2 a b).toNat = (a.toNat - 0xc0) * 64 + (b.toNat - 0x80) :=
        toNat_ofNat (.inl (by omega))
      refine ⟨_, rest, if_pos h2, by simp, .inr ?_⟩
      rw [encodeChar_eq, if_neg (by omega), if_pos (by omega),
        ofNat_toNat a (by omega), ofNat_toNat b (by omega)]
      rfl
    rw [if_neg h2]
    cases rest with
    | nil => exact ⟨_, [], rfl, by simp, .inl rfl⟩
    | cons c rest =>
      by_cases hc : isTail c = true
      swap
      · refine ⟨_, c :: rest, by simp only [hc, Bool.not_false, if_true], by simp, .inl rfl⟩
      have hc' := isTail_iff.mp hc
      simp only [hc, Bool.not_true, Bool.false_eq_true, if_false]
      by_cases h3 : a.toNat < 0xf0
      · have hchar : (char3 a b c).toNat =
            (a.toNat - 0xe0) * 4096 + (b.toNat - 0x80) * 64 + (c.toNat - 0x80) :=
          toNat_ofNat (by unfold Nat.isValidChar; omega)
        refine ⟨_, rest, if_pos h3, by simp only [List.length_cons]; omega, .inr ?_⟩
        rw [encodeChar_eq, if_neg (by omega), if_neg (by omega), if_pos (by omega),
          ofNat_toNat a (by omega), ofNat_toNat b (by omega), ofNat_toNat c (by omega)]
        rfl
      rw [if_neg h3]
      cases rest with
      | nil => exact ⟨_, [], rfl, by simp, .inl rfl⟩
      | cons d rest =>
        by_cases hd : isTail d = true
        swap
        · refine ⟨_, d :: rest, by simp only [hd, Bool.not_false, if_true], by simp, .inl rfl⟩
        have hd' := isTail_iff.mp hd
        have hchar : (char4 a b c d).toNat = (a.toNat - 0xf0) * 262144 + (b.toNat - 0x80) * 4096 +
            (c.toNat - 0x80) * 64 + (d.toNat - 0x80) :=
          toNat_ofNat (by unfold Nat.isValidChar; omega)
        simp only [hd, Bool.not_true, Bool.false_eq_true, if_false]
        refine ⟨_, rest, rfl, by simp only [List.length_cons]; omega, .inr ?_⟩
        rw [encodeChar_eq, if_neg (by omega), if_neg (by omega), if_neg (by omega),
          ofNat_toNat a (by omega), ofNat_toNat b (by omega), ofNat_toNat c (by omega),
          ofNat_toNat d (by omega)]
        rfl

/-- Bytes that are read without the replacement character are the encoding of what is read. -/
theorem encode_of_lossy : ∀ (n : ℕ) (bytes : List UInt8), bytes.length ≤ n →
    replacement ∉ lossy bytes → encode (lossy bytes) = bytes := by
  intro n
  induction n with
  | zero =>
    intro bytes hlen _
    rw [List.length_eq_zero_iff.mp (Nat.le_zero.mp hlen)]
    rfl
  | succ n ih =>
    intro bytes hlen hno
    cases bytes with
    | nil => rfl
    | cons a rest =>
      obtain ⟨c, rest', hread, hle, hfront⟩ := lossy_cons a rest
      rw [hread] at hno ⊢
      rw [List.mem_cons, not_or] at hno
      have hbytes := hfront.resolve_left (Ne.symm hno.1)
      rw [List.length_cons] at hlen
      rw [encode, List.flatMap_cons]
      conv_rhs => rw [hbytes]
      exact congrArg _ (ih rest' (by omega) hno.2)

/-- A byte that no character has is read as the replacement character. -/
theorem lossy_ff (rest : List UInt8) : lossy (0xff :: rest) = replacement :: lossy rest := by
  cases rest with
  | nil => rfl
  | cons b rest =>
    have hstarts : starts 0xff b = false := by
      rw [Bool.eq_false_iff, Ne, starts_iff, show (0xff : UInt8).toNat = 255 from rfl]
      omega
    rw [lossy.eq_def]
    dsimp only
    rw [if_neg (by decide), hstarts]
    rfl

end Utf8
