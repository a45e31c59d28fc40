import Mathlib.Data.List.DropRight
import GitEdge.Lib.Base64
import GitEdge.Lib.Utf8
import GitEdge.Repo.Patterns

/-!
# The credentials of a request

`credentials` of `auth/mod.rs` takes the token and the principal from the `Authorization` header: a
bearer token, or the base64 text of `user:token`. The decoder of the text, `b64_decode`, is written
by hand. It reads up to four characters in a round: a first character that is not in the alphabet
ends it, but the other three count as zero bits when they are not. So the decoder reads back what
was encoded, and refuses a text of a length that no encoding has; it refuses a foreign character
only at the places that are a multiple of four (`b64Decode_eq_none_iff`).
-/

namespace GitEdge

/-! ## The decoder -/

/-- The function `v` of `b64_decode`: the six bits of a character. -/
def b64Value (b : UInt8) : Option UInt8 :=
  if 65 ≤ b ∧ b ≤ 90 then some (b - 65)
  else if 97 ≤ b ∧ b ≤ 122 then some (b - 97 + 26)
  else if 48 ≤ b ∧ b ≤ 57 then some (b - 48 + 52)
  else if b = 43 then some 62
  else if b = 47 then some 63
  else none

/-- The bits of a character that is not the first of its round: those of a foreign one are zero. -/
def b64Bits (b : UInt8) : UInt8 := (b64Value b).getD 0

/-- The loop of `b64_decode`, four characters in a round. -/
def b64Rounds : List UInt8 → Option (List UInt8)
  | [] => some []
  | [a] => (b64Value a).bind fun _ => none
  | [a, b] => (b64Value a).bind fun a => some [(a <<< 2) ||| (b64Bits b >>> 4)]
  | [a, b, c] => (b64Value a).bind fun a =>
      some [(a <<< 2) ||| (b64Bits b >>> 4), (b64Bits b <<< 4) ||| (b64Bits c >>> 2)]
  | a :: b :: c :: d :: rest => (b64Value a).bind fun a =>
      (b64Rounds rest).map fun out =>
        ((a <<< 2) ||| (b64Bits b >>> 4)) :: ((b64Bits b <<< 4) ||| (b64Bits c >>> 2)) ::
          ((b64Bits c <<< 6) ||| b64Bits d) :: out

/-- The bytes of a text without the `=` characters at its end. -/
def trimPads (s : List UInt8) : List UInt8 := s.rdropWhile (· = Base64.pad)

/-- `b64_decode`, on the bytes of the text. -/
def b64Decode (s : List UInt8) : Option (List UInt8) := b64Rounds (trimPads s)

/-! ## What it reads back -/

theorem b64Value_digit {n : ℕ} (h : n < 64) : b64Value (Base64.digit n) = some (UInt8.ofNat n) := by
  interval_cases n <;> decide

theorem b64Bits_digit {n : ℕ} (h : n < 64) : b64Bits (Base64.digit n) = UInt8.ofNat n := by
  rw [b64Bits, b64Value_digit h]
  rfl

/-- Bits side by side: `v` fills the places that the shift of `u` leaves. -/
theorem toNat_shiftLeft_or (u v k : UInt8) (hk : k.toNat < 8) (hv : v.toNat < 2^k.toNat) :
    ((u <<< k) ||| v).toNat = u.toNat * 2^k.toNat % 256 + v.toNat := by
  have hsplit : (256 : ℕ) = 2^(8 - k.toNat) * 2^k.toNat := by
    rw [← pow_add, Nat.sub_add_cancel hk.le]
    rfl
  have hshift : u.toNat * 2^k.toNat % 256 = (u.toNat % 2^(8 - k.toNat)) <<< k.toNat := by
    rw [Nat.shiftLeft_eq, hsplit, Nat.mul_mod_mul_right]
  rw [UInt8.toNat_or, UInt8.toNat_shiftLeft, Nat.mod_eq_of_lt hk, Nat.shiftLeft_eq,
    show (2 : ℕ)^8 = 256 from rfl, hshift, Nat.shiftLeft_add_eq_or_of_lt hv]

section Group

variable (x y z : UInt8)

/-- The first byte of a group, from its first two digits. -/
theorem first_byte : (UInt8.ofNat (Base64.group x y z / 2^18) <<< 2) |||
    (UInt8.ofNat (Base64.group x y z / 2^12 % 64) >>> 4) = x := by
  have hx := x.toNat_lt
  have hy := y.toNat_lt
  have hz := z.toNat_lt
  have hlow : (UInt8.ofNat (Base64.group x y z / 2^12 % 64) >>> 4).toNat = x.toNat % 4 := by
    simp [UInt8.toNat_shiftRight, Nat.shiftRight_eq_div_pow, Base64.group]
    omega
  apply UInt8.toNat_inj.mp
  rw [toNat_shiftLeft_or _ _ _ (by decide) (by rw [hlow]; exact Nat.mod_lt _ (by decide)), hlow]
  simp [Base64.group]
  omega

/-- The second byte, from the second and the third digit. -/
theorem second_byte : (UInt8.ofNat (Base64.group x y z / 2^12 % 64) <<< 4) |||
    (UInt8.ofNat (Base64.group x y z / 2^6 % 64) >>> 2) = y := by
  have hx := x.toNat_lt
  have hy := y.toNat_lt
  have hz := z.toNat_lt
  have hlow : (UInt8.ofNat (Base64.group x y z / 2^6 % 64) >>> 2).toNat = y.toNat % 16 := by
    simp [UInt8.toNat_shiftRight, Nat.shiftRight_eq_div_pow, Base64.group]
    omega
  apply UInt8.toNat_inj.mp
  rw [toNat_shiftLeft_or _ _ _ (by decide) (by rw [hlow]; exact Nat.mod_lt _ (by decide)), hlow]
  simp [Base64.group]
  omega

/-- The third byte, from the third and the fourth digit. -/
theorem third_byte : (UInt8.ofNat (Base64.group x y z / 2^6 % 64) <<< 6) |||
    UInt8.ofNat (Base64.group x y z % 64) = z := by
  have hx := x.toNat_lt
  have hy := y.toNat_lt
  have hz := z.toNat_lt
  have hlow : (UInt8.ofNat (Base64.group x y z % 64)).toNat = z.toNat % 64 := by
    simp [Base64.group]
    omega
  apply UInt8.toNat_inj.mp
  rw [toNat_shiftLeft_or _ _ _ (by decide) (by rw [hlow]; exact Nat.mod_lt _ (by decide)), hlow]
  simp [Base64.group]
  omega

end Group

/-- The rounds read back an encoding. -/
theorem b64Rounds_encode (x : List UInt8) : b64Rounds (Base64.encode x) = some x := by
  fun_induction Base64.encode x with
  | case1 => rfl
  | case2 x n =>
    have hn := Base64.group_lt x 0 0
    rw [b64Rounds, b64Value_digit (by omega), Option.bind_some,
      b64Bits_digit (by omega), first_byte]
  | case3 x y n =>
    have hn := Base64.group_lt x y 0
    rw [b64Rounds, b64Value_digit (by omega), Option.bind_some, b64Bits_digit (by omega),
      b64Bits_digit (by omega), first_byte, second_byte]
  | case4 x y z rest n ih =>
    have hn := Base64.group_lt x y z
    rw [b64Rounds, b64Value_digit (by omega), Option.bind_some, b64Bits_digit (by omega),
      b64Bits_digit (by omega), b64Bits_digit (by omega), ih, Option.map_some, first_byte,
      second_byte, third_byte]

/-- An encoding ends in no padding. -/
theorem trimPads_encode (x : List UInt8) : trimPads (Base64.encode x) = Base64.encode x := by
  rw [trimPads, List.rdropWhile_eq_self_iff]
  intro hne hlast
  exact Base64.getLast?_encode_ne x _ (List.getLast?_eq_some_getLast hne) (of_decide_eq_true hlast)

/-- The padding is dropped. -/
theorem trimPads_append_replicate (s : List UInt8) (n : ℕ) :
    trimPads (s ++ List.replicate n Base64.pad) = trimPads s := by
  induction n with
  | zero => rw [List.replicate_zero, List.append_nil]
  | succ n ih =>
    rw [List.replicate_succ', ← List.append_assoc, trimPads, List.rdropWhile_concat_pos _ _
      _ (by simp)]
    exact ih

/-- The decoder reads back an encoding, with its padding or without. -/
theorem b64Decode_encode (x : List UInt8) :
    b64Decode (Base64.encode x) = some x ∧ b64Decode (Base64.encodePadded x) = some x := by
  unfold b64Decode Base64.encodePadded
  rw [trimPads_append_replicate, trimPads_encode, b64Rounds_encode]
  exact ⟨rfl, rfl⟩

/-! ## What it refuses -/

theorem b64Value_eq_none_iff (b : UInt8) : b64Value b = none ↔ b ∉ Base64.alphabet := by
  have hall : ∀ n : Fin 256, b64Value (UInt8.ofNat n) = none ↔ UInt8.ofNat n ∉ Base64.alphabet := by
    decide +kernel
  have hb := hall ⟨b.toNat, b.toNat_lt⟩
  rwa [UInt8.ofNat_toNat] at hb

/-- A character outside the alphabet stands at the first place of a round. -/
def LeadsForeign (s : List UInt8) : Prop := ∃ i b, s[4 * i]? = some b ∧ b ∉ Base64.alphabet

theorem leadsForeign_cons {a b c d : UInt8} {rest : List UInt8} :
    LeadsForeign (a :: b :: c :: d :: rest) ↔ a ∉ Base64.alphabet ∨ LeadsForeign rest := by
  constructor
  · rintro ⟨i, x, hx, hforeign⟩
    cases i with
    | zero =>
      cases hx
      exact .inl hforeign
    | succ i => exact .inr ⟨i, x, hx, hforeign⟩
  · rintro (ha | ⟨i, x, hx, hforeign⟩)
    · exact ⟨0, a, rfl, ha⟩
    · exact ⟨i + 1, x, hx, hforeign⟩

/-- Within one round, the only first place is the first of all. -/
theorem leadsForeign_short {a : UInt8} {rest : List UInt8} (h : rest.length < 4) :
    LeadsForeign (a :: rest) ↔ a ∉ Base64.alphabet := by
  constructor
  · rintro ⟨i, x, hx, hforeign⟩
    have hlt := (List.getElem?_eq_some_iff.mp hx).1
    rw [List.length_cons] at hlt
    have hi : i = 0 := by omega
    subst hi
    cases hx
    exact hforeign
  · exact fun ha => ⟨0, a, rfl, ha⟩

/-- The rounds end without a result at a foreign first character, or at a character that is alone in
its round. -/
theorem b64Rounds_eq_none_iff (s : List UInt8) :
    b64Rounds s = none ↔ s.length % 4 = 1 ∨ LeadsForeign s := by
  fun_induction b64Rounds s with
  | case1 => simp [LeadsForeign]
  | case2 a => simp
  | case3 a b =>
    rw [leadsForeign_short (by simp), ← b64Value_eq_none_iff]
    cases b64Value a <;> simp
  | case4 a b c =>
    rw [leadsForeign_short (by simp), ← b64Value_eq_none_iff]
    cases b64Value a <;> simp
  | case5 a b c d rest ih =>
    have hlen : (a :: b :: c :: d :: rest).length % 4 = rest.length % 4 := by
      simp only [List.length_cons]
      omega
    rw [leadsForeign_cons, ← b64Value_eq_none_iff, hlen]
    cases b64Value a with
    | none => simp
    | some v => simpa using ih

/-- The text without its padding is no encoding: it has a foreign character, or a last round of one
character. -/
def Malformed (s : List UInt8) : Prop :=
  (∃ b ∈ trimPads s, b ∉ Base64.alphabet) ∨ (trimPads s).length % 4 = 1

theorem b64Decode_eq_none_iff (s : List UInt8) :
    b64Decode s = none ↔ (trimPads s).length % 4 = 1 ∨ LeadsForeign (trimPads s) :=
  b64Rounds_eq_none_iff _

/-- The decoder reads back every encoding, with its padding or without. It refuses a malformed text
exactly if, where the text has a foreign character, its last round has one character or a foreign
character leads a round. -/
theorem b64Decode_exact_iff (x s : List UInt8) :
    (b64Decode (Base64.encode x) = some x ∧ b64Decode (Base64.encodePadded x) = some x ∧
        (Malformed s → b64Decode s = none)) ↔
      ((∃ b ∈ trimPads s, b ∉ Base64.alphabet) →
        (trimPads s).length % 4 = 1 ∨ LeadsForeign (trimPads s)) := by
  obtain ⟨hplain, hpadded⟩ := b64Decode_encode x
  rw [b64Decode_eq_none_iff]
  constructor
  · rintro ⟨-, -, hrefused⟩ hforeign
    exact hrefused (.inl hforeign)
  · intro h
    refine ⟨hplain, hpadded, ?_⟩
    rintro (hforeign | hlen)
    · exact h hforeign
    · exact .inl hlen

/-- `AAA!` has a foreign character, and is decoded. -/
theorem b64Decode_foreign :
    Malformed [65, 65, 65, 33] ∧ b64Decode [65, 65, 65, 33] = some [0, 0, 0] := by
  unfold Malformed
  decide +kernel

/-! ## The header -/

/-- `scheme`: what follows the name of the scheme and a blank. -/
def scheme (hdr name : String) : Option String :=
  let (s, rest) := hdr.toList.splitAt name.length
  if s.map Char.toLower = name.toList.map Char.toLower ∧ rest.head? = some ' ' then
    some (String.ofList rest.tail)
  else none

/-- The token and the principal in the decoded text of the `Basic` scheme: the user names the
principal, and the password is the token. -/
def userAndToken (s : List Char) : String × String :=
  if ':' ∈ s then
    let user := s.takeWhile (· ≠ ':')
    (String.ofList (s.drop (user.length + 1)), if user = [] then "basic" else String.ofList user)
  else (String.ofList s, "basic")

/-- The token and the principal of a header, by its scheme. -/
def presented (hdr : String) : Except Error (String × String) :=
  match scheme hdr "Bearer" with
  | some t => .ok (trim t, "bearer")
  | none =>
    match scheme hdr "Basic" with
    | some b =>
      match b64Decode (Utf8.encode (trim b).toList) with
      | some decoded => .ok (userAndToken (Utf8.lossy decoded))
      | none => .error .auth
    | none => .error .auth

/-- `credentials`: the token and the principal of the `Authorization` header. An empty token is
refused. -/
def credentials (hdr : Option String) : Except Error (String × String) :=
  match hdr.elim (.error .auth) presented with
  | .ok (token, principal) => if token = "" then .error .auth else .ok (token, principal)
  | .error e => .error e

theorem scheme_append (name : String) (rest : List Char) :
    scheme (String.ofList (name.toList ++ ' ' :: rest)) name = some (String.ofList rest) := by
  have hsplit : (name.toList ++ ' ' :: rest).splitAt name.length = (name.toList, ' ' :: rest) := by
    rw [List.splitAt_eq, ← String.length_toList, List.take_left, List.drop_left]
  rw [scheme, String.toList_ofList, hsplit]
  exact if_pos ⟨rfl, rfl⟩

/-- The text of ASCII codes. -/
def asciiText (bytes : List UInt8) : List Char := bytes.map fun b => Char.ofNat b.toNat

theorem encode_asciiText {bytes : List UInt8} (h : ∀ b ∈ bytes, b.toNat < 128) :
    Utf8.encode (asciiText bytes) = bytes := by
  induction bytes with
  | nil => rfl
  | cons b bytes ih =>
    obtain ⟨hb, hbytes⟩ := List.forall_mem_cons.mp h
    have hchar : (Char.ofNat b.toNat).toNat = b.toNat := Utf8.toNat_ofNat (.inl (by omega))
    rw [asciiText, List.map_cons, Utf8.encode, List.flatMap_cons, Utf8.encodeChar_eq, hchar,
      if_pos (by omega), UInt8.ofNat_toNat]
    exact congrArg _ (ih hbytes)

/-- The characters of a padded encoding are ASCII, and no white space. -/
theorem plain_of_mem_encodePadded {x : List UInt8} {b : UInt8} (h : b ∈ Base64.encodePadded x) :
    b.toNat < 128 ∧ isWhite (Char.ofNat b.toNat) = false := by
  have hall : ∀ b ∈ Base64.pad :: Base64.alphabet,
      b.toNat < 128 ∧ isWhite (Char.ofNat b.toNat) = false := by
    decide +kernel
  rcases List.mem_append.mp h with h | h
  · exact hall b (List.mem_cons_of_mem _ (Base64.mem_alphabet_of_mem_encode x b h))
  · rw [List.eq_of_mem_replicate h]
    exact hall _ List.mem_cons_self

theorem trim_asciiText {bytes : List UInt8}
    (h : ∀ b ∈ bytes, isWhite (Char.ofNat b.toNat) = false) :
    trim (String.ofList (asciiText bytes)) = String.ofList (asciiText bytes) := by
  have hall : ∀ c ∈ asciiText bytes, isWhite c = false := by
    intro c hc
    obtain ⟨b, hb, rfl⟩ := List.mem_map.mp hc
    exact h b hb
  apply trim_eq_self
  · intro c hc
    rw [String.toList_ofList] at hc
    exact hall c (List.mem_of_mem_head? hc)
  · intro c hc
    rw [String.toList_ofList] at hc
    exact hall c (List.mem_of_getLast? hc)

theorem userAndToken_append {user : List Char} (token : List Char) (huser : ':' ∉ user) :
    userAndToken (user ++ ':' :: token) =
      (String.ofList token, if user = [] then "basic" else String.ofList user) := by
  have htake : (user ++ ':' :: token).takeWhile (· ≠ ':') = user := by
    rw [List.takeWhile_append_of_pos (by intro c hc; simp; rintro rfl; exact huser hc)]
    simp
  rw [userAndToken, if_pos (by simp)]
  dsimp only
  rw [htake]
  simp

/-- What git sends for a user and a token is read as the token, with the user as the principal. -/
theorem credentials_basic {user token : List Char} (huser : ':' ∉ user) (htoken : token ≠ []) :
    credentials (some (String.ofList ("Basic".toList ++ ' ' :: asciiText
        (Base64.encodePadded (Utf8.encode (user ++ ':' :: token)))))) =
      .ok (String.ofList token, if user = [] then "basic" else String.ofList user) := by
  set text := Base64.encodePadded (Utf8.encode (user ++ ':' :: token)) with htext
  have hplain : ∀ b ∈ text, b.toNat < 128 ∧ isWhite (Char.ofNat b.toNat) = false :=
    fun b hb => plain_of_mem_encodePadded hb
  have hbearer : scheme (String.ofList ("Basic".toList ++ ' ' :: asciiText text))
      "Bearer" = none := by
    have hlen : "Bearer".length = 6 := by decide
    rw [scheme, String.toList_ofList, hlen]
    simp
  have hdecode : b64Decode (Utf8.encode (trim (String.ofList (asciiText text))).toList) =
      some (Utf8.encode (user ++ ':' :: token)) := by
    rw [trim_asciiText fun b hb => (hplain b hb).2, String.toList_ofList,
      encode_asciiText fun b hb => (hplain b hb).1, htext]
    exact (b64Decode_encode _).2
  have hlossy : Utf8.lossy (Utf8.encode (user ++ ':' :: token)) = user ++ ':' :: token := by
    simpa [Utf8.lossy] using Utf8.lossy_encode (user ++ ':' :: token) []
  have hpresented : presented (String.ofList ("Basic".toList ++ ' ' :: asciiText text)) =
      .ok (String.ofList token, if user = [] then "basic" else String.ofList user) := by
    rw [presented, hbearer, scheme_append]
    dsimp only
    rw [hdecode]
    dsimp only
    rw [hlossy, userAndToken_append token huser]
  have hne : String.ofList token ≠ "" := by simpa using htoken
  rw [credentials, Option.elim_some, hpresented]
  exact if_neg hne

theorem credentials_basic_user : credentials (some (String.ofList ("Basic".toList ++ ' ' ::
    asciiText (Base64.encodePadded (Utf8.encode ['u', ':', 't']))))) =
      .ok (String.ofList ['t'], String.ofList ['u']) :=
  @credentials_basic ['u'] ['t'] (by decide) (by decide)

end GitEdge
