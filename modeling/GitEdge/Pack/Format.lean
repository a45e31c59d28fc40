import GitEdge.Lib.Inflate
import GitEdge.Pack.Entries
import GitEdge.Store.Hashes
import GitEdge.Store.Writer

/-!
# Packs as git writes them

The modules about packs have the libraries that read them as parameters. Here are libraries that
meet what is asked of those: the headers of packs and entries, the ids of objects, the digests of
`Store.Hashes`, and zlib streams of stored blocks. A stream with compressed blocks is an error to
them.
-/

namespace GitEdge

open Fips180 (beBytes beValue)

/-! ## Headers -/

/-- A parser of the front of some bytes: a value, and how many bytes it took. -/
abbrev FrontParser (α : Type) := List UInt8 → Option (α × ℕ)

namespace FrontParser

variable {α β : Type}

/-- A parser, and another one on what it left. -/
def next (p : FrontParser α) (q : α → FrontParser β) : FrontParser β := fun d =>
  (p d).bind fun r => (q r.1 (d.drop r.2)).map fun t => (t.1, r.2 + t.2)

/-- What is read from some bytes is read the same from more. -/
def Stable (p : FrontParser α) : Prop :=
  ∀ d r, p d = some r → r.2 ≤ d.length ∧ ∀ d', p (d ++ d') = some r

theorem Stable.next {p : FrontParser α} {q : α → FrontParser β} (hp : p.Stable)
    (hq : ∀ a, (q a).Stable) : (p.next q).Stable := by
  intro d t h
  obtain ⟨r, hr, h⟩ := Option.bind_eq_some_iff.mp h
  obtain ⟨t', ht', rfl⟩ := Option.map_eq_some_iff.mp h
  obtain ⟨hle, hmore⟩ := hp d r hr
  obtain ⟨hle', hmore'⟩ := hq r.1 _ t' ht'
  rw [List.length_drop] at hle'
  refine ⟨by dsimp only; omega, fun d' => ?_⟩
  simp only [FrontParser.next, hmore d', Option.bind_some, List.drop_append_of_le_length hle,
    hmore' d', Option.map_some]

/-- Takes nothing. -/
def done (a : α) : FrontParser α := fun _ => some (a, 0)

theorem stable_done (a : α) : (done a).Stable := by
  rintro d r ⟨⟩
  exact ⟨Nat.zero_le _, fun _ => rfl⟩

/-- So many bytes. -/
def bytes (n : ℕ) : FrontParser (List UInt8) := fun d =>
  if n ≤ d.length then some (d.take n, n) else none

theorem stable_bytes (n : ℕ) : (bytes n).Stable := by
  intro d r h
  unfold bytes at h
  split_ifs at h with hle
  cases h
  refine ⟨hle, fun d' => ?_⟩
  have hle' : n ≤ (d ++ d').length := by
    rw [List.length_append]
    omega
  rw [bytes, if_pos hle', List.take_append_of_le_length hle]

/-- Seven bits of each byte, as long as its eighth bit says that there are more. -/
def leb : FrontParser (List ℕ)
  | [] => none
  | c :: d =>
    if c < 128 then some ([c.toNat], 1)
    else (leb d).map fun r => ((c.toNat - 128) :: r.1, r.2 + 1)

theorem stable_leb : leb.Stable := by
  intro d
  induction d with
  | nil =>
    intro r h
    cases h
  | cons c d ih =>
    intro r h
    rw [leb] at h
    split_ifs at h with hlt
    · cases h
      exact ⟨Nat.le_add_left 1 _, fun d' => by rw [List.cons_append, leb, if_pos hlt]⟩
    · obtain ⟨r', hr', rfl⟩ := Option.map_eq_some_iff.mp h
      obtain ⟨hle, hmore⟩ := ih r' hr'
      refine ⟨Nat.succ_le_succ hle, fun d' => ?_⟩
      rw [List.cons_append, leb, if_neg hlt, hmore d', Option.map_some]

end FrontParser

open FrontParser

/-- A size, whose lowest digit is first. -/
def lebSize (l : List ℕ) : ℕ := l.foldr (fun c n => c + 128 * n) 0

/-- A distance, whose highest digit is first. The numbers of two digits begin where those of one
end. -/
def lebDistance : List ℕ → ℕ
  | [] => 0
  | c :: l => l.foldl (fun n c => 128 * (n + 1) + c) c

/-- The kind with a code, and the base of a delta. -/
def entryKind (fmt : ObjFormat) : ℕ → FrontParser EntryKind
  | 1 => done (.full .commit)
  | 2 => done (.full .tree)
  | 3 => done (.full .blob)
  | 4 => done (.full .tag)
  | 6 => leb.next fun l => done (.ofsDelta (lebDistance l))
  | 7 => (bytes fmt.width).next fun id => done (.refDelta (beValue id))
  | _ => fun _ => none

theorem stable_entryKind (fmt : ObjFormat) (code : ℕ) : (entryKind fmt code).Stable := by
  unfold entryKind
  split
  · exact stable_done _
  · exact stable_done _
  · exact stable_done _
  · exact stable_done _
  · exact stable_leb.next fun _ => stable_done _
  · exact (stable_bytes _).next fun _ => stable_done _
  · intro d r h
    cases h

/-- The header of an entry: the kind and the low bits of the size in one byte, the other bits, and
the base of a delta. -/
def entryHeader (fmt : ObjFormat) : FrontParser (EntryKind × ℕ) :=
  (bytes 1).next fun c =>
    (if beValue c < 128 then done [] else leb).next fun l =>
      (entryKind fmt (beValue c / 16 % 8)).next fun k => done (k, beValue c % 16 + 16 * lebSize l)

theorem stable_entryHeader (fmt : ObjFormat) : (entryHeader fmt).Stable := by
  refine (stable_bytes 1).next fun c => Stable.next ?_ fun l =>
    (stable_entryKind fmt _).next fun k => stable_done _
  split_ifs
  · exact stable_done _
  · exact stable_leb

/-- `PackEntry::from_bytes`. -/
def entryFromBytes (fmt : ObjFormat) (d : List UInt8) : Except String PackEntry :=
  match entryHeader fmt d with
  | some ((k, size), n) => .ok ⟨k, size, n⟩
  | none => .error "unexpected end"

theorem entryFromBytes_ok {fmt : ObjFormat} {d : List UInt8} {e : PackEntry} :
    entryFromBytes fmt d = .ok e ↔
      entryHeader fmt d = some ((e.header, e.decompressed_size), e.header_size) := by
  obtain ⟨k, size, n⟩ := e
  unfold entryFromBytes
  split
  · next h => simp [h, and_assoc]
  · next h => simp [h]

/-! ## Pass A -/

/-- The digest of a hasher that took the bytes. -/
def digestOf (fmt : ObjFormat) (b : List UInt8) : List UInt8 := ((CkptHash.new fmt).update b).fin

theorem length_digestOf (fmt : ObjFormat) (b : List UInt8) :
    (digestOf fmt b).length = fmt.width := by
  cases fmt <;> exact CkptState.length_fin _ _

/-- Libraries for packs whose streams have stored blocks. -/
def storedLib : PackLib where
  Zip := Zlib.State
  reset := Zlib.start
  decompress z buf := (Machine.run Zlib.step z buf).map fun r =>
    ⟨r.state, r.used, r.made.length, r.ended⟩
  headerDecode
    | [0x50, 0x41, 0x43, 0x4b, 0, 0, 0, v, a, b, c, d] =>
      if v = 2 then .ok (.v2, beValue [a, b, c, d])
      else if v = 3 then .ok (.v3, beValue [a, b, c, d])
      else .error "unsupported version"
    | _ => .error "corrupt header"
  fromBytes := entryFromBytes
  digest fmt b := some (digestOf fmt b)

theorem storedLib_digest (fmt : ObjFormat) (b : List UInt8) :
    storedLib.digest fmt b = some (digestOf fmt b) := rfl

namespace Stored

/-- A call of the inflater. -/
theorem decompress_ok {z : Zlib.State} {buf : List UInt8} {c : Inflated Zlib.State}
    (h : storedLib.decompress z buf = .ok c) :
    ∃ d, Machine.Path Zlib.step z (buf.take c.used) d c.state c.ended ∧ d.length = c.made ∧
      c.used ≤ buf.length := by
  obtain ⟨r, hr, rfl⟩ := Machine.map_eq_ok h
  obtain ⟨hpath, hle, -⟩ := Machine.run_ok hr
  exact ⟨r.made, hpath, rfl, hle⟩

/-- The calls before some point are a path. -/
theorem fed_path {z : storedLib.Zip} {x : List UInt8} {o : ℕ} (h : storedLib.Fed z x o) :
    ∃ d, Machine.Path Zlib.step Zlib.start x d z false ∧ d.length = o := by
  induction h with
  | reset => exact ⟨[], .nil _, rfl⟩
  | call _ hc hgoes ih =>
    obtain ⟨d, hpath, rfl⟩ := ih
    obtain ⟨d', hpath', hmade, -⟩ := decompress_ok hc
    rw [hgoes] at hpath'
    exact ⟨d ++ d', hpath.append hpath', by rw [List.length_append, hmade]⟩

/-- A stream is a path to the end. -/
theorem stream_path {y : List UInt8} {m : ℕ} (h : storedLib.Stream y m) :
    ∃ d s, Machine.Path Zlib.step Zlib.start y d s true ∧ d.length = m := by
  obtain ⟨z, x, o, buf, c, hfed, hc, hend, rfl, rfl⟩ := h
  obtain ⟨d, hpath, rfl⟩ := fed_path hfed
  obtain ⟨d', hpath', hmade, -⟩ := decompress_ok hc
  rw [hend] at hpath'
  exact ⟨d ++ d', c.state, hpath.append hpath', by rw [List.length_append, hmade]⟩

end Stored

open Stored in
theorem storedLib_lawful : storedLib.Lawful where
  fromBytes_append fmt d d' e h :=
    entryFromBytes_ok.mpr ((stable_entryHeader fmt d _ (entryFromBytes_ok.mp h)).2 d')
  header_size_le fmt d e h := (stable_entryHeader fmt d _ (entryFromBytes_ok.mp h)).1
  used_le z buf c hc := (decompress_ok hc).choose_spec.2.2
  ratio z x o buf c hfed hc := by
    obtain ⟨d, hpath, rfl⟩ := fed_path hfed
    obtain ⟨d', hpath', hmade, hused⟩ := decompress_ok hc
    have hlen := (hpath.append hpath').length_le Zlib.length_step
    rw [List.length_append, List.length_append, List.length_take] at hlen
    omega
  stream_ne_nil y m hy := by
    obtain ⟨d, s, hpath, -⟩ := stream_path hy
    rintro rfl
    cases hpath
  alone y y' m m' hy hy' := by
    obtain ⟨d, s, hpath, -⟩ := stream_path hy
    obtain ⟨d', s', hpath', -⟩ := stream_path hy'
    exact hpath.alone hpath'
  goes z x o y m rest buf hstream hfed hy hbuf hfront := by
    obtain ⟨d, s, hall, rfl⟩ := stream_path hstream
    obtain ⟨d', hpath, rfl⟩ := fed_path hfed
    obtain ⟨o₂, hback, rfl⟩ := hpath.rest hall hy
    obtain ⟨r, hrun, hused, hend, hmade⟩ := hback.call hfront
    have hpos : 0 < buf.length ∧ 0 < y.length :=
      ⟨List.length_pos_iff.mpr hbuf, List.length_pos_iff.mpr hy⟩
    refine ⟨⟨r.state, r.used, r.made.length, r.ended⟩, ?_, ?_⟩
    · simp only [storedLib, hrun, Except.map]
    · refine ⟨by dsimp only; omega, .inl (by dsimp only; omega), ?_, fun hended => ?_⟩
      · dsimp only
        rw [hend]
        omega
      · dsimp only
        rw [hmade hended, List.length_append]

/-! ## Entries and packs -/

/-- The bytes of a size above those of an entry's first byte. -/
def lebBytes : ℕ → ℕ → List UInt8
  | 0, _ => []
  | rounds + 1, n =>
    if n < 128 then [UInt8.ofNat n] else UInt8.ofNat (n % 128 + 128) :: lebBytes rounds (n / 128)

/-- The code of a kind. -/
def Kind.code : Kind → ℕ
  | .commit => 1
  | .tree => 2
  | .blob => 3
  | .tag => 4

/-- An entry with a code, what comes after its size, and its bytes. -/
def entryBytes (code : ℕ) (base d : List UInt8) : List UInt8 :=
  (if d.length < 16 then [UInt8.ofNat (16 * code + d.length)]
    else UInt8.ofNat (128 + 16 * code + d.length % 16) :: lebBytes d.length (d.length / 16)) ++
    base ++ Zlib.deflate d

/-- The number whose bytes, lowest first, are present where the flags say. -/
def sparse : List Bool → List UInt8 → Option (ℕ × List UInt8)
  | [], d => some (0, d)
  | false :: flags, d => (sparse flags d).map fun r => (256 * r.1, r.2)
  | true :: _, [] => none
  | true :: flags, c :: d => (sparse flags d).map fun r => (c.toNat + 256 * r.1, r.2)

/-- The instructions of a delta: bytes of the base are copied, or bytes of the delta. -/
def instructions (base : List UInt8) : ℕ → List UInt8 → Option (List UInt8)
  | _, [] => some []
  | 0, _ :: _ => none
  | rounds + 1, c :: d =>
    if c < 128 then
      if c = 0 ∨ d.length < c.toNat then none
      else (instructions base rounds (d.drop c.toNat)).map (d.take c.toNat ++ ·)
    else do
      let (off, d) ← sparse ([0, 1, 2, 3].map c.toNat.testBit) d
      let (n, d) ← sparse ([4, 5, 6].map c.toNat.testBit) d
      let n := if n = 0 then 65536 else n
      if base.length < off + n then none
      else (instructions base rounds d).map ((base.drop off).take n ++ ·)

/-- A delta: the sizes of the base and of the result, and instructions. -/
def applyDelta (base δ : List UInt8) : Option (List UInt8) := do
  let ((source, target), n) ← (leb.next fun s => leb.next fun t => done (lebSize s, lebSize t)) δ
  let d ← instructions base δ.length (δ.drop n)
  if source = base.length ∧ target = d.length then some d else none

/-- `codec::encode_entry`. -/
def encodeEntry (o : Kind × List UInt8) : List UInt8 := entryBytes o.1.code [] o.2

/-- `codec::entry_header`, as far as the writer reads it. -/
def entryKindOf (d : List UInt8) : Except Error Kind :=
  match entryFromBytes .sha1 d with
  | .error m => .error (.storage ("entry: " ++ m))
  | .ok ⟨.full k, _, _⟩ => .ok k
  | .ok _ => .error (.internal "delta entry in a normalized pack")

/-- `header::encode`. -/
def packHeaderBytes (n : ℕ) : List UInt8 := [0x50, 0x41, 0x43, 0x4b] ++ beBytes 4 2 ++ beBytes 4 n

/-- The libraries of the pack writer. -/
def Codec.git (fmt : ObjFormat) : Codec where
  header := packHeaderBytes
  header_length n := by simp [packHeaderBytes]
  entryHeader := entryKindOf
  digest := digestOf fmt
  digestLen := fmt.width
  digest_length := length_digestOf fmt

/-- The name of a kind in what is hashed. -/
def Kind.name : Kind → List UInt8
  | .commit => [0x63, 0x6f, 0x6d, 0x6d, 0x69, 0x74]
  | .tree => [0x74, 0x72, 0x65, 0x65]
  | .blob => [0x62, 0x6c, 0x6f, 0x62]
  | .tag => [0x74, 0x61, 0x67]

/-- The digest that is the id of an object. -/
def objectDigest (fmt : ObjFormat) (o : Kind × List UInt8) : List UInt8 :=
  digestOf fmt (o.1.name ++ [0x20] ++
    (Nat.toDigits 10 o.2.length).map (fun c => UInt8.ofNat c.toNat) ++ [0] ++ o.2)

end GitEdge
