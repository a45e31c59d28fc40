import GitEdge.Lib.FoldM
import GitEdge.Pack.Entries

/-!
# What pass A accepts

`IsEntry` says what an entry at the front of some bytes is, without a reader: its header can be read
from those bytes, a zlib stream of the recorded length and size follows, and the limits are kept. A
turn of the loop that succeeds has read such an entry, whatever the reader had buffered
(`readEntry_ok`). Conversely an entry is read whenever its header can be read from what the reader
has after looking ahead and the pass does not find itself full (`readEntry_of_isEntry`). Bytes have
at most one entry table (`Entries.unique`).
-/

namespace GitEdge

open Reader

variable {pos clen : ℕ} {x : List UInt8} {e : PackEntry}

variable {ρ : Type} {lib : PackLib} {S : Source UInt8 ρ Error} {pass : PassA ρ} {fmt : ObjFormat}

/-! ## The inflater's loop -/

section Inflate

variable {hlen fuel out : ℕ} {z : lib.Zip} {r : ρ}

/-- What a turn of the loop does when the loop succeeds. -/
theorem inflateLoop_succ_ok {res : ρ × ℕ × ℕ}
    (h : inflateLoop lib S pass pos hlen (fuel + 1) z clen out r = .ok res) :
    ∃ c r', lib.decompress z (S.buffered (S.refill r)) = .ok c ∧
      S.take c.used (S.refill r) = .ok r' ∧ pass.full r' = false ∧
      (c.ended = true ∧ res = (r', clen + c.used, out + c.made) ∨
        c.ended = false ∧ inflateLoop lib S pass pos hlen fuel c.state (clen + c.used)
          (out + c.made) r' = .ok res) := by
  rw [inflateLoop] at h
  split_ifs at h with hempty
  cases hc : lib.decompress z (S.buffered (S.refill r)) with
  | error e => simp [hc] at h
  | ok c =>
    by_cases hstall : c.used = 0 ∧ c.made = 0
    · simp [hc, hstall] at h
    cases ht : S.take c.used (S.refill r) with
    | error e => simp [hc, hstall, ht] at h
    | ok r' =>
      cases hfull : pass.full r' with
      | true => simp [hc, hstall, ht, hfull] at h
      | false =>
        simp only [hc, hstall, ht, hfull, Bool.false_eq_true, if_false] at h
        refine ⟨c, r', rfl, ht, hfull, ?_⟩
        cases hend : c.ended with
        | true =>
          simp only [hend, if_true, Except.ok.injEq] at h
          exact .inl ⟨rfl, h.symm⟩
        | false =>
          simp only [hend, Bool.false_eq_true, if_false] at h
          exact .inr ⟨rfl, h⟩

/-- A turn of the loop with a call that makes progress. -/
theorem inflateLoop_succ {c : Inflated lib.Zip} {r' : ρ} (hbuf : S.buffered (S.refill r) ≠ [])
    (hc : lib.decompress z (S.buffered (S.refill r)) = .ok c) (hgoes : 0 < c.used ∨ 0 < c.made)
    (ht : S.take c.used (S.refill r) = .ok r') (hfull : pass.full r' = false) :
    inflateLoop lib S pass pos hlen (fuel + 1) z clen out r =
      if c.ended then .ok (r', clen + c.used, out + c.made)
      else inflateLoop lib S pass pos hlen fuel c.state (clen + c.used) (out + c.made) r' := by
  have hstall : ¬(c.used = 0 ∧ c.made = 0) := by omega
  have hempty : (S.buffered (S.refill r)).isEmpty = false := by
    rwa [Bool.eq_false_iff, ne_eq, List.isEmpty_iff]
  rw [inflateLoop]
  simp only [hempty, hc, ht, hstall, hfull, Bool.false_eq_true, if_false]

/-- What a taken front is: the bytes consumed, and what is left after them. -/
theorem take_split (hlib : lib.Lawful) {c : Inflated lib.Zip} {r' : ρ}
    (hc : lib.decompress z (S.buffered r) = .ok c) (ht : S.take c.used r = .ok r') :
    S.left r = (S.buffered r).take c.used ++ S.left r' := by
  have hused : c.used ≤ (S.buffered r).length := hlib.used_le _ _ _ hc
  obtain ⟨q, hq, -, hleft⟩ := S.take_ok c.used r hused
  rw [ht] at hq
  cases hq
  obtain ⟨t, htail⟩ := S.buffered_front r
  rw [hleft, ← htail, List.drop_append_of_le_length hused, ← List.append_assoc,
    List.take_append_drop]

/-- A loop that succeeds has consumed a zlib stream. -/
theorem inflateLoop_ok (hlib : lib.Lawful) {r' : ρ} {clen' out' : ℕ} (hfed : lib.Fed z x out)
    (h : inflateLoop lib S pass pos hlen fuel z clen out r = .ok (r', clen', out')) :
    ∃ y, S.left r = y ++ S.left r' ∧ clen' = clen + y.length ∧ lib.Stream (x ++ y) out' ∧
      pass.full r' = false ∧ Steps S lookAhead r r' := by
  induction fuel generalizing z x clen out r with
  | zero => simp [inflateLoop] at h
  | succ fuel ih =>
    obtain ⟨c, q, hc, ht, hfull, hrest⟩ := inflateLoop_succ_ok h
    have hused : c.used ≤ (S.buffered (S.refill r)).length := hlib.used_le _ _ _ hc
    have hsplit := take_split hlib hc ht
    rw [S.left_refill] at hsplit
    have hlen : ((S.buffered (S.refill r)).take c.used).length = c.used := by
      rw [List.length_take]
      omega
    have hstep : Steps S lookAhead r q := (Steps.refl r).refill.take hused ht
    rcases hrest with ⟨hend, hres⟩ | ⟨hgoes, hres⟩
    · cases hres
      exact ⟨_, hsplit, by rw [hlen], ⟨z, x, out, _, c, hfed, hc, hend, rfl, rfl⟩, hfull, hstep⟩
    · obtain ⟨y, hy, hclen, hstream, hfull', hsteps⟩ := ih (hfed.call hc hgoes) hres
      refine ⟨(S.buffered (S.refill r)).take c.used ++ y, ?_, ?_, ?_, hfull', hstep.trans hsteps⟩
      · rw [hsplit, hy, List.append_assoc]
      · rw [hclen, List.length_append, hlen]
        omega
      · rwa [← List.append_assoc]

/-- On a zlib stream the loop succeeds, as long as the pass is not full on the way. -/
theorem inflateLoop_of_stream (hlib : lib.Lawful) {P : ρ → Prop} {ahead more : ℕ}
    (hP : S.Holds lookAhead ahead more P) (hfull : ∀ r, P r → pass.full r = false)
    {y rest : List UInt8} {m : ℕ} (hr : P r) (hstream : lib.Stream (x ++ y) m)
    (hfed : lib.Fed z x out) (hy : y ≠ []) (hleft : S.left r = y ++ rest)
    (hmore : more ≤ rest.length + 1) (hfuel : 1033 * (x ++ y).length < fuel + x.length + out) :
    ∃ r', inflateLoop lib S pass pos hlen fuel z clen out r = .ok (r', clen + y.length, m) ∧
      S.left r' = rest ∧ P r' := by
  induction fuel generalizing z x y clen out r with
  | zero =>
    -- What was produced is bounded by what was consumed.
    have hratio : out ≤ 1032 * x.length := by
      cases hfed with
      | reset => omega
      | @call z' x' buf o c h hc _ =>
        have hle := hlib.ratio z' x' o buf c h hc
        have hused := hlib.used_le z' buf c hc
        rw [List.length_append, List.length_take]
        omega
    rw [List.length_append] at hfuel
    omega
  | succ fuel ih =>
    have hne : S.left r ≠ [] := by
      rw [hleft]
      exact List.append_ne_nil_of_left_ne_nil hy rest
    have hylen : 0 < y.length := List.length_pos_iff.mpr hy
    have hbuf : S.buffered (S.refill r) ≠ [] := S.buffered_refill_ne_nil hne
    have hfront : S.buffered (S.refill r) <+: y ++ rest := by
      rw [← hleft, ← S.left_refill]
      exact S.buffered_front _
    have hrefill : P (S.refill r) := by
      unfold Source.refill
      split_ifs with hempty
      · apply hP.next r hr _ (List.isEmpty_iff.mp hempty)
        rw [hleft, List.length_append]
        omega
      · exact hr
    obtain ⟨c, hc, husedy, hgoes, hend, hm⟩ :=
      hlib.goes z x out y m rest _ hstream hfed hy hbuf hfront
    have hused : c.used ≤ (S.buffered (S.refill r)).length := hlib.used_le _ _ _ hc
    obtain ⟨q, ht, -, -⟩ := S.take_ok c.used (S.refill r) hused
    have hq : P q := hP.take _ _ _ hrefill hused ht
    -- The call consumes the front of the stream.
    have hsplit := take_split hlib hc ht
    rw [S.left_refill, hleft] at hsplit
    have htaken : (S.buffered (S.refill r)).take c.used = y.take c.used := by
      have hlen : ((S.buffered (S.refill r)).take c.used).length = c.used := by
        rw [List.length_take]
        omega
      have htake := congrArg (List.take c.used) hsplit
      rw [List.take_append_of_le_length husedy, List.take_append_of_le_length (by omega),
        List.take_take, Nat.min_self] at htake
      exact htake.symm
    have hleftq : S.left q = y.drop c.used ++ rest := by
      rw [htaken, ← List.take_append_drop c.used y, List.append_assoc] at hsplit
      rw [List.take_append_drop] at hsplit
      exact (List.append_cancel_left hsplit).symm
    rw [inflateLoop_succ hbuf hc hgoes ht (hfull q hq)]
    by_cases hended : c.ended = true
    · have hall : c.used = y.length := hend.mp hended
      refine ⟨q, ?_, ?_, hq⟩
      · rw [if_pos hended, hall, hm hended]
      · rw [hleftq, hall, List.drop_length, List.nil_append]
    · have hshort : c.used < y.length := by
        have hneq : c.used ≠ y.length := fun heq => hended (hend.mpr heq)
        omega
      have hfed' := hfed.call hc (by simpa using hended)
      rw [htaken] at hfed'
      have happ : x ++ y.take c.used ++ y.drop c.used = x ++ y := by
        rw [List.append_assoc, List.take_append_drop]
      rw [if_neg hended]
      have hfuel' : 1033 * (x ++ y.take c.used ++ y.drop c.used).length <
          fuel + (x ++ y.take c.used).length + (out + c.made) := by
        rw [happ]
        rw [List.length_append] at hfuel ⊢
        rw [List.length_append, List.length_take, Nat.min_eq_left husedy]
        omega
      obtain ⟨r', hrun, hleft', hr'⟩ := @ih (clen + c.used) (x ++ y.take c.used)
        (out + c.made) c.state q (y.drop c.used) hq (by rwa [happ]) hfed' (by simpa using hshort)
        hleftq hfuel'
      refine ⟨r', ?_, hleft', hr'⟩
      rw [hrun, List.length_drop]
      congr 3
      omega

end Inflate

/-! ## One entry -/

/-- An entry at the front of `x`, which begins at `pos` of the pack, with `y` after it. -/
structure IsEntry (lib : PackLib) (fmt : ObjFormat) (pos : ℕ) (x : List UInt8) (rc : EntryRec)
    (y : List UInt8) : Prop where
  offset : rc.offset = pos
  header : lib.fromBytes fmt x = .ok ⟨rc.kind_or_delta, rc.size, rc.header_len⟩
  length : rc.header_len + rc.compressed_len ≤ x.length
  stream : lib.Stream ((x.drop rc.header_len).take rc.compressed_len) rc.size
  rest : y = x.drop (rc.header_len + rc.compressed_len)
  size_le : rc.size ≤ maxStreamBlob
  small : rc.kind_or_delta = .full .blob ∨ rc.size ≤ maxObj ∧ rc.compressed_len ≤ maxEntryWire
  header_lt : rc.header_len < 2^8
  compressed_lt : rc.compressed_len < 2^32

section Entry

variable {r r' : ρ} {rc : EntryRec}

theorem decodeEntry_ok {buf : List UInt8} :
    decodeEntry lib fmt pos buf = .ok e ↔ lib.fromBytes fmt buf = .ok e := by
  unfold decodeEntry
  cases lib.fromBytes fmt buf with
  | error m => simp
  | ok e' => simp

theorem headerLimits_ok : headerLimits e = .ok () ↔
    e.decompressed_size ≤ maxStreamBlob ∧
      (e.header = .full .blob ∨ e.decompressed_size ≤ maxObj) := by
  unfold headerLimits
  split_ifs with hbig hobj
  · simp only [false_iff]
    omega
  · simp only [false_iff]
    rintro ⟨-, hblob | hle⟩
    · exact hobj.2 hblob
    · omega
  · simp only [true_iff]
    refine ⟨by omega, ?_⟩
    by_contra hnot
    rw [not_or] at hnot
    exact hobj ⟨by omega, hnot.1⟩

theorem inflatedChecks_ok {out : ℕ} :
    inflatedChecks pos e clen out = .ok () ↔ out = e.decompressed_size ∧
      (e.header = .full .blob ∨ clen ≤ maxEntryWire) := by
  unfold inflatedChecks
  split_ifs with hsize hwire
  · simp only [false_iff]
    exact fun h => hsize h.1
  · simp only [false_iff]
    rintro ⟨-, hblob | hle⟩
    · exact hwire.2 hblob
    · omega
  · simp only [true_iff]
    refine ⟨not_not.mp hsize, ?_⟩
    by_contra hnot
    rw [not_or] at hnot
    exact hwire ⟨by omega, hnot.1⟩

theorem entryRec_ok :
    entryRec pos e clen = .ok rc ↔ e.header_size < 2^8 ∧ clen < 2^32 ∧
      rc = ⟨pos, e.header_size, e.header, clen, e.decompressed_size⟩ := by
  unfold entryRec
  split_ifs with hh hc
  · simp only [false_iff]
    omega
  · simp only [false_iff]
    omega
  · rw [Except.ok.injEq, eq_comm]
    constructor
    · rintro rfl
      exact ⟨by omega, by omega, rfl⟩
    · rintro ⟨-, -, rfl⟩
      rfl

/-- What a turn of the loop over the entries does when it succeeds. -/
theorem readEntry_eq_ok : readEntry lib S pass fmt pos r = .ok (r', rc) ↔
    ∃ e q clen out, lib.fromBytes fmt (S.buffered (S.fill lookAhead r)) = .ok e ∧
      headerLimits e = .ok () ∧ S.take e.header_size (S.fill lookAhead r) = .ok q ∧
      inflateLoop lib S pass pos e.header_size (zlibFuel (S.left q).length) lib.reset 0 0 q =
        .ok (r', clen, out) ∧
      inflatedChecks pos e clen out = .ok () ∧ pass.kindOk e.header = .ok () ∧
      entryRec pos e clen = .ok rc := by
  unfold readEntry
  simp only [FoldM.bind_eq_ok, decodeEntry_ok, pure, Except.pure, Except.ok.injEq, Prod.mk.injEq]
  constructor
  · rintro ⟨e, he, ⟨⟩, hlimits, q, hq, ⟨r₁, clen, out⟩, hloop, ⟨⟩, hchecks, ⟨⟩, hkind, rc', hrec,
      rfl, rfl⟩
    exact ⟨e, q, clen, out, he, hlimits, hq, hloop, hchecks, hkind, hrec⟩
  · rintro ⟨e, q, clen, out, he, hlimits, hq, hloop, hchecks, hkind, hrec⟩
    exact ⟨e, he, (), hlimits, q, hq, _, hloop, (), hchecks, (), hkind, rc, hrec, rfl, rfl⟩

/-- A turn that succeeds has read an entry, whose header could be read from what the reader had. -/
theorem readEntry_ok (hlib : lib.Lawful) (h : readEntry lib S pass fmt pos r = .ok (r', rc)) :
    IsEntry lib fmt pos (S.left r) rc (S.left r') ∧
      (∃ e, lib.fromBytes fmt (S.buffered (S.fill lookAhead r)) = .ok e) ∧
      Steps S lookAhead (S.fill lookAhead r) r' ∧ pass.full r' = false ∧
      pass.kindOk rc.kind_or_delta = .ok () := by
  obtain ⟨e, q, clen, out, he, hlimits, hq, hloop, hchecks, hkind, hrec⟩ := readEntry_eq_ok.mp h
  have hsize : e.header_size ≤ (S.buffered (S.fill lookAhead r)).length :=
    hlib.header_size_le _ _ _ he
  obtain ⟨q', hq', -, hleftq⟩ := S.take_ok _ _ hsize
  rw [hq] at hq'
  cases hq'
  rw [S.left_fill] at hleftq
  obtain ⟨y, hy, hclen, hstream, hfull, hsteps⟩ := inflateLoop_ok hlib .reset hloop
  obtain ⟨rfl, hwire⟩ := inflatedChecks_ok.mp hchecks
  obtain ⟨hstreamable, hobj⟩ := headerLimits_ok.mp hlimits
  obtain ⟨hh, hc, rfl⟩ := entryRec_ok.mp hrec
  rw [Nat.zero_add] at hclen
  subst hclen
  obtain ⟨t, ht⟩ := S.buffered_front (S.fill lookAhead r)
  rw [S.left_fill] at ht
  -- The bytes after the header are the stream and what is left.
  have hdrop : (S.left r).drop e.header_size = y ++ S.left r' := by rw [← hleftq, hy]
  have hlen : e.header_size + y.length ≤ (S.left r).length := by
    have hl := congrArg List.length hdrop
    rw [List.length_drop, List.length_append] at hl
    have hbuf := congrArg List.length ht
    rw [List.length_append] at hbuf
    omega
  refine ⟨⟨rfl, ?_, hlen, ?_, ?_, hstreamable, ?_, hh, hc⟩, ⟨e, he⟩, ?_, hfull, hkind⟩
  · rw [← ht]
    exact hlib.fromBytes_append _ _ _ _ he
  · simpa [hdrop] using hstream
  · rw [← List.drop_drop, hdrop, List.drop_left]
  · dsimp only
    tauto
  · exact ((Steps.refl _).take hsize hq).trans hsteps

/-- An entry is read if its header can be read from what the reader has after looking ahead. -/
theorem readEntry_of_isEntry (hlib : lib.Lawful) {P : ρ → Prop} {ahead more : ℕ}
    (hP : S.Holds lookAhead ahead more P) (hfull : ∀ r, P r → pass.full r = false) (hr : P r)
    {rest : List UInt8} (hentry : IsEntry lib fmt pos (S.left r) rc rest)
    (hahead : ahead ≤ (S.left r).length) (hmore : more ≤ rest.length + 1)
    (hhead : ∃ e, lib.fromBytes fmt (S.buffered (S.fill lookAhead r)) = .ok e)
    (hkind : pass.kindOk rc.kind_or_delta = .ok ()) :
    ∃ r', readEntry lib S pass fmt pos r = .ok (r', rc) ∧ S.left r' = rest ∧ P r' := by
  obtain ⟨e, he⟩ := hhead
  obtain ⟨t, ht⟩ := S.buffered_front (S.fill lookAhead r)
  rw [S.left_fill] at ht
  -- The header is the one that the bytes begin with.
  have hsame : e = ⟨rc.kind_or_delta, rc.size, rc.header_len⟩ := by
    have hlong := hlib.fromBytes_append fmt _ t e he
    rw [ht, hentry.header] at hlong
    cases hlong
    rfl
  subst hsame
  have hlook : P (S.fill lookAhead r) := hP.look r hr hahead
  obtain ⟨q, hq, -, hleftq⟩ := S.take_ok _ _ (hlib.header_size_le _ _ _ he)
  have hPq : P q := hP.take _ _ _ hlook (hlib.header_size_le _ _ _ he) hq
  rw [S.left_fill] at hleftq
  dsimp only at hleftq
  have hlength := hentry.length
  have hsplit : S.left q = (S.left q).take rc.compressed_len ++ rest := by
    rw [hentry.rest, ← List.drop_drop, ← hleftq, List.take_append_drop]
  have hlen : ((S.left q).take rc.compressed_len).length = rc.compressed_len := by
    rw [List.length_take, hleftq, List.length_drop]
    omega
  have hstream : lib.Stream ([] ++ (S.left q).take rc.compressed_len) rc.size := by
    rw [List.nil_append, hleftq]
    exact hentry.stream
  have hfuel : 1033 * ([] ++ (S.left q).take rc.compressed_len).length <
      zlibFuel (S.left q).length + ([] : List UInt8).length + 0 := by
    have hle : rc.compressed_len ≤ (S.left q).length := by
      rw [hleftq, List.length_drop]
      omega
    rw [List.nil_append, hlen, zlibFuel, List.length_nil]
    omega
  obtain ⟨r', hloop, hleft, hr'⟩ := @inflateLoop_of_stream pos 0 [] ρ lib S pass rc.header_len
    (zlibFuel (S.left q).length) 0 lib.reset q hlib P ahead more hP hfull _ rest rc.size hPq
    hstream .reset (hlib.stream_ne_nil _ _ hstream) hsplit hmore hfuel
  rw [Nat.zero_add, hlen] at hloop
  refine ⟨r', ?_, hleft, hr'⟩
  have hlimits : headerLimits ⟨rc.kind_or_delta, rc.size, rc.header_len⟩ = .ok () := by
    rw [headerLimits_ok]
    exact ⟨hentry.size_le, hentry.small.imp_right And.left⟩
  have hchecks : inflatedChecks pos ⟨rc.kind_or_delta, rc.size, rc.header_len⟩ rc.compressed_len
      rc.size = .ok () := by
    rw [inflatedChecks_ok]
    exact ⟨rfl, hentry.small.imp_right And.right⟩
  have hrec : entryRec pos ⟨rc.kind_or_delta, rc.size, rc.header_len⟩ rc.compressed_len =
      .ok rc := by
    rw [entryRec_ok]
    refine ⟨hentry.header_lt, hentry.compressed_lt, ?_⟩
    rw [← hentry.offset]
  rw [readEntry_eq_ok]
  exact ⟨_, q, rc.compressed_len, rc.size, he, hlimits, hq, hloop, hchecks, hkind, hrec⟩

/-- The same bytes begin with one entry at most. -/
theorem IsEntry.unique (hlib : lib.Lawful) {y y' : List UInt8} {rc' : EntryRec}
    (h : IsEntry lib fmt pos x rc y) (h' : IsEntry lib fmt pos x rc' y') : rc = rc' ∧ y = y' := by
  have hheader := h.header
  rw [h'.header] at hheader
  obtain ⟨hkind, hsize, hhlen⟩ : rc'.kind_or_delta = rc.kind_or_delta ∧ rc'.size = rc.size ∧
      rc'.header_len = rc.header_len := by simpa using hheader
  -- Of two zlib streams at one place, the shorter one is the whole of the longer one.
  have hstreams : ∀ {n n' m m' : ℕ}, n ≤ n' → n' ≤ (x.drop rc.header_len).length →
      lib.Stream ((x.drop rc.header_len).take n) m →
      lib.Stream ((x.drop rc.header_len).take n') m' → n = n' := by
    intro n n' m m' hle hlen hs hs'
    have hsplit : (x.drop rc.header_len).take n' =
        (x.drop rc.header_len).take n ++ ((x.drop rc.header_len).drop n).take (n' - n) := by
      rw [← List.take_add]
      congr 1
      omega
    rw [hsplit] at hs'
    have hnil := congrArg List.length (hlib.alone _ _ _ _ hs hs')
    rw [List.length_take, List.length_drop, List.length_nil] at hnil
    omega
  have hstream' := h'.stream
  rw [hhlen] at hstream'
  have hlen := h.length
  have hlen' := h'.length
  rw [hhlen] at hlen'
  have hclen : rc.compressed_len = rc'.compressed_len := by
    obtain hle | hle := Nat.le_total rc.compressed_len rc'.compressed_len
    · exact hstreams hle (by rw [List.length_drop]; omega) h.stream hstream'
    · exact (hstreams hle (by rw [List.length_drop]; omega) hstream' h.stream).symm
  constructor
  · obtain ⟨o, l, k, c, m⟩ := rc
    obtain ⟨o', l', k', c', m'⟩ := rc'
    have hoff := h.offset
    have hoff' := h'.offset
    dsimp only at hkind hsize hhlen hclen hoff hoff'
    subst hkind hsize hhlen hclen hoff hoff'
    rfl
  · rw [h.rest, h'.rest, hhlen, hclen]

end Entry

/-! ## Entry tables -/

/-- The entries of `b` from one position to another. -/
inductive Entries (lib : PackLib) (fmt : ObjFormat) (b : List UInt8) :
    ℕ → List EntryRec → ℕ → Prop
  | nil (pos : ℕ) : Entries lib fmt b pos [] pos
  | cons {pos stop : ℕ} {rc : EntryRec} {recs : List EntryRec}
      (h : IsEntry lib fmt pos (b.drop pos) rc (b.drop (pos + rc.header_len + rc.compressed_len)))
      (t : Entries lib fmt b (pos + rc.header_len + rc.compressed_len) recs stop) :
      Entries lib fmt b pos (rc :: recs) stop

namespace Entries

variable {b : List UInt8} {stop stop' : ℕ} {recs recs' : List EntryRec} {rc : EntryRec}

theorem append (h : Entries lib fmt b pos recs stop) (h' : Entries lib fmt b stop recs' stop') :
    Entries lib fmt b pos (recs ++ recs') stop' := by
  induction h with
  | nil => exact h'
  | cons hentry _ ih => exact .cons hentry (ih h')

theorem le_stop (h : Entries lib fmt b pos recs stop) : pos ≤ stop := by
  induction h with
  | nil => exact Nat.le_refl _
  | cons _ _ ih => omega

/-- An entry of the table lies in the bytes that the table covers. -/
theorem mem (h : Entries lib fmt b pos recs stop) (hrc : rc ∈ recs) :
    pos ≤ rc.offset ∧ rc.offset + rc.header_len + rc.compressed_len ≤ stop ∧
      IsEntry lib fmt rc.offset (b.drop rc.offset) rc
        (b.drop (rc.offset + rc.header_len + rc.compressed_len)) := by
  induction h with
  | nil => cases hrc
  | cons hentry htail ih =>
    obtain rfl | hrc := List.mem_cons.mp hrc
    · have hstop := htail.le_stop
      have hoff := hentry.offset
      subst hoff
      exact ⟨Nat.le_refl _, hstop, hentry⟩
    · obtain ⟨hpos, hstop, hmem⟩ := ih hrc
      exact ⟨by omega, hstop, hmem⟩

/-- The table ends with its last entry. -/
theorem last (h : Entries lib fmt b pos recs stop) (hne : recs ≠ []) :
    ∃ rc ∈ recs, rc.offset + rc.header_len + rc.compressed_len = stop := by
  induction h with
  | nil => exact absurd rfl hne
  | @cons pos stop rc recs hentry htail ih =>
    cases htail with
    | nil =>
      refine ⟨rc, List.mem_cons_self, ?_⟩
      rw [hentry.offset]
    | cons hentry' htail' =>
      obtain ⟨rc', hmem, hstop⟩ := ih (List.cons_ne_nil _ _)
      exact ⟨rc', List.mem_cons_of_mem _ hmem, hstop⟩

/-- The table does not leave the bytes. -/
theorem stop_le (h : Entries lib fmt b pos recs stop) (hpos : pos ≤ b.length) :
    stop ≤ b.length := by
  induction h with
  | nil => exact hpos
  | @cons pos _ rc _ hentry _ ih =>
    have hlen := hentry.length
    rw [List.length_drop] at hlen
    exact ih (by omega)

/-- Of two tables from one position, one goes on where the other stops. -/
theorem comparable (hlib : lib.Lawful) (h : Entries lib fmt b pos recs stop)
    (h' : Entries lib fmt b pos recs' stop') :
    (∃ more, recs' = recs ++ more ∧ Entries lib fmt b stop more stop') ∨
      ∃ more, recs = recs' ++ more ∧ Entries lib fmt b stop' more stop := by
  induction h generalizing recs' with
  | nil => exact .inl ⟨recs', rfl, h'⟩
  | @cons pos stop rc recs hentry htail ih =>
    cases h' with
    | nil => exact .inr ⟨rc :: recs, rfl, .cons hentry htail⟩
    | @cons _ _ rc' recs' hentry' htail' =>
      have hsame : rc = rc' := (hentry.unique hlib hentry').1
      subst hsame
      obtain ⟨more, rfl, hmore⟩ | ⟨more, rfl, hmore⟩ := ih htail'
      · exact .inl ⟨more, rfl, hmore⟩
      · exact .inr ⟨more, rfl, hmore⟩

/-- Two tables of one length are the same. -/
theorem unique (hlib : lib.Lawful) (h : Entries lib fmt b pos recs stop)
    (h' : Entries lib fmt b pos recs' stop') (hlen : recs.length = recs'.length) :
    recs = recs' ∧ stop = stop' := by
  obtain ⟨more, rfl, hmore⟩ | ⟨more, rfl, hmore⟩ := h.comparable hlib h'
  · have hnil : more = [] := by
      rw [List.length_append] at hlen
      exact List.length_eq_zero_iff.mp (by omega)
    subst hnil
    cases hmore
    exact ⟨(List.append_nil _).symm, rfl⟩
  · have hnil : more = [] := by
      rw [List.length_append] at hlen
      exact List.length_eq_zero_iff.mp (by omega)
    subst hnil
    cases hmore
    exact ⟨List.append_nil _, rfl⟩

end Entries

end GitEdge
