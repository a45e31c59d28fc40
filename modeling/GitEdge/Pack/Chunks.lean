import GitEdge.Pack.Parse

/-!
# Which chunkings of a pack pass A accepts

A pack that some chunking gets through is well formed (`PackOk`), a property of its bytes. What the
chunking decides is only whether every entry's header was in the buffer when it was read, and
whether the bytes received passed the limit while an entry was inflated. `Incoming.Inv` gives the
two numbers at any point of the pass: what the hasher has and what is left are the pack, and the
bytes received are those before the pack, those consumed and those buffered.

`BodyReader.cut` is a body with a boundary at a given place. Until the pass needs bytes past the
boundary it has exactly the bytes before it (`Incoming.Upto`), which makes an entry fail whose
header does not end in the 30 bytes that pass A looks ahead.
-/

namespace GitEdge

open Reader

variable {u u' : Incoming} {n pos : ℕ} {rc : EntryRec} {recs : List EntryRec} {body : BodyReader}

variable {lib : PackLib} {fmt : ObjFormat} {b : List UInt8} {h : ℕ}

/-! ## The state of the pass -/

/-- What has been received before some point of the pass over `b`, after `h` other bytes. -/
structure Incoming.Inv (h : ℕ) (b : List UInt8) (u : Incoming) : Prop where
  bytes : u.hashed ++ u.body.left = b
  total : u.body.total = h + u.hashed.length + u.body.buf.length

namespace Incoming

theorem Inv.fill (hu : Inv h b u) (n : ℕ) : Inv h b (bodySource.fill n u) := by
  constructor
  · rw [← hu.bytes]
    exact congrArg _ (bodySource.left_fill n u)
  · have htotal := BodyReader.fillLoop_total n u.body.stream u.body.buf u.body.total
    have hold := hu.total
    change (u.body.fill n).total = h + u.hashed.length + (u.body.fill n).buf.length
    unfold BodyReader.fill
    omega

theorem take_ok (ht : bodySource.take n u = .ok u') :
    n ≤ u.body.buf.length ∧ u' = ⟨u.body.consume n, u.hashed ++ u.body.buf.take n⟩ := by
  change Incoming.take n u = .ok u' at ht
  unfold Incoming.take at ht
  split_ifs at ht with hn
  exact ⟨hn, (Except.ok.inj ht).symm⟩

theorem Inv.take (hu : Inv h b u) (ht : bodySource.take n u = .ok u') : Inv h b u' := by
  obtain ⟨hn, rfl⟩ := take_ok ht
  constructor
  · rw [← hu.bytes]
    change u.hashed ++ u.body.buf.take n ++ (u.body.buf.drop n ++ u.body.stream.flatten) =
      u.hashed ++ (u.body.buf ++ u.body.stream.flatten)
    rw [List.append_assoc, ← List.append_assoc (u.body.buf.take n), List.take_append_drop]
  · have hold := hu.total
    change u.body.total = h + (u.hashed ++ u.body.buf.take n).length + (u.body.buf.drop n).length
    rw [List.length_append, List.length_take, List.length_drop]
    omega

/-- The whole pass keeps the numbers. -/
theorem inv_holds (h : ℕ) (b : List UInt8) : bodySource.Holds lookAhead 0 0 (Inv h b) where
  look _ hu _ := hu.fill _
  next _ hu _ _ := hu.fill _
  take _ _ _ hu _ ht := hu.take ht

theorem Inv.steps (hu : Inv h b u) (hsteps : Steps bodySource lookAhead u u') : Inv h b u' :=
  (inv_holds h b).steps hsteps hu (Nat.zero_le _) (Nat.zero_le _)

/-- With the pack's bytes from `pos` on left, `pos` bytes of it were consumed. -/
theorem Inv.hashed_eq (hu : Inv h b u) (hleft : u.body.left = b.drop pos) :
    u.hashed = b.take pos := by
  have hbytes := hu.bytes
  rw [hleft] at hbytes
  have hsplit : u.hashed ++ b.drop pos = b.take pos ++ b.drop pos := by
    rw [hbytes, List.take_append_drop]
  exact List.append_cancel_right hsplit

/-- The bytes received when the bytes from `pos` on are left. -/
theorem Inv.total_eq (hu : Inv h b u) (hpos : pos ≤ b.length) (hleft : u.body.left = b.drop pos) :
    u.body.total = h + pos + u.body.buf.length := by
  have htotal := hu.total
  rw [hu.hashed_eq hleft, List.length_take] at htotal
  omega

/-- Bytes are only received. -/
theorem total_le_steps (hsteps : Steps bodySource lookAhead u u') :
    u.body.total ≤ u'.body.total := by
  have hgrows : bodySource.Holds lookAhead 0 0 fun q => u.body.total ≤ q.body.total := by
    have hfill : ∀ q : Incoming, ∀ n, u.body.total ≤ q.body.total →
        u.body.total ≤ (q.body.fill n).total := by
      intro q n hle
      have htotal := BodyReader.fillLoop_total n q.body.stream q.body.buf q.body.total
      have hlen := (BodyReader.fillLoop_buf n q.body.stream q.body.buf q.body.total).length_le
      unfold BodyReader.fill
      omega
    refine ⟨fun q hq _ => hfill q _ hq, fun q hq _ _ => hfill q _ hq, fun q q' k hq _ ht => ?_⟩
    obtain ⟨-, rfl⟩ := take_ok ht
    exact hq
  exact hgrows.steps hsteps (Nat.le_refl _) (Nat.zero_le _) (Nat.zero_le _)

/-- The pass has exactly the bytes before `cut`. -/
structure Upto (h : ℕ) (b : List UInt8) (cut : ℕ) (u : Incoming) : Prop where
  inv : Inv h b u
  stream : u.body.stream = [b.drop cut]

/-- While the bytes up to the boundary are enough, those after it are not read. -/
theorem upto_holds (h : ℕ) (b : List UInt8) (cut : ℕ) :
    bodySource.Holds lookAhead (b.length - cut + lookAhead) (b.length - cut + 1)
    (Upto h b cut) := by
  have hbuf : ∀ u, Upto h b cut u →
      (bodySource.left u).length = u.body.buf.length + (b.length - cut) := by
    intro u hu
    change (u.body.buf ++ u.body.stream.flatten).length = _
    rw [hu.stream, List.length_append, List.flatten_singleton, List.length_drop]
  have hfill : ∀ u n, Upto h b cut u → n ≤ u.body.buf.length →
      Upto h b cut (bodySource.fill n u) := by
    intro u n hu hn
    refine ⟨hu.inv.fill n, ?_⟩
    change (BodyReader.fillLoop n u.body.stream u.body.buf u.body.total).stream = _
    rw [hu.stream, BodyReader.fillLoop, if_neg (by omega)]
  refine ⟨fun u hu hle => hfill u _ hu ?_, fun u hu hle _ => hfill u _ hu ?_,
    fun u u' k hu _ ht => ⟨hu.inv.take ht, ?_⟩⟩
  · rw [hbuf u hu] at hle
    omega
  · rw [hbuf u hu] at hle
    omega
  · obtain ⟨-, rfl⟩ := take_ok ht
    exact hu.stream

/-- What the reader has of the bytes from `pos` on, after looking ahead. -/
theorem Upto.buffered {cut : ℕ} (hu : Upto h b cut u) (hcut : cut ≤ b.length)
    (hpos : pos + lookAhead ≤ cut) (hleft : bodySource.left u = b.drop pos) :
    bodySource.buffered (bodySource.fill lookAhead u) = (b.drop pos).take (cut - pos) := by
  have hfill : Upto h b cut (bodySource.fill lookAhead u) := by
    apply (upto_holds h b cut).look u hu
    rw [hleft, List.length_drop]
    omega
  have hsplit : bodySource.buffered (bodySource.fill lookAhead u) ++ b.drop cut = b.drop pos := by
    rw [← hleft, ← bodySource.left_fill lookAhead u]
    change _ = (bodySource.fill lookAhead u).body.buf ++
      (bodySource.fill lookAhead u).body.stream.flatten
    rw [hfill.stream, List.flatten_singleton]
    rfl
  have hcopy : (b.drop pos).take (cut - pos) ++ b.drop cut = b.drop pos := by
    have htail : b.drop cut = (b.drop pos).drop (cut - pos) := by
      rw [List.drop_drop]
      congr 1
      omega
    rw [htail, List.take_append_drop]
  exact List.append_cancel_right (hsplit.trans hcopy.symm)

end Incoming

/-! ## The loop over the entries -/

/-- A pack: a header with the number of entries, the entries, and the hash of all that. -/
structure PackOk (lib : PackLib) (fmt : ObjFormat) (b : List UInt8) (recs : List EntryRec) :
    Prop where
  length : 12 + fmt.width ≤ b.length
  count : packHeader lib (b.take 12) = .ok recs.length
  few : recs.length ≤ maxEntries
  entries : Entries lib fmt b 12 recs (b.length - fmt.width)
  hash : lib.digest fmt (b.take (b.length - fmt.width)) = some (b.drop (b.length - fmt.width))

/-- How an entry was read in a pass from `u` on: the header from what the reader had after looking
ahead at its first byte, and with no more bytes received by its last byte than the limit. -/
def EntrySeen (lib : PackLib) (fmt : ObjFormat) (b : List UInt8) (u : Incoming) (rc : EntryRec) :
    Prop :=
  ∃ q q', Steps bodySource lookAhead u q ∧ bodySource.left q = b.drop rc.offset ∧
    (∃ e, lib.fromBytes fmt (bodySource.buffered (bodySource.fill lookAhead q)) = .ok e) ∧
    Steps bodySource lookAhead (bodySource.fill lookAhead q) q' ∧
    bodySource.left q' = b.drop (rc.offset + rc.header_len + rc.compressed_len) ∧
    q'.body.total ≤ maxPending

theorem EntrySeen.of_steps (hsteps : Steps bodySource lookAhead u u')
    (hseen : EntrySeen lib fmt b u' rc) : EntrySeen lib fmt b u rc := by
  obtain ⟨q, q', hq, hrest⟩ := hseen
  exact ⟨q, q', hsteps.trans hq, hrest⟩

/-- A loop that succeeds has read a table. -/
theorem entriesLoop_ok (hlib : lib.Lawful) {count : ℕ} {recs' : List EntryRec}
    (hleft : bodySource.left u = b.drop pos)
    (hloop : entriesLoop lib fmt count pos recs u = .ok (u', recs')) :
    ∃ news stop, recs' = recs ++ news ∧ news.length = count ∧
      (recs.length ≤ maxEntries → recs'.length ≤ maxEntries) ∧ Entries lib fmt b pos news stop ∧
      bodySource.left u' = b.drop stop ∧ Steps bodySource lookAhead u u' ∧
      ∀ rc ∈ news, EntrySeen lib fmt b u rc := by
  induction count generalizing pos recs u with
  | zero =>
    cases hloop
    exact ⟨[], pos, (List.append_nil _).symm, rfl, id, .nil pos, hleft, .refl _, by simp⟩
  | succ count ih =>
    rw [entriesLoop] at hloop
    split_ifs at hloop with hmax
    cases hread : readEntry lib bodySource edgePass fmt pos u with
    | error e => simp [hread] at hloop
    | ok res =>
      obtain ⟨q', rc⟩ := res
      rw [hread] at hloop
      dsimp only at hloop
      obtain ⟨hentry, hhead, hsteps, hfull, -⟩ := readEntry_ok hlib hread
      have hleft' : bodySource.left q' = b.drop (pos + rc.header_len + rc.compressed_len) := by
        rw [hentry.rest, hleft, List.drop_drop, Nat.add_assoc]
      rw [hleft, hleft'] at hentry
      obtain ⟨news, stop, rfl, hlen, hfew, htable, hstop, hrun, hseen⟩ := ih hleft' hloop
      have hfirst : Steps bodySource lookAhead u q' := (Steps.refl u).look.trans hsteps
      refine ⟨rc :: news, stop, by simp, by simp [hlen], fun _ => hfew ?_, .cons hentry htable,
        hstop, hfirst.trans hrun, ?_⟩
      · rw [List.length_append, List.length_singleton]
        omega
      · intro rc' hrc'
        obtain rfl | hrc' := List.mem_cons.mp hrc'
        · refine ⟨u, q', .refl u, ?_, hhead, hsteps, ?_, ?_⟩
          · rw [hleft, hentry.offset]
          · rw [hleft', hentry.offset]
          · simpa [edgePass] using hfull
        · exact (hseen rc' hrc').of_steps hfirst

/-- The loop reads a table, if every header can be read from what the reader has after looking
ahead. -/
theorem entriesLoop_of_entries (hlib : lib.Lawful) {P : Incoming → Prop} {ahead more : ℕ}
    (hP : bodySource.Holds lookAhead ahead more P) {stop : ℕ} {news : List EntryRec}
    (hfull : news ≠ [] → ∀ u, P u → u.body.total ≤ maxPending) (hu : P u)
    (hleft : bodySource.left u = b.drop pos) (htable : Entries lib fmt b pos news stop)
    (hfew : recs.length + news.length ≤ maxEntries) (hmore : more ≤ b.length - stop + 1)
    (hahead : ∀ rc ∈ news, ahead ≤ b.length - rc.offset)
    (hhead : ∀ rc ∈ news, ∀ q, P q → bodySource.left q = b.drop rc.offset →
      ∃ e, lib.fromBytes fmt (bodySource.buffered (bodySource.fill lookAhead q)) = .ok e) :
    ∃ u', entriesLoop lib fmt news.length pos recs u = .ok (u', recs ++ news) ∧
      bodySource.left u' = b.drop stop ∧ P u' := by
  induction htable generalizing recs u with
  | nil => exact ⟨u, by simp [entriesLoop], hleft, hu⟩
  | @cons pos stop rc news hentry htail ih =>
    have hmem : rc ∈ rc :: news := List.mem_cons_self
    have hnotfull : ∀ q, P q → edgePass.full q = false := by
      intro q hq
      simpa [edgePass] using hfull (List.cons_ne_nil _ _) q hq
    obtain ⟨q, hread, hleft', hq⟩ := readEntry_of_isEntry hlib hP hnotfull hu
      (hleft.symm ▸ hentry) (by
        have hle := hahead rc hmem
        rw [hentry.offset] at hle
        rwa [hleft, List.length_drop]) (by
        have hle := htail.le_stop
        rw [List.length_drop]
        omega)
      (hhead rc hmem u hu (by rw [hleft, hentry.offset])) rfl
    rw [List.length_cons] at hfew
    obtain ⟨u', hloop, hstop, hu'⟩ :=
      @ih q (recs ++ [rc]) (fun _ => hfull (List.cons_ne_nil _ _)) hq
      hleft' (by
        rw [List.length_append, List.length_singleton]
        omega) hmore (fun rc' hrc' => hahead rc' (List.mem_cons_of_mem _ hrc'))
      (fun rc' hrc' => hhead rc' (List.mem_cons_of_mem _ hrc'))
    refine ⟨u', ?_, hstop, hu'⟩
    rw [List.length_cons, entriesLoop, if_neg (by omega), hread]
    dsimp only
    rw [hloop, List.append_assoc]
    rfl

/-! ## The ends of a pack -/

/-- There is another byte if something is left. -/
theorem fill_one_iff (u : Incoming) : 1 ≤ (u.body.fill 1).buf.length ↔ bodySource.left u ≠ [] := by
  constructor
  · intro hone hnil
    have hfront := bodySource.buffered_front (bodySource.fill 1 u)
    rw [bodySource.left_fill, hnil, List.prefix_nil] at hfront
    change (u.body.fill 1).buf = [] at hfront
    rw [hfront] at hone
    exact absurd hone (by decide)
  · intro hne
    obtain hone | hall := bodySource.fill_enough 1 u
    · exact hone
    · change (u.body.fill 1).buf = _ at hall
      rw [hall]
      exact List.length_pos_iff.mpr hne

/-- The pass ends well if the hash of what was read is all that is left. -/
theorem packTrailer_ok : packTrailer lib fmt u = .ok () ↔
    lib.digest fmt u.hashed = some (bodySource.left u) ∧
    (bodySource.left u).length = fmt.width := by
  have hfront : (u.body.fill fmt.width).buf <+: bodySource.left u := by
    rw [← bodySource.left_fill fmt.width u]
    exact bodySource.buffered_front (bodySource.fill fmt.width u)
  unfold packTrailer
  dsimp only
  by_cases hshort : (u.body.fill fmt.width).buf.length < fmt.width
  · -- The body ended before.
    rw [if_pos hshort]
    obtain henough | hall := bodySource.fill_enough fmt.width u
    · exact absurd henough (Nat.not_le_of_lt hshort)
    · change (u.body.fill fmt.width).buf = _ at hall
      rw [hall] at hshort
      simp only [reduceCtorEq, false_iff, not_and]
      omega
  rw [if_neg hshort]
  have htake : (u.body.fill fmt.width).buf.take fmt.width = (bodySource.left u).take fmt.width := by
    obtain ⟨t, ht⟩ := hfront
    rw [← ht, List.take_append_of_le_length (by omega)]
  have hrest : bodySource.left ⟨(u.body.fill fmt.width).consume fmt.width, []⟩ =
      (bodySource.left u).drop fmt.width := by
    obtain ⟨q, hq, -, hleft⟩ :=
      bodySource.take_ok fmt.width (bodySource.fill fmt.width u) (Nat.le_of_not_lt hshort)
    rw [bodySource.left_fill] at hleft
    obtain ⟨-, rfl⟩ := Incoming.take_ok hq
    exact hleft
  have hone := fill_one_iff ⟨(u.body.fill fmt.width).consume fmt.width, []⟩
  rw [hrest, ne_eq, List.drop_eq_nil_iff, Nat.not_le] at hone
  have hlen := hfront.length_le
  cases hdigest : lib.digest fmt u.hashed with
  | none => simp
  | some want =>
    dsimp only
    rw [htake, Option.some.injEq]
    by_cases hwant : (bodySource.left u).take fmt.width ≠ want
    · rw [if_pos hwant]
      simp only [reduceCtorEq, false_iff, not_and]
      rintro rfl hlast
      rw [← hlast, List.take_length] at hwant
      exact hwant rfl
    rw [if_neg hwant]
    rw [ne_eq, not_not] at hwant
    by_cases hmore : fmt.width < (bodySource.left u).length
    · rw [if_pos (hone.mpr hmore)]
      simp only [reduceCtorEq, false_iff, not_and]
      omega
    · rw [if_neg (fun hbuf => hmore (hone.mp hbuf))]
      have hlast : (bodySource.left u).length = fmt.width := by omega
      simp only [true_iff]
      refine ⟨?_, hlast⟩
      rw [← hwant, ← hlast, List.take_length]

/-! ## The whole pass -/

/-- The reader before the header is taken. -/
theorem Incoming.inv_start (hbody : body.Of h b) (n : ℕ) : Inv h b ⟨body.fill n, []⟩ := by
  have hstart : Inv h b ⟨body, []⟩ := by
    refine ⟨by simpa using hbody.1, ?_⟩
    simpa using hbody.2
  exact hstart.fill n

/-- The header is the first twelve bytes of the pack. -/
theorem BodyReader.Of.header (hbody : body.Of h b) (henough : 12 ≤ (body.fill 12).buf.length) :
    (body.fill 12).buf.take 12 = b.take 12 := by
  obtain ⟨t, ht⟩ := bodySource.buffered_front ⟨body.fill 12, []⟩
  rw [show bodySource.left ⟨body.fill 12, []⟩ = b from (Incoming.inv_start hbody 12).bytes] at ht
  change (body.fill 12).buf ++ t = b at ht
  rw [← ht, List.take_append_of_le_length henough]

/-- A body that is accepted is a pack, and its entries were seen. -/
theorem streamInner_ok (hlib : lib.Lawful) (hbody : body.Of h b)
    (hok : streamInner lib fmt body = .ok (recs, n)) :
    n = recs.length ∧ PackOk lib fmt b recs ∧
      ∀ rc ∈ recs, EntrySeen lib fmt b ⟨body.fill 12, []⟩ rc := by
  unfold streamInner at hok
  dsimp only at hok
  split_ifs at hok with hshort
  obtain ⟨count, hcount, hok⟩ := FoldM.bind_eq_ok.mp hok
  obtain ⟨u, hu, hok⟩ := FoldM.bind_eq_ok.mp hok
  obtain ⟨⟨u', recs'⟩, hloop, hok⟩ := FoldM.bind_eq_ok.mp hok
  obtain ⟨⟨⟩, htrailer, hok⟩ := FoldM.bind_eq_ok.mp hok
  cases hok
  have hstart : Incoming.Inv h b ⟨body.fill 12, []⟩ := Incoming.inv_start hbody 12
  have hleft₀ : bodySource.left ⟨body.fill 12, []⟩ = b := hstart.bytes
  have henough : 12 ≤ (bodySource.buffered ⟨body.fill 12, []⟩).length := Nat.le_of_not_lt hshort
  have hlong : 12 ≤ b.length := by
    have hle := (bodySource.buffered_front ⟨body.fill 12, []⟩).length_le
    rw [hleft₀] at hle
    omega
  have hstep : Steps bodySource lookAhead ⟨body.fill 12, []⟩ u := (Steps.refl _).take henough hu
  have hleft : bodySource.left u = b.drop 12 := by
    obtain ⟨q, hq, -, hleft⟩ := bodySource.take_ok 12 ⟨body.fill 12, []⟩ henough
    rw [hleft₀] at hleft
    cases hq.symm.trans hu
    exact hleft
  obtain ⟨news, stop, hnews, hlen, hfew, htable, hstop, hrun, hseen⟩ :=
    entriesLoop_ok hlib hleft hloop
  rw [List.nil_append] at hnews
  subst hnews
  obtain ⟨hdigest, hwidth⟩ := packTrailer_ok.mp htrailer
  have hend : stop ≤ b.length := htable.stop_le hlong
  rw [((hstart.steps hstep).steps hrun).hashed_eq hstop, hstop] at hdigest
  rw [hstop, List.length_drop] at hwidth
  have h12 := htable.le_stop
  have hstopEq : stop = b.length - fmt.width := by omega
  subst hstopEq
  refine ⟨hlen.symm, ⟨by omega, ?_, hfew (Nat.zero_le _), htable, hdigest⟩, ?_⟩
  · rw [← hbody.header henough, hcount, hlen]
  · exact fun rc hrc => (hseen rc hrc).of_steps hstep

/-- A pack is accepted if every header can be read from what the reader has after looking ahead and
the bytes received stay below the limit. -/
theorem streamInner_of_packOk (hlib : lib.Lawful) (hbody : body.Of h b)
    (hpack : PackOk lib fmt b recs) {P : Incoming → Prop} {ahead more : ℕ}
    (hP : bodySource.Holds lookAhead ahead more P)
    (hfull : recs ≠ [] → ∀ u, P u → u.body.total ≤ maxPending) (hstart : P ⟨body.fill 12, []⟩)
    (hmore : more ≤ fmt.width + 1) (hahead : ∀ rc ∈ recs, ahead ≤ b.length - rc.offset)
    (hhead : ∀ rc ∈ recs, ∀ q, P q → bodySource.left q = b.drop rc.offset →
      ∃ e, lib.fromBytes fmt (bodySource.buffered (bodySource.fill lookAhead q)) = .ok e) :
    streamInner lib fmt body = .ok (recs, recs.length) := by
  have hinv : Incoming.Inv h b ⟨body.fill 12, []⟩ := Incoming.inv_start hbody 12
  have hleft₀ : bodySource.left ⟨body.fill 12, []⟩ = b := hinv.bytes
  have hlong := hpack.length
  have henough : 12 ≤ (body.fill 12).buf.length := by
    obtain henough | hall := bodySource.fill_enough 12 ⟨body, []⟩
    · exact henough
    · change (body.fill 12).buf = body.left at hall
      rw [hall, hbody.1]
      omega
  obtain ⟨u, hu, -, hleft⟩ := bodySource.take_ok 12 ⟨body.fill 12, []⟩ henough
  rw [hleft₀] at hleft
  have hPu : P u := hP.take _ _ _ hstart henough hu
  obtain ⟨u', hloop, hstop, hPu'⟩ := @entriesLoop_of_entries u 12 [] lib fmt b hlib P ahead more
    hP (b.length - fmt.width) recs hfull hPu hleft hpack.entries (by simpa using hpack.few)
    (by omega) hahead hhead
  rw [List.nil_append] at hloop
  have htrailer : packTrailer lib fmt u' = .ok () := by
    obtain ⟨-, -, -, -, -, -, -, hrun, -⟩ := entriesLoop_ok hlib hleft hloop
    have hinv' : Incoming.Inv h b u' := (hinv.take hu).steps hrun
    rw [packTrailer_ok, hinv'.hashed_eq hstop, hstop, List.length_drop]
    exact ⟨hpack.hash, by omega⟩
  change Incoming.take 12 ⟨body.fill 12, []⟩ = .ok u at hu
  unfold streamInner
  dsimp only
  rw [if_neg (Nat.not_lt.mpr henough), hbody.header henough, hpack.count]
  simp only [FoldM.bind_eq_ok, Except.ok.injEq, exists_eq_left']
  exact ⟨u, hu, _, hloop, (), htrailer, rfl⟩

/-! ## Chunkings -/

/-- The header of an entry can be read from the first `n` bytes at its place. -/
def Readable (lib : PackLib) (fmt : ObjFormat) (b : List UInt8) (rc : EntryRec) (n : ℕ) : Prop :=
  ∃ e, lib.fromBytes fmt ((b.drop rc.offset).take n) = .ok e

theorem Readable.mono (hlib : lib.Lawful) {d : List UInt8} (hread : Readable lib fmt b rc n)
    (hd : (b.drop rc.offset).take n <+: d) : ∃ e, lib.fromBytes fmt d = .ok e := by
  obtain ⟨e, he⟩ := hread
  obtain ⟨t, rfl⟩ := hd
  exact ⟨e, hlib.fromBytes_append fmt _ t e he⟩

/-- The body that has arrived as a whole. -/
def BodyReader.whole (h : ℕ) (b : List UInt8) : BodyReader := ⟨[], b, h + b.length⟩

/-- The body with a boundary between two chunks. -/
def BodyReader.cut (h : ℕ) (b : List UInt8) (n : ℕ) : BodyReader := ⟨[b.drop n], b.take n, h + n⟩

theorem BodyReader.whole_of : (whole h b).Of h b := ⟨List.append_nil b, rfl⟩

theorem BodyReader.cut_of (hn : n ≤ b.length) : (cut h b n).Of h b := by
  constructor
  · change b.take n ++ ([b.drop n] : List (List UInt8)).flatten = b
    rw [List.flatten_singleton, List.take_append_drop]
  · change h + n = h + (b.take n).length
    rw [List.length_take]
    omega

/-- The reader before the header is taken. -/
theorem Incoming.upto_start (h12 : 12 ≤ n) (hn : n ≤ b.length) :
    Upto h b n ⟨(BodyReader.cut h b n).fill 12, []⟩ := by
  refine ⟨Incoming.inv_start (BodyReader.cut_of hn) 12, ?_⟩
  have hlen : ¬(b.take n).length < 12 := by
    rw [List.length_take]
    omega
  change (BodyReader.fillLoop 12 [b.drop n] (b.take n) (h + n)).stream = _
  rw [BodyReader.fillLoop, if_neg hlen]

/-- A pack has one entry table. -/
theorem PackOk.unique (hlib : lib.Lawful) {recs' : List EntryRec} (hpack : PackOk lib fmt b recs)
    (hpack' : PackOk lib fmt b recs') : recs = recs' := by
  have hlen : recs.length = recs'.length := Except.ok.inj (hpack.count.symm.trans hpack'.count)
  exact (hpack.entries.unique hlib hpack'.entries hlen).1

section Chunkings

theorem Incoming.Inv.total_le (hu : u.Inv h b) : u.body.total ≤ h + b.length := by
  have hbytes := congrArg List.length hu.bytes
  have htotal := hu.total
  change (u.hashed ++ (u.body.buf ++ u.body.stream.flatten)).length = b.length at hbytes
  rw [List.length_append, List.length_append] at hbytes
  omega

/-- A pack below the limit whose headers are as short as pass A thinks is always accepted. -/
theorem accepted_of_readable (hlib : lib.Lawful) (hpack : PackOk lib fmt b recs)
    (hlimit : recs ≠ [] → h + b.length ≤ maxPending)
    (hread : ∀ rc ∈ recs, Readable lib fmt b rc lookAhead)
    (hbody : body.Of h b) : streamInner lib fmt body = .ok (recs, recs.length) := by
  apply streamInner_of_packOk hlib hbody hpack (Incoming.inv_holds h b)
  · exact fun hne u hu => Nat.le_trans hu.total_le (hlimit hne)
  · exact Incoming.inv_start hbody 12
  · omega
  · intros
    omega
  · intro rc hrc q _ hleft
    apply (hread rc hrc).mono hlib
    rw [← hleft]
    exact bodySource.take_fill lookAhead q

/-- A pack below the limit is accepted when it has arrived as a whole. -/
theorem whole_accepted (hlib : lib.Lawful) (hpack : PackOk lib fmt b recs)
    (hlimit : h + b.length ≤ maxPending) :
    streamInner lib fmt (.whole h b) = .ok (recs, recs.length) := by
  -- There is nothing to wait for.
  have hP : bodySource.Holds lookAhead 0 0 fun u => u.Inv h b ∧ u.body.stream = [] := by
    have hfill : ∀ (u : Incoming) n, u.body.stream = [] → (u.body.fill n).stream = [] := by
      intro u n hnil
      rw [BodyReader.fill, hnil, BodyReader.fillLoop]
    refine ⟨fun u hu _ => ⟨hu.1.fill _, hfill u _ hu.2⟩, fun u hu _ _ =>
      ⟨hu.1.fill _, hfill u _ hu.2⟩, fun u u' k hu _ ht => ⟨hu.1.take ht, ?_⟩⟩
    obtain ⟨-, rfl⟩ := Incoming.take_ok ht
    exact hu.2
  apply streamInner_of_packOk hlib BodyReader.whole_of hpack hP
  · exact fun _ u hu => Nat.le_trans hu.1.total_le hlimit
  · exact ⟨Incoming.inv_start BodyReader.whole_of 12, rfl⟩
  · omega
  · intros
    omega
  · intro rc hrc q hq hleft
    obtain ⟨-, -, hentry⟩ := hpack.entries.mem hrc
    have hall : bodySource.buffered (bodySource.fill lookAhead q) = b.drop rc.offset := by
      rw [← hleft]
      change (BodyReader.fillLoop lookAhead q.body.stream q.body.buf q.body.total).buf =
        q.body.buf ++ q.body.stream.flatten
      rw [hq.2, BodyReader.fillLoop, List.flatten_nil, List.append_nil]
    rw [hall]
    exact ⟨_, hentry.header⟩

/-- A boundary 30 bytes after the beginning of a longer header makes pass A reject the pack. -/
theorem cut_rejected (hlib : lib.Lawful) (hpack : PackOk lib fmt b recs) (hrc : rc ∈ recs)
    (hread : ¬Readable lib fmt b rc lookAhead) :
    rc.offset + lookAhead ≤ b.length ∧ ∀ recs' n,
      streamInner lib fmt (.cut h b (rc.offset + lookAhead)) ≠ .ok (recs', n) := by
  obtain ⟨h12, -, hentry⟩ := hpack.entries.mem hrc
  have hcut : rc.offset + lookAhead ≤ b.length := by
    by_contra hlong
    have hall : (b.drop rc.offset).take lookAhead = b.drop rc.offset := by
      apply List.take_of_length_le
      rw [List.length_drop]
      omega
    apply hread
    rw [Readable, hall]
    exact ⟨_, hentry.header⟩
  refine ⟨hcut, fun recs' n hok => ?_⟩
  obtain ⟨-, hpack', hseen⟩ := streamInner_ok hlib (BodyReader.cut_of hcut) hok
  obtain rfl := hpack'.unique hlib hpack
  obtain ⟨q, q', hsteps, hleft, hdecoded, -⟩ := hseen rc hrc
  -- The reader stops at the boundary.
  have hq : Incoming.Upto h b (rc.offset + lookAhead) q := by
    apply (Incoming.upto_holds h b _).steps hsteps (Incoming.upto_start (by omega) hcut)
    · rw [hleft, List.length_drop]
      omega
    · rw [hleft, List.length_drop, lookAhead]
      rw [lookAhead] at hcut
      omega
  rw [hq.buffered hcut (Nat.le_refl _) hleft, Nat.add_sub_cancel_left] at hdecoded
  exact hread hdecoded

/-- A pack can be read in full before the limit is noticed: the look-ahead at each entry, its header
and the last entry's end all lie below it. -/
structure FitsLimit (lib : PackLib) (fmt : ObjFormat) (h : ℕ) (b : List UInt8)
    (recs : List EntryRec) :
    Prop where
  entries : h + (b.length - fmt.width) ≤ maxPending
  ahead : ∀ rc ∈ recs, h + rc.offset + lookAhead ≤ maxPending
  readable : ∀ rc ∈ recs, Readable lib fmt b rc (maxPending - h - rc.offset)

/-- Of a request over the limit, the body that has arrived as a whole is rejected. -/
theorem whole_rejected (hlib : lib.Lawful) (hlimit : maxPending < h + b.length)
    (hne : recs ≠ []) (n : ℕ) : streamInner lib fmt (.whole h b) ≠ .ok (recs, n) := by
  intro hok
  obtain ⟨rc, hrc⟩ := List.exists_mem_of_ne_nil recs hne
  obtain ⟨-, -, hseen⟩ := streamInner_ok hlib BodyReader.whole_of hok
  obtain ⟨q, q', hsteps, -, -, hsteps', -, htotal⟩ := hseen rc hrc
  have hgrows := Incoming.total_le_steps (hsteps.look.trans hsteps')
  change h + b.length ≤ q'.body.total at hgrows
  omega

/-- An accepted request over the limit was accepted before the limit was noticed. -/
theorem fits_of_accepted (hlib : lib.Lawful) (hlimit : maxPending < h + b.length) (hne : recs ≠ [])
    (hbody : body.Of h b) (hok : streamInner lib fmt body = .ok (recs, n)) :
    FitsLimit lib fmt h b recs := by
  obtain ⟨-, hpack, hseen⟩ := streamInner_ok hlib hbody hok
  have hlong := hpack.length
  -- What the reader had at each entry, and by when.
  have hentry : ∀ rc ∈ recs, ∃ d, d <+: b.drop rc.offset ∧ lookAhead ≤ d.length ∧
      (∃ e, lib.fromBytes fmt d = .ok e) ∧ h + rc.offset + d.length ≤ maxPending ∧
      h + (rc.offset + rc.header_len + rc.compressed_len) ≤ maxPending := by
    intro rc hrc
    obtain ⟨q, q', hsteps, hleft, hread, hsteps', hleft', htotal⟩ := hseen rc hrc
    obtain ⟨-, hstop, -⟩ := hpack.entries.mem hrc
    have hinv : Incoming.Inv h b q := (Incoming.inv_start hbody 12).steps hsteps
    have hinv' : Incoming.Inv h b q' := (hinv.fill lookAhead).steps hsteps'
    have hlater := Incoming.total_le_steps hsteps'
    have hleftFill : bodySource.left (bodySource.fill lookAhead q) = b.drop rc.offset := by
      rw [bodySource.left_fill, hleft]
    have htot := (hinv.fill lookAhead).total_eq (by omega) hleftFill
    have htot' := hinv'.total_eq (by omega) hleft'
    refine ⟨bodySource.buffered (bodySource.fill lookAhead q), ?_, ?_, hread, ?_, by omega⟩
    · rw [← hleftFill]
      exact bodySource.buffered_front _
    · obtain henough | hall := bodySource.fill_enough lookAhead q
      · exact henough
      · -- Otherwise the whole request would have arrived.
        have hlen := congrArg List.length (hall.trans hleft)
        rw [List.length_drop] at hlen
        change (bodySource.fill lookAhead q).body.buf.length = _ at hlen
        omega
    · change h + rc.offset + (bodySource.fill lookAhead q).body.buf.length ≤ maxPending
      omega
  refine ⟨?_, ?_, ?_⟩
  · obtain ⟨rc, hrc, hlast⟩ := hpack.entries.last hne
    obtain ⟨-, -, -, -, -, hend⟩ := hentry rc hrc
    rwa [hlast] at hend
  · intro rc hrc
    obtain ⟨d, -, hlook, -, htotal, -⟩ := hentry rc hrc
    omega
  · intro rc hrc
    obtain ⟨d, hfront, -, ⟨e, he⟩, htotal, -⟩ := hentry rc hrc
    obtain ⟨t, ht⟩ : d <+: (b.drop rc.offset).take (maxPending - h - rc.offset) := by
      rw [List.prefix_take_iff]
      exact ⟨hfront, by omega⟩
    exact ⟨e, ht ▸ hlib.fromBytes_append fmt d t e he⟩

/-- A pack that fits is accepted when the first chunk has all that fits. -/
theorem cut_accepted (hlib : lib.Lawful) (hpack : PackOk lib fmt b recs) (hne : recs ≠ [])
    (hlimit : maxPending < h + b.length) (hfits : FitsLimit lib fmt h b recs) :
    maxPending - h ≤ b.length ∧
      streamInner lib fmt (.cut h b (maxPending - h)) = .ok (recs, recs.length) := by
  have hcut : maxPending - h ≤ b.length := by omega
  obtain ⟨rc₀, hrc₀⟩ := List.exists_mem_of_ne_nil recs hne
  have hfirst := hfits.ahead rc₀ hrc₀
  have hpos := (hpack.entries.mem hrc₀).1
  have hends := hfits.entries
  have hlong := hpack.length
  refine ⟨hcut, ?_⟩
  apply streamInner_of_packOk hlib (BodyReader.cut_of hcut) hpack
    (Incoming.upto_holds h b (maxPending - h))
  · intro _ u hu
    -- The second chunk has not arrived.
    have hbytes := congrArg List.length hu.inv.bytes
    have htotal := hu.inv.total
    change (u.hashed ++ (u.body.buf ++ u.body.stream.flatten)).length = b.length at hbytes
    rw [hu.stream, List.flatten_singleton, List.length_append, List.length_append,
      List.length_drop] at hbytes
    omega
  · exact Incoming.upto_start (by omega) hcut
  · omega
  · intro rc hrc
    have hahead := hfits.ahead rc hrc
    omega
  · intro rc hrc q hq hleft
    have hahead := hfits.ahead rc hrc
    rw [hq.buffered hcut (by omega) hleft]
    exact hfits.readable rc hrc

end Chunkings

end GitEdge
