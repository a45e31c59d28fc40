import GitEdge.Repo.Atomic
import GitEdge.Repo.Patterns
import GitEdge.Wire.PktLine

/-!
# Ref names on the push path

A name goes from the bytes of a command to the key of a ref and back into a line of the report. Two
places can change it. The bytes are read as UTF-8 with replacements, which keeps the encoding of a
text and nothing else; and the report shows every byte that is no printable ASCII character as a
question mark.

So the ref of an applied command has the bytes that the client sent, and no other bytes name it, if
the name is UTF-8 and has no replacement character of its own (`clean_iff`). The client is told so
under the same bytes only if they are all printable, and every line of the report fits into a packet
(`names_survive_iff`).
-/

namespace GitEdge

open Sql

variable {hdr : ReceiveHeader} {results : List RefResult}

/-! ## The names of a request -/

/-- The line carries the command: two ids, and the name up to a line break or the capabilities. -/
def Sends (from_hex : List UInt8 → Option Oid) (line : List UInt8) (c : RefCommand) : Prop :=
  ∃ old new tail, line = old ++ 0x20 :: (new ++ 0x20 :: (c.name ++ tail)) ∧ 0x20 ∉ old ∧
    0x20 ∉ new ∧ 0 ∉ c.name ∧ (tail = [] ∨ tail = [0x0a] ∨ tail.head? = some 0) ∧
      from_hex old = some c.old ∧ from_hex new = some c.new

theorem cutAt_eq_some {sep : UInt8} :
    ∀ {l a b : List UInt8}, cutAt sep l = some (a, b) → l = a ++ sep :: b ∧ sep ∉ a := by
  intro l
  induction l with
  | nil => intro a b h; cases h
  | cons x l ih =>
    intro a b h
    rw [cutAt] at h
    split_ifs at h with hx
    · cases h
      exact ⟨by rw [hx, List.nil_append], by simp⟩
    · obtain ⟨⟨a', b'⟩, hcut, hab⟩ := Option.map_eq_some_iff.mp h
      cases hab
      obtain ⟨hl, hnot⟩ := ih hcut
      refine ⟨by rw [List.cons_append, ← hl], ?_⟩
      rw [List.mem_cons, not_or]
      exact ⟨Ne.symm hx, hnot⟩

theorem cutAt_eq_none {sep : UInt8} {l : List UInt8} (h : cutAt sep l = none) : sep ∉ l := by
  induction l with
  | nil => simp
  | cons x l ih =>
    rw [cutAt] at h
    split_ifs at h with hx
    rw [List.mem_cons, not_or]
    exact ⟨Ne.symm hx, ih (Option.map_eq_none_iff.mp h)⟩

section

variable {from_hex : List UInt8 → Option Oid}

theorem wireOid_ok {hex : List UInt8} {id : Oid} (h : wireOid from_hex hex = .ok id) :
    from_hex hex = some id := by
  unfold wireOid at h
  cases hf : from_hex hex with
  | none => rw [hf] at h; cases h
  | some x => rw [hf] at h; cases h; rfl

/-- A parsed command is the line: two ids without spaces, and the rest is the name. -/
theorem parseCommand_ok {line : List UInt8} {c : RefCommand}
    (h : parseCommand from_hex line = .ok c) :
    ∃ old new, line = old ++ 0x20 :: (new ++ 0x20 :: c.name) ∧ 0x20 ∉ old ∧ 0x20 ∉ new ∧
      from_hex old = some c.old ∧ from_hex new = some c.new := by
  unfold parseCommand at h
  cases hcut : cutAt 0x20 line with
  | none => rw [hcut] at h; cases h
  | some x =>
    obtain ⟨old, rest⟩ := x
    rw [hcut] at h
    dsimp only at h
    cases hcut' : cutAt 0x20 rest with
    | none => rw [hcut'] at h; cases h
    | some y =>
      obtain ⟨new, name⟩ := y
      rw [hcut'] at h
      dsimp only at h
      split_ifs at h
      cases ho : wireOid from_hex old with
      | error e => rw [ho] at h; cases h
      | ok o =>
        cases hn : wireOid from_hex new with
        | error e => rw [ho, hn] at h; cases h
        | ok n =>
          rw [ho, hn] at h
          cases h
          obtain ⟨hline, hold⟩ := cutAt_eq_some hcut
          obtain ⟨hrest, hnew⟩ := cutAt_eq_some hcut'
          exact ⟨old, new, by rw [hline, hrest], hold, hnew, wireOid_ok ho, wireOid_ok hn⟩

/-- A line adds at most one command, and the line carries it. -/
theorem headerLine_ok {h h' : ReceiveHeader} {d : List UInt8}
    (hline : headerLine from_hex h d = .ok h') :
    ∀ c ∈ h'.commands, c ∈ h.commands ∨ Sends from_hex d c := by
  -- The line is the text before the line break, if there is one.
  obtain ⟨tail, hd, htail⟩ : ∃ tail,
      d = (if d.getLast? = some 0x0a then d.dropLast else d) ++ tail ∧
        (tail = [] ∨ tail = [0x0a]) := by
    split_ifs with hlast
    · obtain ⟨l, hl⟩ := List.getLast?_eq_some_iff.mp hlast
      exact ⟨[0x0a], by rw [hl, List.dropLast_concat], .inr rfl⟩
    · exact ⟨[], (List.append_nil d).symm, .inl rfl⟩
  unfold headerLine at hline
  generalize (if d.getLast? = some 0x0a then d.dropLast else d) = text at hd hline
  dsimp only at hline
  -- A command of the text up to its end or to the capabilities.
  have hsends : ∀ {line after : List UInt8} {c : RefCommand}, text = line ++ after → 0 ∉ line →
      (after = [] ∨ after.head? = some 0) → parseCommand from_hex line = .ok c →
        Sends from_hex d c := by
    intro line after c htext hzero hafter hc
    obtain ⟨old, new, hparts, hold, hnew, hfo, hfn⟩ := parseCommand_ok hc
    refine ⟨old, new, after ++ tail, ?_, hold, hnew, fun hz => hzero ?_, ?_, hfo, hfn⟩
    · rw [hd, htext, hparts]
      simp
    · rw [hparts]
      simp [hz]
    · rcases hafter with rfl | hafter
      · exact htail.elim .inl fun h => .inr (.inl h)
      · refine .inr (.inr ?_)
        cases after with
        | nil => cases hafter
        | cons x after => exact hafter
  cases hshallow : stripFront (ascii "shallow ") text with
  | some rest =>
    rw [hshallow] at hline
    dsimp only at hline
    cases ho : wireOid from_hex rest with
    | error e => rw [ho] at hline; cases hline
    | ok id =>
      rw [ho] at hline
      cases hline
      exact fun c hc => .inl hc
  | none =>
    rw [hshallow] at hline
    dsimp only at hline
    cases hcut : cutAt 0 text with
    | none =>
      rw [hcut] at hline
      dsimp only at hline
      cases hc : parseCommand from_hex text with
      | error e => rw [hc] at hline; cases hline
      | ok c =>
        rw [hc] at hline
        cases hline
        intro q hq
        rcases List.mem_append.mp hq with hq | hq
        · exact .inl hq
        · rw [List.mem_singleton.mp hq]
          exact .inr (hsends (List.append_nil text).symm (cutAt_eq_none hcut) (.inl rfl) hc)
    | some x =>
      obtain ⟨line, caps⟩ := x
      rw [hcut] at hline
      dsimp only at hline
      split_ifs at hline
      cases hcaps : (caps.splitOn 0x20).foldlM ReceiveCaps.read h.caps with
      | error e => rw [hcaps] at hline; cases hline
      | ok caps' =>
        cases hc : parseCommand from_hex line with
        | error e => rw [hcaps, hc] at hline; cases hline
        | ok c =>
          rw [hcaps, hc] at hline
          cases hline
          obtain ⟨htext, hzero⟩ := cutAt_eq_some hcut
          intro q hq
          rcases List.mem_append.mp hq with hq | hq
          · exact .inl hq
          · rw [List.mem_singleton.mp hq]
            exact .inr (hsends htext hzero (.inr rfl) hc)

/-- Every command of a header is carried by one of the packets. -/
theorem headerStep_sends {r : List (Except Error Pkt)} {h : ReceiveHeader}
    (hrun : Decoder.runFrames (headerStep from_hex) h r = .ok (.inr hdr)) :
    ∀ c ∈ hdr.commands, c ∈ h.commands ∨ ∃ l, Except.ok (Pkt.data l) ∈ r ∧ Sends from_hex l c := by
  induction r generalizing h with
  | nil => cases hrun
  | cons p r ih =>
    intro c hc
    cases p with
    | error e => cases hrun
    | ok p =>
      cases p with
      | flush =>
        cases hrun
        exact .inl hc
      | delim => cases hrun
      | responseEnd => cases hrun
      | data l =>
        rw [Decoder.runFrames, headerStep] at hrun
        cases hline : headerLine from_hex h l with
        | error e =>
          rw [hline] at hrun
          cases hrun
        | ok h' =>
          rw [hline] at hrun
          rcases ih hrun c hc with hold | ⟨l', hl', hsends⟩
          · rcases headerLine_ok hline c hold with hin | hsends
            · exact .inl hin
            · exact .inr ⟨l, by simp, hsends⟩
          · exact .inr ⟨l', by simp [hl'], hsends⟩

/-- Every command of a parsed header is carried by a packet of the request. -/
theorem parseReceiveHeader_sends {d : PktDecoder} {b rest : List UInt8}
    (h : parseReceiveHeader from_hex d b = .done hdr rest) :
    ∀ c ∈ hdr.commands, ∃ l, Except.ok (Pkt.data l) ∈ d.frames b ∧ Sends from_hex l c := by
  intro c hc
  have hrun := Decoder.result_scan (d := d) (f := headerStep from_hex) ⟨[], .none, []⟩ b
  rw [show d.scan (headerStep from_hex) ⟨[], .none, []⟩ b = .done hdr rest from h] at hrun
  exact (headerStep_sends hrun.symm c hc).resolve_left List.not_mem_nil

end

/-! ## From bytes to refs -/

/-- The bytes are UTF-8, without a replacement character. -/
def CleanName (name : List UInt8) : Prop := Utf8.replacement ∉ Utf8.lossy name

instance (name : List UInt8) : Decidable (CleanName name) := inferInstanceAs (Decidable (¬ _))

/-- The ref has the bytes of the name, and no other bytes become it, exactly for clean names. -/
theorem clean_iff (name : List UInt8) :
    (Utf8.encode (refOf name).toList = name ∧ ∀ other, other ≠ name → refOf other ≠ refOf name) ↔
      CleanName name := by
  have htext : ∀ n, (refOf n).toList = Utf8.lossy n := fun n => String.toList_ofList
  rw [htext]
  constructor
  · rintro ⟨hbytes, hapart⟩
    intro hmem
    -- A byte that is no UTF-8 in place of the replacement character gives the same ref.
    obtain ⟨l, r, hlr⟩ := List.append_of_mem hmem
    have hsame : Utf8.lossy (Utf8.encode l ++ 0xff :: Utf8.encode r) = Utf8.lossy name := by
      have hr : Utf8.lossy (Utf8.encode r) = r := by
        have := Utf8.lossy_encode r []
        rwa [List.append_nil, show Utf8.lossy [] = [] from rfl, List.append_nil] at this
      rw [Utf8.lossy_encode, Utf8.lossy_ff, hr, hlr]
    refine hapart (Utf8.encode l ++ 0xff :: Utf8.encode r) (fun heq => ?_)
      (congrArg String.ofList hsame)
    have hlen : (Utf8.encode l ++ 0xff :: Utf8.encode r).length =
        (Utf8.encode (l ++ Utf8.replacement :: r)).length := by
      rw [heq, ← hlr, hbytes]
    have henc : (String.utf8EncodeChar Utf8.replacement).length = 3 := by decide
    simp only [Utf8.encode, List.flatMap_append, List.flatMap_cons, List.length_append,
      List.length_cons, henc] at hlen
    omega
  · intro hno
    -- Where nothing is replaced, the text has the bytes that were read.
    have hbytes : ∀ other, Utf8.lossy other = Utf8.lossy name →
        Utf8.encode (Utf8.lossy other) = other := fun other hlossy =>
      Utf8.encode_of_lossy _ other (Nat.le_refl _) (hlossy ▸ hno)
    refine ⟨hbytes name rfl, fun other hne hsame => hne ?_⟩
    have hlossy : Utf8.lossy other = Utf8.lossy name := by
      rw [← htext, ← htext, hsame]
    calc other = Utf8.encode (Utf8.lossy other) := (hbytes other hlossy).symm
      _ = Utf8.encode (Utf8.lossy name) := by rw [hlossy]
      _ = name := hbytes name rfl

/-! ## The lines of a report -/

/-- The line that tells that a command on the name is done. -/
def okLine (name : List UInt8) : List UInt8 := ascii "ok " ++ name ++ [0x0a]

theorem echoName_graphic {n : List UInt8} : ∀ b ∈ echoName n, isGraphic b = true := by
  intro b hb
  obtain ⟨x, -, rfl⟩ := List.mem_map.mp hb
  split_ifs with hx
  · exact hx
  · decide

theorem echoName_eq_self {n : List UInt8} (h : ∀ b ∈ n, isGraphic b = true) : echoName n = n := by
  refine (List.map_congr_left fun b hb => ?_).trans (List.map_id n)
  rw [if_pos (h b hb)]
  rfl

/-- The line of a done command. -/
theorem withBreak_done (n : List UInt8) :
    withBreak (RefReport.ok n).text = okLine (echoName n) := by
  have hlast : (ascii "ok " ++ echoName n).getLast? ≠ some 0x0a := by
    intro hl
    rcases List.mem_append.mp (List.mem_of_getLast? hl) with h | h
    · revert h
      decide
    · have hg := echoName_graphic _ h
      revert hg
      decide
  rw [RefReport.text, withBreak, if_neg hlast, okLine]

/-- A line that starts with another letter is not the line of a done command. -/
theorem withBreak_ne_okLine {a : UInt8} (s name : List UInt8) (ha : a ≠ 0x6f) :
    withBreak (a :: s) ≠ okLine name := by
  intro heq
  have hhead : (withBreak (a :: s)).head? = some a := by
    unfold withBreak
    split_ifs <;> rfl
  rw [heq] at hhead
  exact ha (Option.some.inj hhead).symm

/-- Lines are written one by one, and one that is too long fails the report. -/
theorem mapM_pktText (l : List RefReport) :
    (l.mapM fun r => pktText r.text) =
      if ∀ r ∈ l, (withBreak r.text).length ≤ maxPktData then
        .ok (l.map fun r => withBreak r.text)
      else .error (.internal "pkt-line over 65516 bytes") := by
  induction l with
  | nil => rfl
  | cons r l ih =>
    rw [List.mapM_cons, ih, pktText]
    simp only [List.forall_mem_cons]
    by_cases hr : (withBreak r.text).length ≤ maxPktData
    · rw [if_neg (not_lt.mpr hr)]
      by_cases hl : ∀ r ∈ l, (withBreak r.text).length ≤ maxPktData
      · rw [if_pos hl, if_pos ⟨hr, hl⟩]
        rfl
      · simp only [hl, and_false, if_false]
        rfl
    · simp only [hr, not_le.mp hr, if_true, false_and, if_false]
      rfl

/-- Every line of the report on these results fits into a packet. -/
def Fits (results : List RefResult) : Prop :=
  ∀ r ∈ results, (withBreak (RefReport.ofResult r).text).length ≤ maxPktData

instance (results : List RefResult) : Decidable (Fits results) :=
  inferInstanceAs (Decidable (∀ r ∈ results, _))

section

variable (hasked : hdr.caps.asked = true)

include hasked

/-- The report on the results of a commit. -/
theorem response_fits (h : Fits results) :
    receiveResponse hdr (.ok results) = .ok (some (withBreak (ascii "unpack ok") ::
      results.map fun r => withBreak (RefReport.ofResult r).text)) := by
  have hmap : ∀ r ∈ results.map RefReport.ofResult, (withBreak r.text).length ≤ maxPktData := by
    intro r hr
    obtain ⟨q, hq, rfl⟩ := List.mem_map.mp hr
    exact h q hq
  have hwrite : writeReportStatus (.ok ()) (results.map RefReport.ofResult) =
      .ok (withBreak (ascii "unpack ok") ::
        results.map fun r => withBreak (RefReport.ofResult r).text) := by
    unfold writeReportStatus
    rw [mapM_pktText, if_pos hmap, pktText, if_neg (by decide), List.map_map]
    rfl
  unfold receiveResponse reportStatus200
  simp only [Except.bind, hasked, Bool.not_true, Bool.false_eq_true, if_false, Bool.and_false,
    hwrite]
  rfl

/-- A report that does not fit tells of no command that it is done. -/
theorem response_not_fits (h : ¬ Fits results) {lines : List (List UInt8)}
    (hlines : receiveResponse hdr (.ok results) = .ok (some lines)) (name : List UInt8) :
    okLine name ∉ lines := by
  have hmap : ¬ ∀ r ∈ results.map RefReport.ofResult, (withBreak r.text).length ≤ maxPktData :=
    fun hall => h fun r hr => hall _ (List.mem_map_of_mem hr)
  have hwrite : writeReportStatus (.ok ()) (results.map RefReport.ofResult) =
      .error (.internal "pkt-line over 65516 bytes") := by
    unfold writeReportStatus
    rw [mapM_pktText, if_neg hmap, pktText, if_neg (by decide)]
    rfl
  unfold receiveResponse reportStatus200 at hlines
  simp only [Except.bind, hasked, Bool.not_true, Bool.false_eq_true, if_false, Bool.and_false,
    hwrite, Except.map, List.isEmpty_nil, Bool.and_self, if_true] at hlines
  -- The second report refuses every command.
  unfold writeReportStatus at hlines
  rw [mapM_pktText] at hlines
  split_ifs at hlines with hfits
  · obtain rfl : withBreak (ascii "unpack internal error") ::
        (hdr.commands.map fun c => RefReport.ng c.name "unpack failed").map
          (fun r => withBreak r.text) = lines := by
      rw [pktText, if_neg (by decide)] at hlines
      exact Option.some.inj (Except.ok.inj hlines)
    intro hmem
    rcases List.mem_cons.mp hmem with hfirst | hrest
    · exact withBreak_ne_okLine _ name (by decide) hfirst.symm
    · obtain ⟨r, hr, hline⟩ := List.mem_map.mp hrest
      obtain ⟨c, -, rfl⟩ := List.mem_map.mp hr
      exact withBreak_ne_okLine _ name (by decide) hline
  · rw [pktText, if_neg (by decide)] at hlines
    cases hlines

end

/-! ## The push path -/

/-- A command went through unchanged: its ref has the bytes of the name that the client sent, a
client that asks for a report is told of it under these bytes, and no other bytes become its ref. -/
structure Survives (hdr : ReceiveHeader) (response : Except Error (Option (List (List UInt8))))
    (c : RefCommand) : Prop where
  row : Utf8.encode c.ref.toList = c.name
  line : hdr.caps.asked = true → ∃ lines, response = .ok (some lines) ∧ okLine c.name ∈ lines
  apart : ∀ name, name ≠ c.name → refOf name ≠ c.ref

/-- A command that a commit reports as done is reported under its ref. -/
theorem commit_reports_ref {env : Env} {now : ℤ} {push : PushId} {pack : Option PackId}
    {principal : String} {tags : Oid → Option Oid} {s : Db}
    (hcommit : ((commitPush env now (hdr.commitRequest push pack principal tags)).run s).res =
      .ok results) {c : RefCommand} {v : RefResult} (hv : (c, v) ∈ hdr.commands.zip results)
    (hdone : v.2 = none) : (c.ref, none) ∈ results := by
  rcases commitPush_effect env now (hdr.commitRequest push pack principal tags) s with
    ⟨-, -, -, hrefused⟩ | ⟨scopes, P, -, -, hres, -⟩
  · exact absurd hdone (hrefused results hcommit v (List.of_mem_zip hv).2)
  · have hnames : results.map Prod.fst = hdr.commands.map RefCommand.ref := by
      rw [hcommit] at hres
      rw [Except.ok.inj hres, landCommands_names]
      simp [ReceiveHeader.commitRequest]
    -- The names of the results are those of the commands, place by place.
    have hname : v.1 = c.ref := by
      obtain ⟨i, hi, hget⟩ := List.mem_iff_getElem.mp hv
      rw [List.getElem_zip] at hget
      obtain ⟨hc, hr⟩ := Prod.mk.inj hget
      have := congrArg (fun l => l[i]?) hnames
      rw [List.length_zip] at hi
      simp only [List.getElem?_map, List.getElem?_eq_getElem (show i < results.length by omega),
        List.getElem?_eq_getElem (show i < hdr.commands.length by omega), hc, hr,
        Option.map_some] at this
      exact Option.some.inj this
    have hmem := (List.of_mem_zip hv).2
    rwa [show v = (c.ref, none) from Prod.ext hname hdone] at hmem

/-- For every request that is parsed and every commit of it: the commands carry the names of the
packets; the refs that change are those of the commands; and a command that is applied goes through
unchanged exactly if its name is UTF-8 without a replacement character and, where a report is sent,
it has printable characters only and the report fits into packet lines. -/
theorem names_survive_iff (from_hex : List UInt8 → Option Oid) (d : PktDecoder) (env : Env)
    {b rest : List UInt8} (hparse : parseReceiveHeader from_hex d b = .done hdr rest) (now : ℤ)
    (push : PushId) (pack : Option PackId) (principal : String) (tags : Oid → Option Oid) (s : Db)
    (hcommit : ((commitPush env now (hdr.commitRequest push pack principal tags)).run s).res =
      .ok results) :
    (∀ c ∈ hdr.commands, ∃ l, Except.ok (Pkt.data l) ∈ d.frames b ∧ Sends from_hex l c) ∧
      (∀ name, ((commitPush env now
        (hdr.commitRequest push pack principal tags)).run s).state.refs.find name ≠
          s.refs.find name → ∃ c ∈ hdr.commands, name = c.ref) ∧
      ∀ x ∈ hdr.commands.zip results, x.2.2 = none →
        (Survives hdr (receiveResponse hdr (.ok results)) x.1 ↔
          CleanName x.1.name ∧ (hdr.caps.asked = true →
            (∀ b ∈ x.1.name, isGraphic b = true) ∧ Fits results)) := by
  refine ⟨parseReceiveHeader_sends hparse, fun name hname => ?_, ?_⟩
  · obtain ⟨-, c, hc, hcname⟩ := commitPush_changed env now _ s name hname
    obtain ⟨d, hd, rfl⟩ := List.mem_map.mp hc
    exact ⟨d, hd, hcname.symm⟩
  rintro ⟨c, v⟩ hx hnone
  have hdone := commit_reports_ref hcommit hx hnone
  rw [← clean_iff c.name]
  constructor
  · rintro ⟨hrow, hline, hapart⟩
    refine ⟨⟨hrow, hapart⟩, fun hasked => ?_⟩
    obtain ⟨lines, hresp, hmem⟩ := hline hasked
    by_cases hfits : Fits results
    · refine ⟨?_, hfits⟩
      rw [response_fits hasked hfits] at hresp
      obtain rfl := Option.some.inj (Except.ok.inj hresp)
      -- Only the lines of done commands start so, and their names are printable.
      rcases List.mem_cons.mp hmem with hfirst | hmem
      · exact absurd hfirst.symm (withBreak_ne_okLine _ c.name (by decide))
      · obtain ⟨⟨n, verdict⟩, -, htext⟩ := List.mem_map.mp hmem
        cases verdict with
        | some m => exact absurd htext (withBreak_ne_okLine _ c.name (by decide))
        | none =>
          rw [show RefReport.ofResult (n, none) = .ok (Utf8.encode n.toList) from rfl,
            withBreak_done, okLine, okLine] at htext
          have hname := List.append_cancel_left (List.append_cancel_right htext)
          rw [← hname]
          exact echoName_graphic
    · exact absurd hmem (response_not_fits hasked hfits hresp c.name)
  · rintro ⟨⟨hrow, hapart⟩, hreport⟩
    refine ⟨hrow, fun hasked => ?_, hapart⟩
    obtain ⟨hgraphic, hfits⟩ := hreport hasked
    refine ⟨_, response_fits hasked hfits, List.mem_cons_of_mem _ (List.mem_map.mpr ⟨_, hdone, ?_⟩)⟩
    rw [show RefReport.ofResult (c.ref, none) = .ok (Utf8.encode c.ref.toList) from rfl,
      withBreak_done, show Utf8.encode c.ref.toList = c.name from hrow, echoName_eq_self hgraphic]

/-! ## Requests -/

/-- An id of either width in hexadecimal digits. -/
def fromHex (hex : List UInt8) : Option Oid :=
  if hex.length = 40 ∨ hex.length = 64 then
    hex.foldlM (fun n b => (hexValue b).map fun d => n * 16 + d) 0
  else none

/-- The packet of a command, with what follows the name. -/
def commandLine (old new : String) (name tail : List UInt8) : List UInt8 :=
  encodeData (ascii old ++ 0x20 :: (ascii new ++ 0x20 :: (name ++ tail)))

/-- A push that is open, with an object in its pack. -/
def receiveReady : Db :=
  let env := Env.default checkRefFormat
  let db := ((pushBegin env 1 .off ⟨1, "admin", "", true, none⟩).run (boot 0)).state
  ((pushIndex 2 ⟨10, 1, 1, 100⟩ [⟨⟨7, 10, 0, 12, 30, .commit, 40⟩, some []⟩]).run db).state

/-- The ids of the requests. -/
def nullHex : String := "0000000000000000000000000000000000000000"

@[inherit_doc nullHex]
def sevenHex : String := "0000000000000000000000000000000000000007"

/-- A request that creates a branch with a printable name. -/
def plainRequest : List UInt8 :=
  commandLine nullHex sevenHex (ascii "refs/heads/main") (0 :: ascii " report-status\n") ++
    ascii "0000"

/-- The header of the request. -/
def plainHeader : ReceiveHeader :=
  ⟨[⟨0, 7, ascii "refs/heads/main"⟩], { ReceiveCaps.none with report_status := true }, []⟩

/-- A printable name goes through the push path unchanged. -/
theorem names_survive_iff_main :
    parseReceiveHeader fromHex pktLine plainRequest = .done plainHeader [] ∧
      Survives plainHeader (receiveResponse plainHeader (.ok [("refs/heads/main", none)]))
        ⟨0, 7, ascii "refs/heads/main"⟩ := by
  have hparse : parseReceiveHeader fromHex pktLine plainRequest = .done plainHeader [] := by
    decide +kernel
  have hcommit : ((commitPush (Env.default checkRefFormat) 3
      (plainHeader.commitRequest 1 (some 10) "admin" fun _ => none)).run receiveReady).res =
        .ok [("refs/heads/main", none)] := by decide +kernel
  refine ⟨hparse, ((names_survive_iff fromHex pktLine (Env.default checkRefFormat) hparse 3 1 (some 10)
    "admin" (fun _ => none) receiveReady hcommit).2.2
      (⟨0, 7, ascii "refs/heads/main"⟩, "refs/heads/main", none) ?_ rfl).mpr ?_⟩
  · exact List.mem_singleton_self _
  · decide +kernel

/-- A name with a byte that is no UTF-8. -/
def strangeName (b : UInt8) : List UInt8 := ascii "refs/heads/" ++ [b]

/-- A request that creates one branch and deletes another, whose names are no UTF-8. -/
def strangeRequest : List UInt8 :=
  commandLine nullHex sevenHex (strangeName 0xff) (0 :: ascii " report-status") ++
    commandLine sevenHex nullHex (strangeName 0xfe) [] ++ ascii "0000"

/-- The header of the request. -/
def strangeHeader : ReceiveHeader :=
  ⟨[⟨0, 7, strangeName 0xff⟩, ⟨7, 0, strangeName 0xfe⟩],
    { ReceiveCaps.none with report_status := true }, []⟩

/-- The commands on two names are both done on one ref, which has the bytes of neither, and the
report carries neither name. -/
theorem names_meet :
    parseReceiveHeader fromHex pktLine strangeRequest = .done strangeHeader [] ∧
      refOf (strangeName 0xff) = refOf (strangeName 0xfe) ∧
      Utf8.encode (refOf (strangeName 0xff)).toList ≠ strangeName 0xff ∧
      ((commitPush (Env.default checkRefFormat) 3
        (strangeHeader.commitRequest 1 (some 10) "admin" fun _ => none)).run receiveReady).res =
          .ok [(refOf (strangeName 0xff), none), (refOf (strangeName 0xff), none)] ∧
      ((commitPush (Env.default checkRefFormat) 3
        (strangeHeader.commitRequest 1 (some 10) "admin" fun _ => none)).run
          receiveReady).state.refs.rows = [] ∧
      receiveResponse strangeHeader
          (.ok [(refOf (strangeName 0xff), none), (refOf (strangeName 0xff), none)]) =
        .ok (some [ascii "unpack ok\n", ascii "ok refs/heads/???\n",
          ascii "ok refs/heads/???\n"]) := by
  decide +kernel

end GitEdge
