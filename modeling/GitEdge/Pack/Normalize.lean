import GitEdge.Pack.Format
import GitEdge.Pack.Resolved

/-!
# What pass B appends

Between two entries the rows describe the new pack from its first entry to its last (`Appended`):
the bytes from a row's offset on are the encoding of the object that the table's entry has, or, of a
blob that was streamed, the entry as it was received. With `Resolved.lean` and the rule of the work
list this gives the result of the whole pass: it always ends; when it succeeds, each entry of the
table has one row; and when it misses a base, an entry has no finite chain of bases.
-/

namespace GitEdge

open Fallible

variable {i size pos fuel : ℕ} {row : IndexRow} {ids : Oid → Option ℕ} {o : Obj} {id : Oid}

namespace PassB

variable (p : PassB) (spec : ObjSpec)

/-- The bytes of an object in a pack: encoded, or as they were received in a full entry. -/
def Wire (wire : List UInt8) (o : Obj) : Prop :=
  p.objLib.encode o = .ok wire ∨ ∃ rc ∈ p.recs, wire = rc.raw p.pack ∧
    rc.kind_or_delta = .full o.1 ∧ spec.unzip (rc.body p.pack) = some o.2

/-- The row describes the object of its entry, in the bytes after the first `start`. -/
structure Describes (row : IndexRow) (start : ℕ) (wire : List UInt8) (o : Obj) : Prop where
  offset : row.offset = headerBytes + start
  len : row.len = wire.length
  kind : row.kind = o.1
  size : row.size = o.2.length
  sha : p.objLib.hash p.fmt o = some row.sha
  wire : p.Wire spec wire o
  object : p.Resolves spec row.idx o

/-- The rows of a pack, in the order of their entries. -/
inductive Appended : List IndexRow → List UInt8 → Prop
  | nil : Appended [] []
  | snoc {rows : List IndexRow} {out wire : List UInt8} {row : IndexRow} {o : Obj}
      (h : Appended rows out) (hrow : p.Describes spec row out.length wire o) :
      Appended (rows ++ [row]) (out ++ wire)

/-- The state between two entries, with the entries that are finished and their ids. -/
structure Finished (fin : List (ℕ × Oid)) (cx : Cx p.store) : Prop where
  sound : p.Sound spec cx
  appended : p.Appended spec (cx.posted ++ cx.rows) cx.out
  rows : (cx.posted ++ cx.rows).map (fun row => (row.idx, row.sha)) = fin
  ids : p.needIds = true → ∀ f ∈ fin, cx.by_id f.2 ≠ none

/-- The state in which an entry is appended but has no row yet. -/
structure Written (fin : List (ℕ × Oid)) (row : IndexRow) (o : Obj) (cx : Cx p.store) : Prop where
  sound : p.Sound spec cx
  appended : p.Appended spec (cx.posted ++ (cx.rows ++ [row])) cx.out
  rows : (cx.posted ++ cx.rows).map (fun row => (row.idx, row.sha)) = fin
  ids : p.needIds = true → ∀ f ∈ fin, cx.by_id f.2 ≠ none
  object : p.Resolves spec row.idx o
  sha : p.objLib.hash p.fmt o = some row.sha
  settled : p.Settled cx.by_id row.idx

variable {p spec} {cx cx' : Cx p.store} {fin : List (ℕ × Oid)} {rc : EntryRec}

theorem Appended.mem {rows : List IndexRow} {out : List UInt8} (h : p.Appended spec rows out)
    (hrow : row ∈ rows) :
    ∃ o, p.Resolves spec row.idx o ∧ p.objLib.hash p.fmt o = some row.sha := by
  induction h with
  | nil => cases hrow
  | snoc _ hlast ih =>
    rcases List.mem_append.mp hrow with hrow | hrow
    · exact ih hrow
    · rw [List.mem_singleton.mp hrow]
      exact ⟨_, hlast.object, hlast.sha⟩

/-- Resolving a base leaves what is finished. -/
theorem Finished.same (h : p.Finished spec fin cx) (hsound : p.Sound spec cx')
    (hsame : p.Same cx cx') :
    p.Finished spec fin cx' where
  sound := hsound
  appended := by
    rw [hsame.posted, hsame.rows, hsame.out]
    exact h.appended
  rows := by
    rw [hsame.posted, hsame.rows]
    exact h.rows
  ids := by
    rw [hsame.by_id]
    exact h.ids

/-! ## The map of ids grows -/

theorem Settled.insert {j : ℕ} (h : p.Settled ids j) (id : Oid) (i : ℕ) :
    p.Settled (Function.update ids id (some i)) j := by
  intro id' hid'
  rcases h id' hid' with hext | hknown
  · exact .inl hext
  · refine .inr ?_
    by_cases heq : id' = id
    · subst heq
      rw [Function.update_self]
      exact Option.some_ne_none i
    · rwa [Function.update_of_ne heq]

theorem At.insert {off : ℕ} (h : p.At spec ids off o) (id : Oid) (i : ℕ) :
    p.At spec (Function.update ids id (some i)) off o := by
  obtain ⟨j, rc, hrc, hoff, hobj, hsettled⟩ := h
  exact ⟨j, rc, hrc, hoff, hobj, hsettled.insert id i⟩

/-- The id of a finished entry may be recorded, over another entry with the same object too. -/
theorem Sound.insert (h : p.Sound spec cx) (hobj : p.Resolves spec i o)
    (hid : p.objLib.hash p.fmt o = some id) (hsettled : p.Settled cx.by_id i) :
    p.Sound spec { cx with by_id := Function.update cx.by_id id (some i) } where
  win := h.win
  off off o' ho := (h.off off o' ho).insert id i
  ext := h.ext
  ids id' j hj := by
    dsimp only at hj ⊢
    by_cases heq : id' = id
    · subst heq
      rw [Function.update_self] at hj
      cases hj
      exact ⟨o, hobj, hid, hsettled.insert id' i⟩
    · rw [Function.update_of_ne heq] at hj
      obtain ⟨o', hobj', hid', hsettled'⟩ := h.ids id' j hj
      exact ⟨o', hobj', hid', hsettled'.insert id i⟩

/-! ## The end of an entry -/

/-- The row is recorded with its id. -/
theorem Written.record (h : p.Written spec fin row o cx) :
    p.Finished spec (fin ++ [(row.idx, row.sha)]) (p.record row p.needIds cx) where
  sound := by
    have hsound := h.sound.insert h.object h.sha h.settled
    unfold PassB.record
    split
    · exact ⟨hsound.win, hsound.off, hsound.ext, hsound.ids⟩
    · exact ⟨h.sound.win, h.sound.off, h.sound.ext, h.sound.ids⟩
  appended := h.appended
  rows := by
    unfold PassB.record
    dsimp only
    rw [← List.append_assoc, List.map_append, h.rows, List.map_singleton]
  ids := by
    intro hneed f hf
    unfold PassB.record
    rw [hneed, if_pos rfl]
    dsimp only
    by_cases heq : f.2 = row.sha
    · rw [heq, Function.update_self]
      exact Option.some_ne_none _
    · rw [Function.update_of_ne heq]
      rcases List.mem_append.mp hf with hf | hf
      · exact h.ids hneed f hf
      · rw [List.mem_singleton.mp hf] at heq
        exact absurd rfl heq

/-- A post moves rows from those that are not posted to those that are. -/
theorem postFull_ends (h : p.Finished spec fin cx) :
    Ends Other p.postFull (fun _ cx' => p.Finished spec fin cx') cx := by
  unfold postFull
  rw [ends_bind, ends_get]
  split
  · rw [ends_bind]
    refine ask_ends fun _ _ => ?_
    rw [ends_modify]
    refine ⟨⟨h.sound.win, h.sound.off, h.sound.ext, h.sound.ids⟩, ?_, ?_, h.ids⟩
    · dsimp only
      rw [List.append_nil]
      exact h.appended
    · dsimp only
      rw [List.append_nil]
      exact h.rows
  · exact h

/-- The end of an entry. What it puts into the cache keeps the cache sound. -/
theorem finishEntry_ends {cache : p.M Unit} (h : p.Written spec fin row o cx)
    (hcache : p.Sound spec (p.record row p.needIds cx) → Ends Other cache (fun _ cx' =>
      p.Sound spec cx' ∧ p.Same (p.record row p.needIds cx) cx') (p.record row p.needIds cx)) :
    Ends Other (p.finishEntry row p.needIds cache) (fun st cx' => st = .done row.sha ∧
      p.Finished spec (fin ++ [(row.idx, row.sha)]) cx') cx := by
  unfold finishEntry
  split
  · exact other_unpack _
  simp only [ends_bind, ends_modify]
  have hfin := h.record
  refine (hcache hfin.sound).mono ?_
  rintro - cx₁ ⟨hcx₁, hsame⟩
  exact (postFull_ends (hfin.same hcx₁ hsame)).bind fun _ cx₂ hcx₂ => ⟨rfl, hcx₂⟩

/-! ## A blob that is streamed -/

variable (p spec) in
/-- The state of the inflater when the body from `bs` to `pos` was handed to it. -/
structure Streamed (bs pos : ℕ) (st : Streaming p.objLib) : Prop where
  goes : st.ended = false → st.used = pos - bs ∧
    p.objLib.Fed st.z ((p.pack.drop bs).take (pos - bs)) st.data
  ended : st.ended = true → st.used ≤ pos - bs ∧
    spec.unzip ((p.pack.drop bs).take st.used) = some st.data

/-- The inner loop takes a whole chunk, or ends with the stream inside it. -/
theorem feedChunk_ok (hlib : p.objLib.Lawful spec) {used : ℕ} {z : p.objLib.Unzip}
    {x data inp : List UInt8} {st : Streaming p.objLib} (hfed : p.objLib.Fed z x data)
    (h : p.feedChunk size pos z used data inp = .ok st) :
    (st.ended = false → st.used = used + inp.length ∧ p.objLib.Fed st.z (x ++ inp) st.data) ∧
    (st.ended = true → ∃ n ≤ inp.length, st.used = used + n ∧
      spec.unzip (x ++ inp.take n) = some st.data) := by
  fun_induction p.feedChunk size pos z used data inp generalizing x with
  | case1 z used data inp m hm => cases h
  | case2 z used data inp c hc hsize => cases h
  | case3 z used data inp c hc hsize hused => cases h
  | case4 z used data inp c hc hsize hused hend =>
    cases h
    refine ⟨fun hgoes => ?_, fun hended => ?_⟩
    · have hall : c.used = inp.length := by
        rcases hend with hall | hended
        · exact hall
        · rw [hended] at hgoes
          cases hgoes
      have hfed' := hfed.call hc hgoes
      rw [hall, List.take_length] at hfed'
      exact ⟨by rw [hall], hfed'⟩
    · exact ⟨c.used, Nat.le_of_not_lt hused, rfl, hlib.feed_ok _ _ _ _ _ hfed hc hended⟩
  | case5 z used data inp c hc hsize hused hend hstall => cases h
  | case6 z used data inp c hc hsize hused hend hstall ih =>
    have hgoes : c.ended = false := by
      rw [not_or, Bool.not_eq_true] at hend
      exact hend.2
    obtain ⟨hgo, hstop⟩ := ih (hfed.call hc hgoes) h
    rw [List.append_assoc, List.take_append_drop] at hgo
    refine ⟨fun hst => ?_, fun hst => ?_⟩
    · obtain ⟨hst, hfed'⟩ := hgo hst
      rw [List.length_drop] at hst
      exact ⟨by omega, hfed'⟩
    · obtain ⟨n, hn, hst, hunzip⟩ := hstop hst
      rw [List.length_drop] at hn
      rw [List.append_assoc, ← List.take_add] at hunzip
      exact ⟨c.used + n, by omega, by omega, hunzip⟩

theorem feedChunk_error {used : ℕ} {z : p.objLib.Unzip} {data inp : List UInt8} {f : Fault}
    (h : p.feedChunk size pos z used data inp = .error f) : Other f := by
  fun_induction p.feedChunk size pos z used data inp with
  | case1 z used data inp m hm =>
    cases h
    exact other_unpack _
  | case2 z used data inp c hc hsize =>
    cases h
    exact other_unpack _
  | case3 z used data inp c hc hsize hused =>
    cases h
    exact other_failed _
  | case4 z used data inp c hc hsize hused hend => cases h
  | case5 z used data inp c hc hsize hused hend hstall =>
    cases h
    exact other_unpack _
  | case6 z used data inp c hc hsize hused hend hstall ih => exact ih h

/-- The chunk from `pos` on is handed to the inflater. -/
theorem Streamed.chunk (hlib : p.objLib.Lawful spec) {bs n : ℕ} {st st' : Streaming p.objLib}
    (hst : p.Streamed spec bs pos st) (hgoes : st.ended = false) (hle : bs ≤ pos)
    {chunk : List UInt8} (hchunk : chunk = (p.pack.drop pos).take n) (hlen : chunk.length = n)
    (h : p.feedChunk size pos st.z st.used st.data chunk = .ok st') :
    p.Streamed spec bs (pos + n) st' := by
  obtain ⟨hused, hfed⟩ := hst.goes hgoes
  obtain ⟨hgo, hstop⟩ := feedChunk_ok hlib hfed h
  -- A slice from `bs` to `pos` and one from `pos` on are one slice from `bs` on.
  have hjoin : ∀ m, m ≤ n → (p.pack.drop bs).take (pos - bs) ++ chunk.take m =
      (p.pack.drop bs).take (pos - bs + m) := by
    intro m hm
    rw [hchunk, List.take_take, Nat.min_eq_left hm, List.take_add, List.drop_drop]
    congr 3
    omega
  refine ⟨fun hst' => ?_, fun hst' => ?_⟩
  · obtain ⟨hused', hfed'⟩ := hgo hst'
    have hall := hjoin n (Nat.le_refl n)
    rw [← hlen, List.take_length] at hall
    rw [hall, hlen] at hfed'
    have hpos : pos + n - bs = pos - bs + n := by omega
    rw [hpos]
    exact ⟨by omega, hfed'⟩
  · obtain ⟨m, hm, hused', hunzip⟩ := hstop hst'
    rw [hjoin m (by omega)] at hunzip
    have hall : st'.used = pos - bs + m := by omega
    rw [hall]
    exact ⟨by omega, hunzip⟩

/-- What streaming a blob does not touch: all but the new pack. -/
structure SameButOut (cx cx' : Cx p.store) : Prop where
  by_id : cx'.by_id = cx.by_id
  rows : cx'.rows = cx.rows
  posted : cx'.posted = cx.posted

/-- The outer loop appends the body up to the window in which the stream ended. -/
theorem streamBody_ends (hlib : p.objLib.Lawful spec) (henv : p.Honest spec) {bs stop : ℕ}
    {st : Streaming p.objLib} (hcx : p.Sound spec cx) (hst : p.Streamed spec bs pos st)
    (hle : bs ≤ pos) (hstop : pos ≤ stop) :
    Ends Other (p.streamBody size pos stop st) (fun st' cx' => ∃ pos', pos ≤ pos' ∧ pos' ≤ stop ∧
      p.Streamed spec bs pos' st' ∧ cx'.out = cx.out ++ (p.pack.drop pos).take (pos' - pos) ∧
      p.Sound spec cx' ∧ SameButOut cx cx') cx := by
  induction hn : stop - pos using Nat.strong_induction_on generalizing pos st cx with
  | _ n ih =>
  unfold streamBody
  split
  · next hgoes =>
    have hwindow : 0 < windowBytes := by decide
    dsimp only
    set w := min (stop - pos) windowBytes with hw
    rw [ends_bind]
    refine ask_ends fun chunk hchunk => ?_
    obtain ⟨hchunk, hlen⟩ := henv.read _ _ _ _ hchunk
    rw [ends_bind]
    refine ends_ofExcept (fun st' hst' => ?_) (fun f hf => feedChunk_error hf)
    have hst₁ := hst.chunk hlib hgoes.2 hle hchunk hlen hst'
    simp only [ends_bind, rawExtend, ends_modify]
    refine ask_ends fun _ _ => ?_
    have hcx₁ : p.Sound spec { cx with clock := cx.clock + 1 + 1, out := cx.out ++ chunk } :=
      ⟨hcx.win, hcx.off, hcx.ext, hcx.ids⟩
    refine (ih (stop - (pos + w)) (by omega) hcx₁ hst₁ (by omega) (by omega) rfl).mono ?_
    rintro st'' cx' ⟨pos', hpos, hpos', hst₂, hout, hcx', hsame⟩
    refine ⟨pos', by omega, hpos', hst₂, ?_, hcx', ⟨hsame.by_id, hsame.rows, hsame.posted⟩⟩
    rw [hout, hchunk, List.append_assoc]
    congr 1
    have hsplit : pos' - pos = w + (pos' - (pos + w)) := by omega
    rw [hsplit, List.take_add, List.drop_drop]
  · refine ⟨pos, Nat.le_refl _, hstop, hst, ?_, hcx, ⟨rfl, rfl, rfl⟩⟩
    rw [Nat.sub_self, List.take_zero, List.append_nil]

theorem At.entry (h : p.At spec ids rc.offset o) (hrc : p.recs[i]? = some rc) :
    p.Resolves spec i o ∧ p.Settled ids i := by
  obtain ⟨j, rj, hj, hoff, hobj, hsettled⟩ := h
  obtain rfl := offset_inj hrc hj hoff.symm
  exact ⟨hobj, hsettled⟩

theorem entryLen_ends (start : ℕ) : Ends Other (p.entryLen start) (fun len cx' => cx' = cx ∧
    len = headerBytes + cx.out.length - start) cx := by
  unfold entryLen outOffset
  simp only [ends_bind, ends_get, ends_pure]
  split
  · exact other_failed _
  · exact ⟨rfl, rfl⟩

/-- The bytes of an entry are its header and its body. -/
theorem raw_eq (pack : List UInt8) (rc : EntryRec) :
    rc.raw pack = (pack.drop rc.offset).take rc.header_len ++
    (pack.drop (rc.offset + rc.header_len)).take rc.compressed_len := by
  unfold EntryRec.raw
  rw [List.take_add, List.drop_drop]

theorem body_eq (pack : List UInt8) (rc : EntryRec) :
    rc.body pack = (pack.drop (rc.offset + rc.header_len)).take rc.compressed_len := by
  unfold EntryRec.body EntryRec.raw
  rw [List.drop_take, List.drop_drop]
  congr 1
  omega

/-- A blob that is streamed is appended as it was received. -/
theorem streamBlob_ends (hlib : p.objLib.Lawful spec) (henv : p.Honest spec) (h : p.Finished spec fin cx)
    (hrc : p.recs[i]? = some rc) (hk : rc.kind_or_delta = .full .blob) :
    Ends Other (p.streamBlob i rc p.needIds) (fun st cx' => ∃ id, st = .done id ∧
      p.Finished spec (fin ++ [(i, id)]) cx') cx := by
  unfold streamBlob outOffset rawExtend
  simp only [ends_bind, ends_get, ends_pure]
  refine ask_ends fun hdr hhdr => ?_
  obtain ⟨hhdr, -⟩ := henv.read _ _ _ _ hhdr
  rw [ends_bind, ends_modify]
  have hcx₁ : p.Sound spec { cx with clock := cx.clock + 1, out := cx.out ++ hdr } :=
    ⟨h.sound.win, h.sound.off, h.sound.ext, h.sound.ids⟩
  have hfresh : p.Streamed spec (rc.offset + rc.header_len) (rc.offset + rc.header_len)
      ⟨p.objLib.fresh, 0, [], false⟩ := by
    refine ⟨fun _ => ⟨(Nat.sub_self _).symm, ?_⟩, fun hended => by cases hended⟩
    rw [Nat.sub_self, List.take_zero]
    exact .fresh
  refine (streamBody_ends hlib henv hcx₁ hfresh (Nat.le_refl _) (Nat.le_add_right _ _)).bind ?_
  rintro st cx₂ ⟨pos', hpos, hstop, hst, hout, hcx₂, hsame⟩
  split
  · exact other_unpack _
  next hchecks =>
  simp only [not_or, Bool.not_eq_false, ne_eq, not_not] at hchecks
  obtain ⟨hended, hsize, hused⟩ := hchecks
  obtain ⟨hle, hunzip⟩ := hst.ended hended
  rw [hused, ← body_eq] at hunzip
  -- The whole body was consumed, so the loop has read to its end.
  have hpos' : pos' - (rc.offset + rc.header_len) = rc.compressed_len := by omega
  rw [hpos', hhdr, List.append_assoc, ← raw_eq] at hout
  have hat : p.At spec cx₂.by_id rc.offset (.blob, st.data) := At.full hrc hk hunzip
  obtain ⟨hobj, hsettled⟩ := hat.entry hrc
  split
  · exact other_unpack _
  next id hid =>
  refine (entryLen_ends _).bind ?_
  rintro len cx₃ ⟨hcx₃, hlen⟩
  subst hcx₃
  have hwritten : p.Written spec fin
      ⟨id, i, headerBytes + cx.out.length, len, .blob, rc.size, none⟩ (.blob, st.data) cx₃ := by
    refine ⟨hcx₂, ?_, ?_, ?_, hobj, hid, hsettled⟩
    · rw [hsame.posted, hsame.rows, hout, ← List.append_assoc]
      refine h.appended.snoc (o := (.blob, st.data)) ⟨rfl, ?_, rfl, hsize.symm, hid, ?_, hobj⟩
      · rw [hlen, hout, List.length_append]
        dsimp only
        omega
      · exact .inr ⟨rc, List.mem_of_getElem? hrc, rfl, hk, hunzip⟩
    · rw [hsame.posted, hsame.rows]
      exact h.rows
    · rw [hsame.by_id]
      exact h.ids
  refine (finishEntry_ends hwritten fun hsound => ?_).mono fun st' cx' h => ⟨id, h⟩
  exact ⟨hsound, .refl _⟩

/-! ## One entry -/

/-- The base of an entry, or what it waits for. -/
theorem entryBase_ends (hlib : p.objLib.Lawful spec) (henv : p.Honest spec) (hcx : p.Sound spec cx)
    (hrc : p.recs[i]? = some rc) :
    Ends Other (p.entryBase rc) (fun b cx' => p.Sound spec cx' ∧ p.Same cx cx' ∧
      match b with
      | none => ∃ k, rc.kind_or_delta = .full k
      | some (.ready o) => (∀ k, rc.kind_or_delta ≠ .full k) ∧
          ∀ d, p.Patched spec rc o.2 d → p.At spec cx.by_id rc.offset (o.1, d)
      | some (.await id) => p.OfsRef i id ∧ p.Unknown cx.by_id id) cx := by
  have hbase := baseById_answers hlib henv maxDepth
  unfold entryBase
  cases hk : rc.kind_or_delta with
  | full k => exact ⟨hcx, .refl cx, k, rfl⟩
  | ofsDelta n =>
    dsimp only
    split
    · exact other_unpack _
    next off hoff =>
    refine (resolveAt_locates hlib henv hbase off cx hcx).bind fun b cx' ⟨hcx', hsame, hb⟩ => ?_
    refine ⟨hcx', hsame, ?_⟩
    cases b with
    | ready o => exact ⟨fun k h => (nomatch h), fun d hd => At.ofs hrc hk hoff hb hd⟩
    | await id =>
      obtain ⟨⟨j, rj, hj, hjoff, href⟩, hunknown⟩ := hb
      exact ⟨.step hrc hk hoff hj hjoff href, hunknown⟩
  | refDelta id =>
    refine (hbase id cx hcx).bind fun b cx' ⟨hcx', hsame, hb⟩ => ?_
    refine ⟨hcx', hsame, ?_⟩
    cases b with
    | ready o => exact ⟨fun k h => (nomatch h), fun d hd => At.ref hrc hk hb hd⟩
    | await id' =>
      obtain ⟨rfl, hunknown⟩ := hb
      exact ⟨.here hrc hk, hunknown⟩

theorem noteTag_ends (hcx : p.Sound spec cx) (id : Oid) (o : Obj) (links : List Oid) :
    Ends Other (p.noteTag id o links) (fun _ cx' => p.Sound spec cx' ∧ p.Same cx cx') cx := by
  unfold noteTag
  split
  · exact ⟨⟨hcx.win, hcx.off, hcx.ext, hcx.ids⟩, ⟨rfl, rfl, rfl, rfl⟩⟩
  · exact ⟨hcx, .refl cx⟩

theorem pushLinks_ends (hcx : p.Sound spec cx) (links : List Oid) :
    Ends Other (p.pushLinks links) (fun _ cx' => p.Sound spec cx' ∧ p.Same cx cx') cx := by
  unfold pushLinks
  simp only [ends_bind, ends_modify, ends_get]
  split
  · exact other_failed _
  · exact ⟨⟨hcx.win, hcx.off, hcx.ext, hcx.ids⟩, ⟨rfl, rfl, rfl, rfl⟩⟩

/-- The object of an entry is appended, with its row, and cached. -/
theorem appendObject_ends (henv : p.Honest spec) (h : p.Finished spec fin cx)
    (hrc : p.recs[i]? = some rc) {base : Option Obj}
    (hdec : ∀ cx', Ends Other (p.decodeMini base (rc.raw p.pack))
      (fun o cx'' => cx'' = cx' ∧ p.At spec cx.by_id rc.offset o) cx') :
    Ends Other (p.appendObject i rc p.needIds base) (fun st cx' => ∃ id, st = .done id ∧
      p.Finished spec (fin ++ [(i, id)]) cx') cx := by
  unfold appendObject
  refine (windowEntry_ends henv h.sound rc).bind ?_
  rintro raw cx₁ ⟨hraw, -, hcx₁, hsame₁⟩
  rw [hraw]
  refine (hdec cx₁).bind ?_
  rintro o cx₂ ⟨hcx₂, hat⟩
  subst hcx₂
  obtain ⟨hobj, hsettled⟩ := hat.entry hrc
  split
  · exact other_unpack _
  next id hid =>
  rw [ends_bind]
  refine ends_ofExcept (fun links _ => ?_) (fun e _ => other_failed e)
  dsimp only
  refine (noteTag_ends hcx₁ id o links).bind ?_
  rintro - cx₃ ⟨hcx₃, hsame₃⟩
  refine (pushLinks_ends hcx₃ links).bind ?_
  rintro - cx₄ ⟨hcx₄, hsame₄⟩
  have hsame := (hsame₁.trans hsame₃).trans hsame₄
  simp only [outOffset, rawExtend, ends_bind, ends_get, ends_pure]
  refine ends_ofExcept (fun wire hwire => ?_) (fun e _ => other_failed e)
  rw [ends_bind, ends_modify]
  refine (entryLen_ends _).bind ?_
  rintro len cx₅ ⟨hcx₅, hlen⟩
  subst hcx₅
  rw [ends_bind]
  refine ask_ends fun _ _ => ?_
  dsimp only at hlen ⊢
  have hwritten : p.Written spec fin ⟨id, i, headerBytes + cx₄.out.length, len, o.1, o.2.length,
      if o.1 = .commit then some (links.drop 1) else none⟩ o
      { cx₄ with out := cx₄.out ++ wire, clock := cx₄.clock + 1 } := by
    refine ⟨⟨hcx₄.win, hcx₄.off, hcx₄.ext, hcx₄.ids⟩, ?_, ?_, ?_, hobj, hid, ?_⟩
    · dsimp only
      rw [hsame.posted, hsame.rows, hsame.out, ← List.append_assoc]
      refine h.appended.snoc (o := o) ⟨rfl, ?_, rfl, rfl, hid, .inl hwire, hobj⟩
      rw [hlen, List.length_append]
      dsimp only
      omega
    · dsimp only
      rw [hsame.posted, hsame.rows]
      exact h.rows
    · dsimp only
      rw [hsame.by_id]
      exact h.ids
    · dsimp only
      rw [hsame.by_id]
      exact hsettled
  refine (finishEntry_ends hwritten fun hsound => ?_).mono fun st cx' h => ⟨id, h⟩
  refine (cachePut_off_ends hsound ?_).bind fun _ cx' h => h.2
  unfold record
  dsimp only
  rw [hsame.by_id]
  split
  · exact hat.insert id i
  · exact hat

/-- What one entry does: it is finished, with a row, or it waits for a base that is not known. -/
theorem oneEntry_ends (hlib : p.objLib.Lawful spec) (henv : p.Honest spec) (h : p.Finished spec fin cx)
    (i : ℕ) :
    Ends Other (p.oneEntry p.needIds i) (fun st cx' =>
      match st with
      | .done id => p.Finished spec (fin ++ [(i, id)]) cx'
      | .await id => p.Finished spec fin cx' ∧ p.OfsRef i id ∧ p.Unknown cx.by_id id) cx := by
  have hdone : ∀ {m : p.M (Waiters.Step Oid)} {c : Cx p.store}, Ends Other m (fun st cx' => ∃ id,
      st = .done id ∧ p.Finished spec (fin ++ [(i, id)]) cx') c → Ends Other m (fun st cx' =>
      match st with
      | .done id => p.Finished spec (fin ++ [(i, id)]) cx'
      | .await id => p.Finished spec fin cx' ∧ p.OfsRef i id ∧ p.Unknown cx.by_id id) c := by
    intro m c hm
    refine hm.mono fun st cx' ⟨id, hst, hfin⟩ => ?_
    subst hst
    exact hfin
  unfold oneEntry
  split
  · exact other_failed _
  next rc hrc =>
  have hmem := List.mem_of_getElem? hrc
  split
  · next hblob => exact hdone (streamBlob_ends hlib henv h hrc hblob.1)
  · refine (entryBase_ends hlib henv h.sound hrc).bind fun b cx₁ ⟨hcx₁, hsame, hb⟩ => ?_
    have h₁ := h.same hcx₁ hsame
    cases b with
    | none =>
      obtain ⟨k, hk⟩ := hb
      refine hdone (appendObject_ends henv h₁ hrc fun cx₂ => ?_)
      refine (decodeMini_full hlib hmem hk none).mono fun o' cx₃ ⟨hcx₃, hkind, hd⟩ => ⟨hcx₃, ?_⟩
      obtain ⟨k', d⟩ := o'
      cases hkind
      exact At.full hrc hk hd
    | some b =>
      cases b with
      | await id => exact ⟨h₁, hb⟩
      | ready o =>
        obtain ⟨hdelta, hnext⟩ := hb
        refine hdone (appendObject_ends henv h₁ hrc fun cx₂ => ?_)
        refine (decodeMini_delta hlib hmem hdelta o).mono fun o' cx₃ ⟨hcx₃, hkind, hd⟩ => ⟨hcx₃, ?_⟩
        obtain ⟨k, d⟩ := o'
        cases hkind
        rw [hsame.by_id]
        exact hnext d hd

/-- The work list's step. -/
theorem oneEntry_keeps (hlib : p.objLib.Lawful spec) (henv : p.Honest spec) :
    Waiters.Keeps (p.oneEntry p.needIds) (p.Finished spec)
      (fun i id => p.OfsRef i id ∧ ¬p.IsExternal id) Other where
  done i fin cx id cx' h hstep := (oneEntry_ends hlib henv h i).of_ok hstep
  await i fin cx id cx' h hstep := by
    obtain ⟨h', href, hnone, hext⟩ := (oneEntry_ends hlib henv h i).of_ok hstep
    refine ⟨h', ⟨href, hext⟩, fun hmem => ?_⟩
    -- The ids of the finished entries are recorded, since there is a delta over an id.
    obtain ⟨f, hf, rfl⟩ := List.mem_map.mp hmem
    exact h.ids href.needIds f hf hnone
  error i fin cx f h hstep := (oneEntry_ends hlib henv h i).of_error hstep

/-! ## The whole pass -/

theorem prefetchLocs_sub {l : List (Oid × ObjLoc)} {sum : ℕ}
    (h : id ∈ (prefetchLocs l sum).map (·.1)) : id ∈ l.map (·.1) := by
  induction l generalizing sum with
  | nil => exact h
  | cons e es ih =>
    unfold prefetchLocs at h
    rw [List.map_cons, List.mem_cons]
    split at h
    · split at h
      · cases h
      · rw [List.map_cons, List.mem_cons] at h
        rcases h with h | h
        · exact .inl h
        · exact .inr (ih h)
    · exact .inr (ih h)

theorem cacheBases_ends {es : List (Oid × List UInt8)} (hcx : p.Sound spec cx)
    (hes : ∀ e ∈ es, p.IsExternal e.1 ∧
      ∀ o, p.objLib.decode e.2 = .ok o → spec.stored e.1 = some o) :
    Ends Other (p.cacheBases es) (fun _ cx' => p.Sound spec cx' ∧ p.Same cx cx') cx := by
  induction es generalizing cx with
  | nil => exact ⟨hcx, .refl cx⟩
  | cons e es ih =>
    unfold cacheBases
    obtain ⟨hext, hobj⟩ := hes e (by simp)
    rw [ends_bind]
    refine ends_ofExcept (fun o ho => ?_) (fun m _ => other_failed m)
    refine (cachePut_id_ends hcx ⟨hext, hobj o ho⟩).bind fun _ cx₁ ⟨_, hcx₁, hsame₁⟩ => ?_
    have hrest : ∀ e' ∈ es, _ := fun e' he' => hes e' (by simp [he'])
    exact (ih hcx₁ hrest).mono fun _ cx₂ ⟨hcx₂, hsame₂⟩ => ⟨hcx₂, hsame₁.trans hsame₂⟩

theorem start_finished : p.Finished spec [] p.start where
  sound :=
    { win := List.nil_prefix
      off := fun off o h => by
        rw [show p.start.cache = p.store.empty from rfl, p.store.get_empty] at h
        cases h
      ext := fun id o h => by
        rw [show p.start.cache = p.store.empty from rfl, p.store.get_empty] at h
        cases h
      ids := fun id j h => by cases h }
  appended := .nil
  rows := rfl
  ids _ f hf := by cases hf

theorem prefetch_ends (henv : p.Honest spec) (h : p.Finished spec fin cx) :
    Ends Other p.prefetch (fun _ cx' => p.Finished spec fin cx') cx := by
  unfold prefetch
  simp only [ends_bind, ends_get, ends_set]
  have hcx₁ : p.Sound spec { cx with clock := cx.clock + 1 } :=
    ⟨h.sound.win, h.sound.off, h.sound.ext, h.sound.ids⟩
  have h₁ : p.Finished spec fin { cx with clock := cx.clock + 1 } :=
    h.same hcx₁ ⟨rfl, rfl, rfl, rfl⟩
  split
  · next es hes =>
    refine (cacheBases_ends hcx₁ fun e he => ?_).mono fun _ cx' h => h₁.same h.1 h.2
    obtain ⟨hmem, hobj⟩ := henv.stored _ _ _ e hes he
    exact ⟨prefetchLocs_sub hmem, hobj⟩
  · exact h₁

/-- The pass ends after at most as many turns of the work list, whatever the table is. -/
theorem resolveAndNormalize_isSome (h : p.recs.length ^ 2 + p.recs.length < fuel) :
    (p.resolveAndNormalize fuel).isSome := by
  unfold resolveAndNormalize
  split
  · rfl
  · next cx _ =>
    have hrun :
        (Waiters.run (p.oneEntry p.needIds) fuel (List.range p.recs.length) [] cx).isSome := by
      apply Waiters.run_isSome
      rw [List.length_range, List.length_nil, Nat.add_zero]
      exact h
    split
    · next hnone =>
      rw [hnone] at hrun
      cases hrun
    · rfl
    · rfl
    · rfl

/-- More fuel changes nothing. -/
theorem resolveAndNormalize_mono {fuel' : ℕ} {r : Except Fault (Cx p.store)}
    (h : p.resolveAndNormalize fuel = some r) (hle : fuel ≤ fuel') :
    p.resolveAndNormalize fuel' = some r := by
  unfold resolveAndNormalize at h ⊢
  split
  · next e he =>
    rw [he] at h
    exact h
  · next cx hcx =>
    rw [hcx] at h
    dsimp only at h
    cases hrun : Waiters.run (p.oneEntry p.needIds) fuel (List.range p.recs.length) [] cx with
    | none =>
      rw [hrun] at h
      cases h
    | some r' =>
      rw [hrun] at h
      rw [Waiters.run_mono hrun hle]
      exact h

/-- The work list at the end of the pass: each entry is finished or waits. -/
theorem run_finished (hlib : p.objLib.Lawful spec) (henv : p.Honest spec) {cx₀ cx : Cx p.store}
    {waiting : List (Oid × ℕ)} (hpre : p.prefetch p.start = .ok ((), cx₀))
    (hrun : Waiters.run (p.oneEntry p.needIds) fuel (List.range p.recs.length) [] cx₀ =
      some (.ok (waiting, cx))) :
    ∃ fin, p.Finished spec fin cx ∧
      Waiters.Wait (fun i id => p.OfsRef i id ∧ ¬p.IsExternal id) fin waiting ∧
      (fin.map (·.1) ++ waiting.map (·.2)).Perm (List.range p.recs.length) := by
  have hstart : p.Finished spec [] p.start := start_finished
  have h₀ := (prefetch_ends henv hstart).of_ok hpre
  obtain ⟨fin, hfin, hwait, hperm⟩ :=
    (oneEntry_keeps hlib henv).run_ok h₀ (fun w hw => by cases hw) hrun
  refine ⟨fin, hfin, hwait, ?_⟩
  simpa using hperm

theorem Resolves.lt (h : p.Resolves spec i o) : i < p.recs.length := by
  have hrc : ∃ rc, p.recs[i]? = some rc := by
    cases h with
    | full hrc _ _ => exact ⟨_, hrc⟩
    | ofs hrc _ _ _ _ _ _ => exact ⟨_, hrc⟩
    | own hrc _ _ _ _ => exact ⟨_, hrc⟩
    | thin hrc _ _ _ => exact ⟨_, hrc⟩
  obtain ⟨rc, hrc⟩ := hrc
  exact (List.getElem?_eq_some_iff.mp hrc).1

/-- When every entry has a finite chain of bases, an entry's offset deltas lead to a base that is
known. -/
theorem Grounded.known (henv : p.Honest spec) {waiting : List (Oid × ℕ)}
    (hfin : p.Finished spec fin cx)
    (hwait : Waiters.Wait (fun i id => p.OfsRef i id ∧ ¬p.IsExternal id) fin waiting)
    (hall : ∀ i < p.recs.length, i ∈ fin.map (·.1) ∨ i ∈ waiting.map (·.2)) (h : p.Grounded spec i)
    (href : p.OfsRef i id) : p.IsExternal id ∨ id ∈ fin.map (·.2) := by
  induction h generalizing id with
  | full hrc hk =>
    have hinv := href.inv hrc
    rw [hk] at hinv
    exact hinv.elim
  | ofs hrc hk hoff hj hjoff _ ih =>
    have hinv := href.inv hrc
    rw [hk] at hinv
    obtain ⟨off', j', rj', hoff', hj', hjoff', href'⟩ := hinv
    rw [hoff] at hoff'
    cases hoff'
    obtain rfl := offset_inj hj hj' (hjoff.trans hjoff'.symm)
    exact ih href'
  | @own _ j _ _ _ hrc hk hb hobj hid ih =>
    have hinv := href.inv hrc
    rw [hk] at hinv
    cases hinv
    rcases hall j hobj.lt with hmem | hmem
    · -- The base is finished, and its row has the id of its only object.
      obtain ⟨f, hf, rfl⟩ := List.mem_map.mp hmem
      have hf' := hf
      rw [← hfin.rows] at hf'
      obtain ⟨row, hrow, rfl⟩ := List.mem_map.mp hf'
      obtain ⟨o, hobj', hsha⟩ := hfin.appended.mem hrow
      obtain rfl := hobj.unique henv hobj'
      rw [hid] at hsha
      cases hsha
      exact .inr (List.mem_map.mpr ⟨_, hf, rfl⟩)
    · -- The base waits itself, for a base that is not known.
      obtain ⟨w, hw, rfl⟩ := List.mem_map.mp hmem
      obtain ⟨⟨href', hext⟩, hnot⟩ := hwait w hw
      rcases ih href' with h | h
      · exact absurd h hext
      · exact absurd h hnot
  | thin hrc hk hb =>
    have hinv := href.inv hrc
    rw [hk] at hinv
    cases hinv
    exact .inl hb

/-- A pass that succeeds has made a row of each entry. -/
theorem resolveAndNormalize_ok (hlib : p.objLib.Lawful spec) (henv : p.Honest spec)
    (h : p.resolveAndNormalize fuel = some (.ok cx)) :
    ((cx.posted ++ cx.rows).map (·.idx)).Perm (List.range p.recs.length) ∧
      p.Appended spec (cx.posted ++ cx.rows) cx.out := by
  unfold resolveAndNormalize at h
  split at h
  · cases h
  next cx₀ hpre =>
  split at h
  · cases h
  · cases h
  · next cx' hrun =>
    cases h
    obtain ⟨fin, hfin, -, hperm⟩ := run_finished hlib henv hpre hrun
    rw [List.map_nil, List.append_nil, ← hfin.rows, List.map_map] at hperm
    exact ⟨hperm, hfin.appended⟩
  · cases h

/-- A pass that misses a base was given an entry without a finite chain of bases. -/
theorem resolveAndNormalize_missing (hlib : p.objLib.Lawful spec) (henv : p.Honest spec)
    (h : p.resolveAndNormalize fuel = some (.error (.missingBase id))) :
    ∃ i < p.recs.length, ¬p.Grounded spec i := by
  have hstart : p.Finished spec [] p.start := start_finished
  unfold resolveAndNormalize at h
  split at h
  · next f hpre =>
    cases h
    exact absurd rfl ((prefetch_ends henv hstart).of_error hpre id)
  next cx₀ hpre =>
  split at h
  · cases h
  · next f hrun =>
    cases h
    have h₀ := (prefetch_ends henv hstart).of_ok hpre
    exact absurd rfl ((oneEntry_keeps hlib henv).run_error h₀ hrun id)
  · cases h
  · next w ws cx' hrun =>
    cases h
    obtain ⟨fin, hfin, hwait, hperm⟩ := run_finished hlib henv hpre hrun
    by_contra hall
    have hgrounded : ∀ i < p.recs.length, p.Grounded spec i := by
      intro i hi
      by_contra hnot
      exact hall ⟨i, hi, hnot⟩
    have hplace : ∀ i < p.recs.length, i ∈ fin.map (·.1) ∨ i ∈ (w :: ws).map (·.2) := by
      intro i hi
      exact List.mem_append.mp (hperm.mem_iff.mpr (List.mem_range.mpr hi))
    -- The first entry that waits has a base that is known after all.
    have hw : w ∈ w :: ws := List.mem_cons_self
    obtain ⟨⟨href, hext⟩, hnot⟩ := hwait w hw
    have hlt : w.2 < p.recs.length :=
      List.mem_range.mp
        (hperm.mem_iff.mp (List.mem_append.mpr (.inr (List.mem_map.mpr ⟨w, hw, rfl⟩))))
    rcases (hgrounded w.2 hlt).known henv hfin hwait hplace href with hknown | hknown
    · exact hext hknown
    · exact hnot hknown

/-- The resolution of deltas, for every table and every cache: the pass ends; if it succeeds, each
entry is appended once, with its only object; and if it misses a base, an entry has no finite chain
of bases. -/
theorem delta_resolution (p : PassB) (spec : ObjSpec) (hlib : p.objLib.Lawful spec)
    (henv : p.Honest spec) :
    (∃ r, ∀ fuel, p.recs.length ^ 2 + p.recs.length < fuel → p.resolveAndNormalize fuel = some r) ∧
    (∀ fuel cx, p.resolveAndNormalize fuel = some (.ok cx) →
      ((cx.posted ++ cx.rows).map (·.idx)).Perm (List.range p.recs.length) ∧
      p.Appended spec (cx.posted ++ cx.rows) cx.out ∧
      ∀ i o o', p.Resolves spec i o → p.Resolves spec i o' → o = o') ∧
    (∀ fuel id, p.resolveAndNormalize fuel = some (.error (.missingBase id)) →
      ∃ i < p.recs.length, ¬p.Grounded spec i) := by
  refine ⟨?_, fun fuel cx h => ?_, fun fuel id h => resolveAndNormalize_missing hlib henv h⟩
  · have hsome := resolveAndNormalize_isSome (Nat.lt_succ_self (p.recs.length ^ 2 + p.recs.length))
    obtain ⟨r, hr⟩ := Option.isSome_iff_exists.mp hsome
    exact ⟨r, fun fuel hfuel => resolveAndNormalize_mono hr hfuel⟩
  · obtain ⟨hperm, happended⟩ := resolveAndNormalize_ok hlib henv h
    exact ⟨hperm, happended, fun i o o' ho ho' => ho.unique henv ho'⟩

/-! ### A delta before its base

A table whose first entry is a delta over the second one: it waits, and the second one wakes it. -/

/-- The libraries for streams of stored blocks. They know the links of blobs only, which have
none. -/
def storedObjLib : ObjLib where
  baseOffset off n := if n = 0 ∨ off < n then none else some (off - n)
  inflate n y := ((Zlib.inflate y).filter (·.length = n)).elim (.error "corrupt entry") .ok
  patch b n y := (((Zlib.inflate y).filter (·.length = n)).bind (applyDelta b.2)).elim
    (.error "corrupt entry") .ok
  Unzip := Zlib.State
  fresh := Zlib.start
  feed z buf := (Machine.run Zlib.step z buf).map fun r => ⟨r.state, r.used, r.made, r.ended⟩
  hash fmt o := some (Fips180.beValue (objectDigest fmt o))
  extractLinks _ o := if o.1 = .blob then .ok [] else .error (.internal "links")
  encode o := .ok (encodeEntry o)
  decode d :=
    match entryHeader .sha1 d with
    | some ((.full k, n), h) => ((Zlib.inflate (d.drop h)).filter (·.length = n)).elim
      (.error (.storage "entry size does not match its header")) fun x => .ok (k, x)
    | _ => .error (.storage "entry")

/-- Their meaning, in a repository without objects. -/
def storedSpec : ObjSpec := ⟨Zlib.inflate, applyDelta, fun _ => none⟩

/-- The calls of the inflater before some point are a path. -/
theorem stored_fed {z : storedObjLib.Unzip} {x o : List UInt8} (h : storedObjLib.Fed z x o) :
    Machine.Path Zlib.step Zlib.start x o z false := by
  induction h with
  | fresh => exact .nil _
  | call _ hc hgoes ih =>
    obtain ⟨r, hr, rfl⟩ := Machine.map_eq_ok hc
    have hpath := (Machine.run_ok hr).1
    rw [show r.ended = false from hgoes] at hpath
    exact ih.append hpath

theorem elim_error_ok {α : Type} {v : Option α} {m : String} {a : α}
    (h : v.elim (.error m) .ok = (.ok a : Except String α)) : v = some a := by
  cases v with
  | none => cases h
  | some b => exact congrArg some (Except.ok.inj h)

theorem storedObjLib_lawful : storedObjLib.Lawful storedSpec where
  inflate_ok n y d h := (Option.filter_eq_some_iff.mp (elim_error_ok h)).1
  patch_ok b n y d h := by
    obtain ⟨δ, hδ, hd⟩ := Option.bind_eq_some_iff.mp (elim_error_ok h)
    exact ⟨δ, (Option.filter_eq_some_iff.mp hδ).1, hd⟩
  feed_ok z x o buf c hfed hc hend := by
    obtain ⟨r, hr, rfl⟩ := Machine.map_eq_ok hc
    have hpath := (Machine.run_ok hr).1
    rw [show r.ended = true from hend] at hpath
    exact Zlib.inflate_of_path ((stored_fed hfed).append hpath)

/-- The pass over a pack of a sha1 repository, with the table of its entries, and the source's
cache. -/
def overPack (pack : List UInt8) (recs : List EntryRec) (sorted : recs.Pairwise (·.offset < ·.offset))
    (table : recs.map (fun rc => storedLib.fromBytes .sha1 (rc.raw pack)) =
      recs.map fun rc => .ok ⟨rc.kind_or_delta, rc.size, rc.header_len⟩) : PassB where
  lib := storedLib
  objLib := storedObjLib
  env := ⟨fun _ off n => if off + n ≤ pack.length then .ok ((pack.drop off).take n)
    else .error (.storage "short read"), fun _ _ => .ok [], fun _ => .ok (), fun _ _ => .ok ()⟩
  store := Cache.lossy cacheBytes
  fmt := .sha1
  pack := pack
  recs := recs
  sorted := sorted
  header rc hrc e he := by
    rw [List.map_inj_left.mp table rc hrc] at he
    cases he
    exact ⟨rfl, rfl⟩
  externals := []

/-- A delta over the blob `[9]`, which makes `[9, 5]` of it, and then the blob. -/
def forwardEntries : List (List UInt8) :=
  [entryBytes 7 (objectDigest .sha1 (.blob, [9])) [1, 2, 0x90, 1, 1, 5], encodeEntry (.blob, [9])]

def forwardRecs : List EntryRec :=
  [⟨12, 21, .refDelta (Fips180.beValue (objectDigest .sha1 (.blob, [9]))), 17, 6⟩,
    ⟨50, 1, .full .blob, 12, 1⟩]

def forward : PassB :=
  overPack (packObject (Codec.git .sha1) forwardEntries) forwardRecs (by decide +kernel)
    (by decide +kernel)

/-- The blob and what the delta makes of it have different ids. -/
theorem forward_ids {o' : Obj} (ho : o = (.blob, [9]) ∨ o = (.blob, [9, 5]))
    (ho' : o' = (.blob, [9]) ∨ o' = (.blob, [9, 5]))
    (h : storedObjLib.hash .sha1 o = storedObjLib.hash .sha1 o') : o = o' := by
  have hne : storedObjLib.hash .sha1 (.blob, [9]) ≠ storedObjLib.hash .sha1 (.blob, [9, 5]) := by
    decide +kernel
  rcases ho with rfl | rfl <;> rcases ho' with rfl | rfl
  · rfl
  · exact absurd h hne
  · exact absurd h hne.symm
  · rfl

/-- The pack has no other objects. -/
theorem forward_objects (h : forward.Resolves storedSpec i o) :
    o = (.blob, [9]) ∨ o = (.blob, [9, 5]) := by
  have hbodies : forward.recs.map (fun rc => (rc.kind_or_delta, Zlib.inflate (rc.body forward.pack))) =
      [(.refDelta (Fips180.beValue (objectDigest .sha1 (.blob, [9]))), some [1, 2, 0x90, 1, 1, 5]),
        (.full .blob, some [9])] := by decide +kernel
  have hmem : ∀ {i : ℕ} {rc : EntryRec}, forward.recs[i]? = some rc →
      (rc.kind_or_delta, Zlib.inflate (rc.body forward.pack)) ∈ _ := fun hrc =>
    hbodies ▸ List.mem_map_of_mem (List.mem_of_getElem? hrc)
  simp only [List.mem_cons, Prod.mk.injEq, List.not_mem_nil, or_false] at hmem
  induction h with
  | full hrc hk hd =>
    rcases hmem hrc with ⟨hkind, -⟩ | ⟨hkind, hbody⟩
    · cases hk.symm.trans hkind
    · cases hk.symm.trans hkind
      cases hd.symm.trans hbody
      exact .inl rfl
  | ofs hrc hk _ _ _ _ _ _ =>
    rcases hmem hrc with ⟨hkind, -⟩ | ⟨hkind, -⟩ <;> cases hk.symm.trans hkind
  | own hrc hk _ hid hd ih =>
    rcases hmem hrc with ⟨hkind, hbody⟩ | ⟨hkind, -⟩
    · -- The base is the blob, since the other object has another id.
      cases hk.symm.trans hkind
      obtain rfl := forward_ids ih (.inl rfl) hid
      obtain ⟨δ, hδ, hd⟩ := hd
      cases hδ.symm.trans hbody
      cases hd
      exact .inr rfl
    · cases hk.symm.trans hkind
  | thin _ _ hb _ => cases hb.2

theorem forward_honest : forward.Honest storedSpec where
  read t off n d h := by
    simp only [forward, overPack] at h ⊢
    split_ifs at h with hle
    cases h
    refine ⟨rfl, ?_⟩
    rw [List.length_take, List.length_drop]
    omega
  stored t locs es e h he := by
    cases h
    cases he
  distinct id o o' h h' := by
    rcases h with ⟨-, h⟩ | ⟨i, hobj, hid⟩
    · cases h
    rcases h' with ⟨-, h⟩ | ⟨i', hobj', hid'⟩
    · cases h
    exact forward_ids (forward_objects hobj) (forward_objects hobj') (hid.trans hid'.symm)

/-- What a pass has appended. -/
def summary {p : PassB} : Option (Except Fault (Cx p.store)) → Option (List ℕ × List UInt8)
  | some (.ok cx) => some ((cx.posted ++ cx.rows).map (·.idx), cx.out)
  | _ => none

/-- The delta is appended after its base, with the bytes of both. -/
theorem forward_delta_resolved :
    ∃ cx, forward.resolveAndNormalize 7 = some (.ok cx) ∧
      (cx.posted ++ cx.rows).map (·.idx) = [1, 0] ∧
      cx.out = encodeEntry (.blob, [9]) ++ encodeEntry (.blob, [9, 5]) ∧
      ((cx.posted ++ cx.rows).map (·.idx)).Perm (List.range 2) ∧
      forward.Appended storedSpec (cx.posted ++ cx.rows) cx.out := by
  have hrun : summary (forward.resolveAndNormalize 7) = some
    ([1, 0], encodeEntry (.blob, [9]) ++ encodeEntry (.blob, [9, 5])) := by decide +kernel
  cases hr : forward.resolveAndNormalize 7 with
  | none =>
    rw [hr] at hrun
    cases hrun
  | some r =>
    rw [hr] at hrun
    cases r with
    | error e => cases hrun
    | ok cx =>
      have hsum := Option.some.inj hrun
      obtain ⟨hperm, happended, -⟩ :=
        (delta_resolution forward storedSpec storedObjLib_lawful forward_honest).2.1 7 cx hr
      exact ⟨cx, rfl, congrArg Prod.fst hsum, congrArg Prod.snd hsum, hperm, happended⟩

end PassB

end GitEdge
