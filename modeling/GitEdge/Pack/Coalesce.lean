import GitEdge.Lib.Windows
import GitEdge.Pack.Emit

/-!
# The reads of a pack

`coalesce` of `pack/generate.rs` plans the range reads of the marked entries of a pack. An entry
joins the last read when the gap to it is small and the read stays within a window of 8 MiB;
otherwise it starts a read of its own, and one that is longer than a window is read in fragments,
the last of which the next entry may join. `pack_chunk` makes a read and copies the listed ranges.

Whatever the gap, the listed ranges put together are the entries, each lies in its read, and no read
is longer than a window (`coalesce_exact`). The pieces of an entry are the same for every gap: the
entry, or the windows that a longer one is cut into. With the largest gap the plan has as few reads
as windows are needed to hold each piece in one, so `plan_reads` stays within the number of windows
of the pack exactly if so many windows are enough for the pieces (`plan_within_windows_iff`). Three
entries of 5 MiB need three.
-/

namespace GitEdge

variable {pack pos len : ℕ} {r : ReadSpan} {l : ObjRow} {done locs : List ObjRow}

/-! ## One step of the plan -/

/-- Entries of a pack in the order of their offsets, none of which reaches into the next. -/
def Apart (locs : List ObjRow) : Prop := locs.Pairwise fun a b => a.offset + a.len ≤ b.offset

instance (locs : List ObjRow) : Decidable (Apart locs) :=
  inferInstanceAs (Decidable (List.Pairwise _ _))

/-- The entry joins the read. -/
def Joins (gap : ℕ) (r : ReadSpan) (l : ObjRow) : Prop :=
  l.offset - (r.off + r.len) < gap ∧ l.offset + l.len - r.off ≤ readWindow

/-- The read with an entry that joined it. -/
def ReadSpan.join (r : ReadSpan) (l : ObjRow) : ReadSpan :=
  { r with len := l.offset + l.len - r.off, ents := r.ents ++ [(l.offset, l.len)] }

/-- The reads after another entry. -/
def addLoc (pack gap : ℕ) (out : List ReadSpan) (l : ObjRow) : List ReadSpan :=
  match out.getLast? with
  | some r =>
    if l.offset - (r.off + r.len) < gap && l.offset + l.len - r.off ≤ readWindow then
      out.dropLast ++
        [{ r with len := l.offset + l.len - r.off, ents := r.ents ++ [(l.offset, l.len)] }]
    else out ++ fragments pack l.offset l.len
  | none => out ++ fragments pack l.offset l.len

theorem coalesce_eq_foldl (pack gap : ℕ) (locs : List ObjRow) :
    coalesce pack gap locs = locs.foldl (addLoc pack gap) [] := rfl

/-- An entry joins the last read, or adds its fragments. -/
theorem addLoc_cases (pack gap : ℕ) (out : List ReadSpan) (l : ObjRow) :
    (∃ front r, out = front ++ [r] ∧ Joins gap r l ∧ addLoc pack gap out l = front ++ [r.join l]) ∨
      (addLoc pack gap out l = out ++ fragments pack l.offset l.len ∧
        ∀ r ∈ out.getLast?, ¬ Joins gap r l) := by
  unfold addLoc
  cases hlast : out.getLast? with
  | none => exact .inr ⟨rfl, fun r hr => by cases hr⟩
  | some r =>
    obtain ⟨front, rfl⟩ := List.getLast?_eq_some_iff.mp hlast
    dsimp only
    split_ifs with hjoin
    · rw [Bool.and_eq_true, decide_eq_true_eq, decide_eq_true_eq] at hjoin
      exact .inl ⟨front, r, rfl, hjoin, by rw [List.dropLast_concat]; rfl⟩
    · rw [Bool.and_eq_true, decide_eq_true_eq, decide_eq_true_eq] at hjoin
      refine .inr ⟨rfl, fun r' hr' => ?_⟩
      cases hr'
      exact hjoin

/-! ## Pieces -/

/-- The pieces of an entry, by where they start and stop: the entry itself, or the windows that a
longer one is cut into. -/
def pieces (l : ObjRow) : List (ℕ × ℕ) :=
  (fragments 0 l.offset l.len).map fun r => (r.off, r.off + r.len)

theorem readWindow_pos : 0 < readWindow := by decide

/-- The fragments of an entry: the windows from its offset on that start before its end. -/
theorem mem_fragments :
    r ∈ fragments pack pos len ↔ ∃ i, i * readWindow < len ∧
      r = ⟨pack, pos + i * readWindow, min readWindow (len - i * readWindow),
        [(pos + i * readWindow, min readWindow (len - i * readWindow))]⟩ := by
  have hceil : ∀ i, i < (len + readWindow - 1) / readWindow ↔ i * readWindow < len := by
    intro i
    rw [Nat.lt_div_iff_mul_lt readWindow_pos]
    have hpos := readWindow_pos
    omega
  unfold fragments
  rw [List.mem_map]
  constructor
  · rintro ⟨i, hi, rfl⟩
    exact ⟨i, (hceil i).mp (List.mem_range.mp hi), rfl⟩
  · rintro ⟨i, hi, rfl⟩
    exact ⟨i, List.mem_range.mpr ((hceil i).mpr hi), rfl⟩

theorem mem_pieces {p : ℕ × ℕ} :
    p ∈ pieces l ↔ ∃ i, i * readWindow < l.len ∧ p = (l.offset + i * readWindow,
      l.offset + i * readWindow + min readWindow (l.len - i * readWindow)) := by
  unfold pieces
  rw [List.mem_map]
  constructor
  · rintro ⟨r, hr, rfl⟩
    obtain ⟨i, hi, rfl⟩ := mem_fragments.mp hr
    exact ⟨i, hi, rfl⟩
  · rintro ⟨i, hi, rfl⟩
    exact ⟨_, mem_fragments.mpr ⟨i, hi, rfl⟩, rfl⟩

/-- The pieces of an entry that is no longer than a window are the entry. -/
theorem eq_of_mem_pieces (hlen : l.len ≤ readWindow) {p : ℕ × ℕ} (hp : p ∈ pieces l) :
    p = (l.offset, l.offset + l.len) := by
  obtain ⟨i, hi, rfl⟩ := mem_pieces.mp hp
  have hzero : i = 0 := by
    by_contra hne
    have hle := Nat.le_mul_of_pos_left readWindow (Nat.pos_of_ne_zero hne)
    omega
  subst hzero
  simp [hlen]

/-! ## What the plan keeps -/

/-- A read is not empty and no longer than a window, and its ranges lie in it. -/
structure ReadSpan.Ok (r : ReadSpan) : Prop where
  pos : 0 < r.len
  short : r.len ≤ readWindow
  inside : ∀ e ∈ r.ents, r.off ≤ e.1 ∧ e.1 + e.2 ≤ r.off + r.len

/-- What holds of the reads of the entries so far. -/
structure SpanPlan (done : List ObjRow) (out : List ReadSpan) : Prop where
  ok : ∀ r ∈ out, r.Ok
  /-- No read goes past the entries. -/
  stops : ∀ m, (∀ l ∈ done, l.offset + l.len ≤ m) → ∀ r ∈ out, r.off + r.len ≤ m
  /-- Each piece lies in a read. -/
  holds : ∀ l ∈ done, ∀ p ∈ pieces l, ∃ r ∈ out, r.off ≤ p.1 ∧ p.2 ≤ r.off + r.len

/-- A read that an entry joins goes up to the end of the entry. -/
theorem ReadSpan.join_stop (h : r.off + r.len ≤ l.offset) :
    r.off + (r.join l).len = l.offset + l.len := by
  change r.off + (l.offset + l.len - r.off) = _
  omega

theorem ReadSpan.Ok.join {gap : ℕ} (h : r.Ok) (hjoin : Joins gap r l)
    (hstop : r.off + r.len ≤ l.offset) : (r.join l).Ok := by
  have hpos := h.pos
  have hgrown := ReadSpan.join_stop hstop
  refine ⟨by omega, hjoin.2, fun e he => ?_⟩
  change r.off ≤ e.1 ∧ e.1 + e.2 ≤ r.off + (r.join l).len
  rcases List.mem_append.mp he with he | he
  · have hin := h.inside e he
    omega
  · rw [List.mem_singleton.mp he]
    dsimp only
    omega

theorem ok_of_mem_fragments (h : r ∈ fragments pack pos len) : r.Ok := by
  obtain ⟨i, hi, rfl⟩ := mem_fragments.mp h
  have hpos := readWindow_pos
  refine ⟨by dsimp only; omega, Nat.min_le_left _ _, fun e he => ?_⟩
  rw [List.mem_singleton.mp he]
  exact ⟨Nat.le_refl _, Nat.le_refl _⟩

theorem stop_of_mem_fragments (h : r ∈ fragments pack pos len) : r.off + r.len ≤ pos + len := by
  obtain ⟨i, hi, rfl⟩ := mem_fragments.mp h
  dsimp only
  omega

/-- An entry that joins the last read keeps it. -/
theorem SpanPlan.join {front : List ReadSpan} {gap : ℕ} (h : SpanPlan done (front ++ [r]))
    (hl : ∀ a ∈ done, a.offset + a.len ≤ l.offset) (hjoin : Joins gap r l) :
    SpanPlan (done ++ [l]) (front ++ [r.join l]) := by
  have hr : r ∈ front ++ [r] := by simp
  have hfront : ∀ q ∈ front, q ∈ front ++ [r] := fun q hq => List.mem_append_left _ hq
  have hstop := h.stops l.offset hl r hr
  have hgrown := ReadSpan.join_stop hstop
  refine ⟨?_, ?_, ?_⟩
  · intro q hq
    rcases List.mem_append.mp hq with hq | hq
    · exact h.ok q (hfront q hq)
    · rw [List.mem_singleton.mp hq]
      exact (h.ok r hr).join hjoin hstop
  · intro m hm q hq
    rcases List.mem_append.mp hq with hq | hq
    · exact h.stops m (fun a ha => hm a (List.mem_append_left _ ha)) q (hfront q hq)
    · rw [List.mem_singleton.mp hq]
      have hlm := hm l (by simp)
      change r.off + (r.join l).len ≤ m
      omega
  · -- The read still has the pieces that it had, and has the entry, which fits into a window.
    intro a ha p hp
    rcases List.mem_append.mp ha with ha | ha
    · obtain ⟨q, hq, hqp⟩ := h.holds a ha p hp
      rcases List.mem_append.mp hq with hq | hq
      · exact ⟨q, List.mem_append_left _ hq, hqp⟩
      · rw [List.mem_singleton.mp hq] at hqp
        refine ⟨r.join l, by simp, ?_⟩
        change r.off ≤ p.1 ∧ p.2 ≤ r.off + (r.join l).len
        omega
    · rw [List.mem_singleton.mp ha] at hp
      have hwindow := hjoin.2
      rw [eq_of_mem_pieces (by omega) hp]
      refine ⟨r.join l, by simp, ?_⟩
      change r.off ≤ l.offset ∧ l.offset + l.len ≤ r.off + (r.join l).len
      omega

/-- An entry that starts reads of its own keeps it. -/
theorem SpanPlan.fragments {out : List ReadSpan} (h : SpanPlan done out) (pack : ℕ) (l : ObjRow) :
    SpanPlan (done ++ [l]) (out ++ fragments pack l.offset l.len) := by
  refine ⟨?_, ?_, ?_⟩
  · intro q hq
    rcases List.mem_append.mp hq with hq | hq
    · exact h.ok q hq
    · exact ok_of_mem_fragments hq
  · intro m hm q hq
    rcases List.mem_append.mp hq with hq | hq
    · exact h.stops m (fun a ha => hm a (List.mem_append_left _ ha)) q hq
    · exact (stop_of_mem_fragments hq).trans (hm l (by simp))
  · intro a ha p hp
    rcases List.mem_append.mp ha with ha | ha
    · obtain ⟨q, hq, hqp⟩ := h.holds a ha p hp
      exact ⟨q, List.mem_append_left _ hq, hqp⟩
    · rw [List.mem_singleton.mp ha] at hp
      obtain ⟨i, hi, rfl⟩ := mem_pieces.mp hp
      exact ⟨_, List.mem_append_right _ (mem_fragments.mpr ⟨i, hi, rfl⟩), Nat.le_refl _,
        Nat.le_refl _⟩

theorem SpanPlan.addLoc {out : List ReadSpan} (h : SpanPlan done out) (pack gap : ℕ)
    (hl : ∀ a ∈ done, a.offset + a.len ≤ l.offset) :
    SpanPlan (done ++ [l]) (addLoc pack gap out l) := by
  rcases addLoc_cases pack gap out l with ⟨front, r, rfl, hjoin, heq⟩ | ⟨heq, -⟩
  · rw [heq]
    exact h.join hl hjoin
  · rw [heq]
    exact h.fragments pack l

theorem spanPlan_coalesce (pack gap : ℕ) (hapart : Apart locs) :
    SpanPlan locs (coalesce pack gap locs) := by
  rw [coalesce_eq_foldl]
  induction locs using List.reverseRecOn with
  | nil =>
    refine ⟨?_, ?_, ?_⟩ <;> simp
  | append_singleton locs l ih =>
    obtain ⟨hlocs, -, hlast⟩ := List.pairwise_append.mp hapart
    rw [List.foldl_append, List.foldl_cons, List.foldl_nil]
    exact (ih hlocs).addLoc pack gap fun a ha => hlast a ha l (by simp)

/-! ## The bytes -/

/-- A range of the bytes, as the bytes at its places. -/
theorem slice_eq_filterMap (b : List UInt8) (offset len : ℕ) :
    slice b offset len = (List.range' offset len).filterMap fun i => b[i]? := by
  induction len generalizing offset with
  | zero => simp [slice]
  | succ len ih =>
    rw [List.range'_succ, List.filterMap_cons, ← ih, slice, slice]
    cases hget : b[offset]? with
    | none =>
      have hlen : b.length ≤ offset := List.getElem?_eq_none_iff.mp hget
      rw [List.drop_eq_nil_of_le hlen, List.drop_eq_nil_of_le (by omega), List.take_nil,
        List.take_nil]
    | some x =>
      obtain ⟨hlt, rfl⟩ := List.getElem?_eq_some_iff.mp hget
      rw [List.drop_eq_getElem_cons hlt, List.take_succ_cons]

/-- The bytes that a read lists. -/
def ReadSpan.listed (b : List UInt8) (r : ReadSpan) : List UInt8 :=
  r.ents.flatMap fun e => slice b e.1 e.2

/-- The listed bytes of a plan are those at the places that it copies. -/
theorem listed_eq_copied (b : List UInt8) (reads : List ReadSpan) :
    reads.flatMap (ReadSpan.listed b) =
      (reads.flatMap ReadSpan.copied).filterMap fun p => b[p.2]? := by
  rw [List.filterMap_flatMap]
  congr 1
  funext r
  rw [ReadSpan.listed, ReadSpan.copied, List.filterMap_flatMap]
  simp only [List.filterMap_map, slice_eq_filterMap]
  rfl

theorem listed_coalesce (pack gap : ℕ) (b : List UInt8) (locs : List ObjRow) :
    (coalesce pack gap locs).flatMap (ReadSpan.listed b) =
      locs.flatMap fun l => slice b l.offset l.len := by
  rw [listed_eq_copied, (copied_coalesce pack gap locs).2]
  simp only [List.filterMap_flatMap, List.filterMap_map, slice_eq_filterMap]
  rfl

/-- The loop of `pack_chunk`, over the bytes of a read from `off` on. -/
def copyEnts (off : ℕ) (buf : List UInt8) : List (ℕ × ℕ) → Except Error (List UInt8)
  | [] => .ok []
  | e :: es =>
    if buf.length < e.1 - off + e.2 then .error (.storage "short range read")
    else (copyEnts off buf es).map fun out => slice buf (e.1 - off) e.2 ++ out

/-- `pack_chunk`, of an object with these bytes. -/
def packChunk (b : List UInt8) (r : ReadSpan) : Except Error (List UInt8) :=
  copyEnts r.off (slice b r.off r.len) r.ents

/-- A read of stored bytes copies what it lists. -/
theorem packChunk_eq {b : List UInt8} (hstored : r.off + r.len ≤ b.length)
    (hinside : ∀ e ∈ r.ents, r.off ≤ e.1 ∧ e.1 + e.2 ≤ r.off + r.len) :
    packChunk b r = .ok (r.listed b) := by
  have hlen : (slice b r.off r.len).length = r.len := by
    rw [length_slice]
    omega
  unfold packChunk ReadSpan.listed
  generalize r.ents = es at hinside ⊢
  induction es with
  | nil => rfl
  | cons e es ih =>
    obtain ⟨he, hes⟩ := List.forall_mem_cons.mp hinside
    rw [copyEnts, if_neg (by omega), ih hes, slice_slice he.1 (by omega)]
    rfl

/-- The reads of stored entries stay within the stored bytes, so each of them copies what it
lists. -/
theorem mapM_packChunk_coalesce (pack gap : ℕ) {b : List UInt8} (hapart : Apart locs)
    (hstored : ∀ l ∈ locs, l.offset + l.len ≤ b.length) :
    (coalesce pack gap locs).mapM (packChunk b) =
      .ok ((coalesce pack gap locs).map (ReadSpan.listed b)) := by
  have hplan := spanPlan_coalesce pack gap hapart
  have hreads : ∀ r ∈ coalesce pack gap locs, packChunk b r = .ok (r.listed b) := fun r hr =>
    packChunk_eq (hplan.stops b.length hstored r hr) (hplan.ok r hr).inside
  generalize coalesce pack gap locs = reads at hreads ⊢
  induction reads with
  | nil => rfl
  | cons r reads ih =>
    obtain ⟨hr, hrest⟩ := List.forall_mem_cons.mp hreads
    rw [List.mapM_cons, hr, ih hrest]
    rfl

/-- Of entries that do not overlap, in the order of their offsets, the ranges that the reads list
are the bytes of the entries, whatever the gap. Each range lies in its read, no read is longer than
8 MiB, and the reads of a pack that has the entries copy just these bytes. -/
theorem coalesce_exact (pack gap gap' : ℕ) (b : List UInt8) (locs : List ObjRow)
    (hapart : Apart locs) :
    (coalesce pack gap locs).flatMap (ReadSpan.listed b) =
        locs.flatMap (fun l => slice b l.offset l.len) ∧
      (∀ r ∈ coalesce pack gap locs, r.len ≤ 8 * 2^20 ∧
        ∀ e ∈ r.ents, r.off ≤ e.1 ∧ e.1 + e.2 ≤ r.off + r.len) ∧
      (coalesce pack gap locs).flatMap (ReadSpan.listed b) =
        (coalesce pack gap' locs).flatMap (ReadSpan.listed b) ∧
      ((∀ l ∈ locs, l.offset + l.len ≤ b.length) →
        ((coalesce pack gap locs).mapM (packChunk b)).map List.flatten =
          .ok (locs.flatMap fun l => slice b l.offset l.len)) := by
  have hplan := spanPlan_coalesce pack gap hapart
  have hlisted := listed_coalesce pack gap b locs
  refine ⟨hlisted, ?_, ?_, ?_⟩
  · exact fun r hr => ⟨(hplan.ok r hr).short, (hplan.ok r hr).inside⟩
  · rw [hlisted, listed_coalesce]
  · intro hstored
    rw [mapM_packChunk_coalesce pack gap hapart hstored, ← hlisted]
    exact congrArg Except.ok (List.flatMap_def ..).symm

/-- Two entries with a gap between them. -/
def twoEntries : List ObjRow := [⟨1, 0, 0, 0, 2, .blob, 5⟩, ⟨2, 0, 1, 3, 1, .blob, 5⟩]

theorem coalesce_exact_two :
    Apart twoEntries ∧
      (coalesce 0 readGap twoEntries).flatMap (ReadSpan.listed [7, 8, 9, 10]) = [7, 8, 10] :=
  ⟨by decide, (coalesce_exact 0 readGap 0 [7, 8, 9, 10] twoEntries (by decide)).1⟩

/-! ## The number of reads -/

/-- The pieces of all entries. -/
def allPieces (locs : List ObjRow) : List (ℕ × ℕ) := locs.flatMap pieces

/-- The pieces of an entry start one window after another. -/
theorem pieces_pairwise (l : ObjRow) :
    (pieces l).Pairwise fun p q => p.1 + readWindow < q.2 ∧ p.1 ≤ q.1 := by
  unfold pieces fragments
  rw [List.map_map, List.pairwise_map]
  refine List.Pairwise.imp_of_mem ?_ List.pairwise_lt_range
  intro i j _ hj hlt
  have hpos := readWindow_pos
  have hj' : j * readWindow < l.len := by
    rw [List.mem_range, Nat.lt_div_iff_mul_lt hpos] at hj
    omega
  have hmul : i * readWindow + readWindow ≤ j * readWindow := by
    rw [← Nat.succ_mul]
    exact Nat.mul_le_mul_right _ hlt
  dsimp only [Function.comp]
  omega

theorem ordered_allPieces (hapart : Apart locs) : Windows.Ordered readWindow (allPieces locs) := by
  constructor
  · rw [allPieces, List.pairwise_flatMap]
    refine ⟨fun l _ => (pieces_pairwise l).imp fun h => h.2, hapart.imp fun hab p hp q hq => ?_⟩
    obtain ⟨i, hi, rfl⟩ := mem_pieces.mp hp
    obtain ⟨j, -, rfl⟩ := mem_pieces.mp hq
    dsimp only
    omega
  · intro p hp
    obtain ⟨l, -, hp⟩ := List.mem_flatMap.mp hp
    obtain ⟨i, -, rfl⟩ := mem_pieces.mp hp
    dsimp only
    omega

theorem pieces_eq (pack : ℕ) (l : ObjRow) :
    pieces l = (fragments pack l.offset l.len).map fun r => (r.off, r.off + r.len) := by
  rw [pieces, fragments, fragments, List.map_map, List.map_map]
  rfl

/-- An entry that does not join the last read under the largest gap has no piece that fits into the
window of the read. -/
theorem late_of_not_joins (hpos : 0 < r.len) (hstop : r.off + r.len ≤ l.offset)
    (hjoin : ¬ Joins readWindow r l) : ∀ p ∈ pieces l, r.off + readWindow < p.2 := by
  intro p hp
  obtain ⟨i, hi, rfl⟩ := mem_pieces.mp hp
  unfold Joins at hjoin
  dsimp only
  omega

/-- From a last read on, the plan starts as many reads as windows are started for the pieces. -/
theorem length_foldl_addLoc (pack : ℕ) (hapart : Apart locs) {front : List ReadSpan}
    (hpos : 0 < r.len) (hstop : ∀ l ∈ locs, r.off + r.len ≤ l.offset) :
    (locs.foldl (addLoc pack readWindow) (front ++ [r])).length =
      front.length + 1 + Windows.count readWindow (some r.off) (allPieces locs) := by
  induction locs generalizing front r with
  | nil => simp [allPieces, Windows.count]
  | cons l locs ih =>
    obtain ⟨hl, hlocs⟩ := List.pairwise_cons.mp hapart
    have hrl := hstop l List.mem_cons_self
    rw [List.foldl_cons, allPieces, List.flatMap_cons]
    rcases addLoc_cases pack readWindow (front ++ [r]) l with
      ⟨front', r', heq, hjoin, hadd⟩ | ⟨hadd, hjoin⟩
    · -- The entry joins the last read, whose window holds its piece.
      obtain ⟨rfl, hrr⟩ := List.append_inj' heq rfl
      obtain rfl := List.singleton_inj.mp hrr
      have hgrown := ReadSpan.join_stop hrl
      have hfits : ∀ p ∈ pieces l, p.2 ≤ r.off + readWindow := by
        intro p hp
        have hwindow := hjoin.2
        rw [eq_of_mem_pieces (by omega) hp]
        dsimp only
        omega
      rw [hadd, Windows.count_append_of_fits hfits]
      refine ih hlocs (by omega) fun a ha => ?_
      have hla := hl a ha
      change r.off + (r.join l).len ≤ a.offset
      omega
    · have hlate := late_of_not_joins hpos hrl (hjoin r (by simp))
      have hparted : Windows.Parted readWindow (pieces l) := (pieces_pairwise l).imp fun h => h.1
      rw [hadd]
      rw [pieces_eq pack] at hlate hparted ⊢
      -- The entry starts a read for each of its pieces; an empty one has none.
      rcases List.eq_nil_or_concat (fragments pack l.offset l.len) with hnil | ⟨fr, q, hfr⟩
      · rw [hnil, List.append_nil, List.map_nil, List.nil_append]
        exact ih hlocs hpos fun a ha => hstop a (List.mem_cons_of_mem _ ha)
      · have hq : q ∈ fragments pack l.offset l.len := by simp [hfr]
        rw [hfr, List.concat_eq_append, List.map_append, List.map_singleton] at hlate hparted ⊢
        rw [Windows.count_append_of_parted hparted hlate, ← List.append_assoc,
          ih hlocs (ok_of_mem_fragments hq).pos fun a ha =>
            (stop_of_mem_fragments hq).trans (hl a ha), List.length_append,
          List.length_append, List.length_map, List.length_singleton]
        unfold allPieces
        dsimp only
        omega

/-- Under the largest gap, there are as many reads as windows are started for the pieces. -/
theorem length_coalesce (pack : ℕ) (hapart : Apart locs) :
    (coalesce pack readWindow locs).length = Windows.count readWindow none (allPieces locs) := by
  rw [coalesce_eq_foldl]
  induction locs with
  | nil => rfl
  | cons l locs ih =>
    obtain ⟨hl, hlocs⟩ := List.pairwise_cons.mp hapart
    have hparted : Windows.Parted readWindow (pieces l) := (pieces_pairwise l).imp fun h => h.1
    have hadd : addLoc pack readWindow [] l = fragments pack l.offset l.len := by
      rcases addLoc_cases pack readWindow [] l with ⟨front, r, heq, -⟩ | ⟨hadd, -⟩
      · simp at heq
      · rw [hadd, List.nil_append]
    rw [List.foldl_cons, allPieces, List.flatMap_cons, hadd]
    rw [pieces_eq pack] at hparted ⊢
    rcases List.eq_nil_or_concat (fragments pack l.offset l.len) with hnil | ⟨fr, q, hfr⟩
    · rw [hnil, List.map_nil, List.nil_append]
      exact ih hlocs
    · have hq : q ∈ fragments pack l.offset l.len := by simp [hfr]
      rw [hfr, List.concat_eq_append, List.map_append, List.map_singleton] at hparted ⊢
      rw [Windows.count_none_of_parted hparted, List.length_map, length_foldl_addLoc pack hlocs
        (ok_of_mem_fragments hq).pos fun a ha => (stop_of_mem_fragments hq).trans (hl a ha)]
      dsimp only [allPieces]

/-- So many windows of 8 MiB are enough to hold each piece of the entries in one of them. -/
def FitsWindows (k : ℕ) (locs : List ObjRow) : Prop :=
  ∃ starts : List ℕ, starts.length ≤ k ∧ ∀ l ∈ locs, ∀ p ∈ pieces l, ∃ w ∈ starts,
    w ≤ p.1 ∧ p.2 ≤ w + readWindow

theorem length_coalesce_le_iff (pack k : ℕ) (hapart : Apart locs) :
    (coalesce pack readWindow locs).length ≤ k ↔ FitsWindows k locs := by
  rw [length_coalesce pack hapart, Windows.count_le_iff (ordered_allPieces hapart), FitsWindows]
  constructor
  · rintro ⟨starts, hlen, hcovers⟩
    exact ⟨starts, hlen, fun l hl p hp => hcovers p (List.mem_flatMap.mpr ⟨l, hl, hp⟩)⟩
  · rintro ⟨starts, hlen, hcovers⟩
    refine ⟨starts, hlen, fun p hp => ?_⟩
    obtain ⟨l, hl, hp⟩ := List.mem_flatMap.mp hp
    exact hcovers l hl p hp

/-- The reads of a plan are windows for the pieces. -/
theorem fitsWindows_of_plan (pack gap : ℕ) (hapart : Apart locs) :
    FitsWindows (coalesce pack gap locs).length locs := by
  have hplan := spanPlan_coalesce pack gap hapart
  refine ⟨(coalesce pack gap locs).map (·.off), by rw [List.length_map], fun l hl p hp => ?_⟩
  obtain ⟨r, hr, hrp, hpr⟩ := hplan.holds l hl p hp
  have hshort := (hplan.ok r hr).short
  exact ⟨r.off, List.mem_map_of_mem hr, hrp, by omega⟩

/-- `bytes.div_ceil(WINDOW)`: the number of windows of a pack. -/
def PackSlice.windows (p : PackSlice) : ℕ := (p.bytes + readWindow - 1) / readWindow

/-- The reads that are planned for a pack are at most the windows of the pack exactly if so many
windows hold the pieces of the marked entries, each piece in one. -/
theorem plan_within_windows_iff (db : Db) (i : ℕ) (p : PackSlice)
    (hapart : Apart (db.entriesOf p)) :
    (planSlice db i p).length ≤ p.windows ↔ FitsWindows p.windows (db.entriesOf p) := by
  unfold planSlice
  dsimp only
  split_ifs with hmany
  · exact length_coalesce_le_iff i _ hapart
  · have hfew : (coalesce i readGap (db.entriesOf p)).length ≤ p.windows := Nat.le_of_not_lt hmany
    refine ⟨fun _ => ?_, fun _ => hfew⟩
    obtain ⟨starts, hlen, hcovers⟩ := fitsWindows_of_plan i readGap hapart
    exact ⟨starts, hlen.trans hfew, hcovers⟩

/-- A pack of three entries of 5 MiB. -/
def threeEntries : Db :=
  { boot 0 with
    objects := ⟨[⟨1, 1, 0, 12, 5242880, .blob, 5⟩, ⟨2, 1, 1, 5242892, 5242880, .blob, 5⟩,
      ⟨3, 1, 2, 10485772, 5242880, .blob, 5⟩], by decide⟩ }

/-- The slice of a fetch of all of them. -/
def threeMarked : PackSlice := ⟨1, 3, 15728672, [true, true, true]⟩

theorem apart_threeEntries : Apart (threeEntries.entriesOf threeMarked) := by decide +kernel

theorem length_plan_threeEntries : (planSlice threeEntries 0 threeMarked).length = 3 := by
  decide +kernel

/-- Three reads are planned for a pack of two windows. -/
theorem plan_exceeds_windows :
    Apart (threeEntries.entriesOf threeMarked) ∧
      (∀ l ∈ threeEntries.entriesOf threeMarked, l.offset + l.len ≤ threeMarked.bytes) ∧
      threeMarked.windows = 2 ∧ (planSlice threeEntries 0 threeMarked).length = 3 :=
  ⟨apart_threeEntries, by decide +kernel, by decide +kernel, length_plan_threeEntries⟩

/-- No two windows hold the three entries. -/
theorem threeEntries_fit_no_windows :
    ¬ FitsWindows threeMarked.windows (threeEntries.entriesOf threeMarked) := by
  rw [← plan_within_windows_iff threeEntries 0 threeMarked apart_threeEntries,
    length_plan_threeEntries]
  decide +kernel

end GitEdge
