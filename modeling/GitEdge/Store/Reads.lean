import GitEdge.Store.Bucket

/-!
# Batches of reads

`read_entries` sorts the locations by pack and offset, takes from the front those that share a read,
makes the read and cuts the entries out of it; it gives up when the reads of one call have more than
48 MiB. `read_entries_chunked` then reads the two halves of the batch.

While the bucket holds the packs and answers its requests, every entry of at most 48 MiB is read: a
batch of one is never over the limit, and halving a larger one comes to such batches. The result has
the stored bytes of each location of the batch, once (`readEntriesChunked_exact`).
-/

namespace GitEdge

open Sql Process

variable {pack : PackId} {start stop : ℕ}

/-! ## The locations of one read -/

theorem takeSpan_append (pack : PackId) (start stop : ℕ) (ns : List ObjRow) :
    (takeSpan pack start stop ns).1 ++ (takeSpan pack start stop ns).2.2 = ns := by
  induction ns generalizing stop with
  | nil => rfl
  | cons n ns ih =>
    rw [takeSpan]
    split_ifs
    · rfl
    · exact congrArg (n :: ·) (ih _)

theorem takeSpan_pack {ns : List ObjRow} :
    ∀ n ∈ (takeSpan pack start stop ns).1, n.pack_id = pack := by
  induction ns generalizing stop with
  | nil => exact fun n hn => nomatch hn
  | cons m ns ih =>
    rw [takeSpan]
    split_ifs with hcond
    · exact fun n hn => nomatch hn
    · intro n hn
      rcases List.mem_cons.mp hn with rfl | hn
      · simp only [Bool.or_eq_true, decide_eq_true_eq, not_or, ne_eq, not_not] at hcond
        exact hcond.1.1
      · exact ih n hn

/-- The read goes to the last end of its entries. -/
theorem le_takeSpan_stop (pack : PackId) (start stop : ℕ) (ns : List ObjRow) :
    stop ≤ (takeSpan pack start stop ns).2.1 ∧
      ∀ n ∈ (takeSpan pack start stop ns).1,
      n.offset + n.len ≤ (takeSpan pack start stop ns).2.1 := by
  induction ns generalizing stop with
  | nil => exact ⟨Nat.le_refl _, fun n hn => nomatch hn⟩
  | cons m ns ih =>
    rw [takeSpan]
    split_ifs
    · exact ⟨Nat.le_refl _, fun n hn => nomatch hn⟩
    · obtain ⟨hstop, hall⟩ := ih (max stop (m.offset + m.len))
      dsimp only
      refine ⟨(Nat.le_max_left _ _).trans hstop, fun n hn => ?_⟩
      rcases List.mem_cons.mp hn with rfl | hn
      · exact (Nat.le_max_right _ _).trans hstop
      · exact hall n hn

/-- The read stops where one of its entries does. -/
theorem takeSpan_stop_le {m : ℕ} {ns : List ObjRow} (hstop : stop ≤ m)
    (hns : ∀ n ∈ (takeSpan pack start stop ns).1, n.offset + n.len ≤ m) :
    (takeSpan pack start stop ns).2.1 ≤ m := by
  induction ns generalizing stop with
  | nil => exact hstop
  | cons n ns ih =>
    rw [takeSpan] at hns ⊢
    split_ifs at hns ⊢
    · exact hstop
    · dsimp only at hns ⊢
      obtain ⟨hn, hrest⟩ := List.forall_mem_cons.mp hns
      exact ih (Nat.max_le.mpr ⟨hstop, hn⟩) hrest

/-! ## The order of the reads -/

theorem readsBefore_total (a b : ObjRow) : readsBefore a b ∨ readsBefore b a := by
  unfold readsBefore
  rcases lt_trichotomy a.pack_id b.pack_id with hlt | heq | hgt
  · exact .inl (.inl hlt)
  · rcases le_total a.offset b.offset with hle | hle
    · exact .inl (.inr ⟨heq, hle⟩)
    · exact .inr (.inr ⟨heq.symm, hle⟩)
  · exact .inr (.inl hgt)

theorem readsBefore_trans {a b c : ObjRow} (hab : readsBefore a b) (hbc : readsBefore b c) :
    readsBefore a c := by
  rcases hab with hab | ⟨hab, hab'⟩ <;> rcases hbc with hbc | ⟨hbc, hbc'⟩
  · exact .inl (hab.trans hbc)
  · exact .inl (hbc ▸ hab)
  · exact .inl (hab ▸ hbc)
  · exact .inr ⟨hab.trans hbc, hab'.trans hbc'⟩

/-- The locations are read in their order. -/
theorem sorted_locs (locs : List ObjRow) :
    (locs.insertionSort readsBefore).Pairwise readsBefore := by
  have : Std.Total readsBefore := ⟨readsBefore_total⟩
  have : IsTrans ObjRow readsBefore := ⟨fun _ _ _ => readsBefore_trans⟩
  exact List.pairwise_insertionSort readsBefore locs

/-! ## Reads that are served -/

/-- The bytes of an entry, with its name. -/
def entryOf (content : PackId → List UInt8) (l : ObjRow) : Oid × List UInt8 :=
  (l.sha, slice (content l.pack_id) l.offset l.len)

/-- The bucket holds these packs of the locations. -/
def HoldsPacks (content : PackId → List UInt8) (locs : List ObjRow) (s : Db) : Prop :=
  ∀ l ∈ locs, s.r2.objects.find l.pack_id = some (l.pack_id, content l.pack_id)

instance (content : PackId → List UInt8) (locs : List ObjRow) (s : Db) :
    Decidable (HoldsPacks content locs s) := inferInstanceAs (Decidable (∀ l ∈ locs, _))

/-- The contract of reads that are served: the others leave the packs of the locations, and no
request fails. -/
def serving (content : PackId → List UInt8) (locs : List ObjRow) : Contract Db Reply where
  J _ t := HoldsPacks content locs t
  I t := HoldsPacks content locs t
  R _ _ := True
  G _ r := r.err = none
  S _ := True

/-- The entries that are cut from a range are those of their locations. -/
theorem cutEntries_exact {content : PackId → List UInt8} {ls : List ObjRow}
    (hstop : stop ≤ (content pack).length)
    (hls : ∀ l ∈ ls, l.pack_id = pack ∧ start ≤ l.offset ∧ l.offset + l.len ≤ stop) :
    cutEntries start (slice (content pack) start (stop - start)) ls =
      .ok (ls.map (entryOf content)) := by
  induction ls with
  | nil => rfl
  | cons l ls ih =>
    obtain ⟨⟨hpack, hstart, hend⟩, hls⟩ := List.forall_mem_cons.mp hls
    have hin : l.offset - start + l.len ≤ (slice (content pack) start (stop - start)).length := by
      rw [length_slice]
      omega
    rw [cutEntries, if_neg (Nat.not_lt.mpr hin), ih hls, slice_slice hstart hin,
      List.map_cons, entryOf, hpack]
    rfl

section Serving

variable {content : PackId → List UInt8} {all : List ObjRow} {s₀ s : Db}

theorem serves_range {l : ObjRow} (hl : l ∈ all) {offset len : ℕ}
    (hin : offset + len ≤ (content l.pack_id).length) (h : HoldsPacks content all s) :
    wp (serving content all) (readRange l.pack_id offset len) s₀ s fun _ x t =>
      HoldsPacks content all t ∧ ∃ r, x = .ok (slice (content l.pack_id) offset len, r) := by
  unfold readRange
  rw [wp_bind]
  refine wp_request h fun t r _ ht hr => ?_
  change r.err = none at hr
  have hlen : (slice (content l.pack_id) offset len).length = len := by
    rw [length_slice]
    omega
  rw [hr, Option.elim_none, after_ok, wp_bind, wp_read, after_ok, ht l hl]
  dsimp only
  rw [if_neg (not_not.mpr hlen)]
  exact ⟨ht, r, rfl⟩

variable (hlen : ∀ l ∈ all, l.len ≤ maxRead)
  (hin : ∀ l ∈ all, l.offset + l.len ≤ (content l.pack_id).length)
include hlen hin

/-- The reads of sorted locations: all of the entries, or the limit, which one location does not
come to. -/
theorem serves_spans (n : ℕ) {rows : List ObjRow} (hn : rows.length ≤ n) (hrows : rows ⊆ all)
    (hsorted : rows.Pairwise readsBefore) (total : ℕ) (out : List (Oid × List UInt8)) (r : Reply)
    (h : HoldsPacks content all s) :
    wp (serving content all) (readSpans n rows total out r) s₀ s fun _ x t =>
      HoldsPacks content all t ∧
        ((∃ r', x = .ok (out ++ rows.map (entryOf content), r')) ∨
          (1 < rows.length ∨ 0 < rows.length ∧ 0 < total) ∧ ∃ m, x = .error (.limit m)) := by
  induction n generalizing s₀ s rows total out r with
  | zero =>
    cases List.length_eq_zero_iff.mp (Nat.le_zero.mp hn)
    exact ⟨h, .inl ⟨r, by simp⟩⟩
  | succ n ih =>
    cases rows with
    | nil => exact ⟨h, .inl ⟨r, by simp⟩⟩
    | cons first rest =>
      have happ := takeSpan_append first.pack_id first.offset (first.offset + first.len) rest
      have hpack := @takeSpan_pack first.pack_id first.offset (first.offset + first.len) rest
      have hstop := le_takeSpan_stop first.pack_id first.offset (first.offset + first.len) rest
      have hfit := @takeSpan_stop_le first.pack_id first.offset (first.offset + first.len)
        (content first.pack_id).length rest
      have hone := @takeSpan_stop_le first.pack_id first.offset (first.offset + first.len)
        (first.offset + first.len) rest
      rw [readSpans]
      generalize takeSpan first.pack_id first.offset (first.offset + first.len) rest = g
        at happ hpack hstop hfit hone
      obtain ⟨g, stop, rest'⟩ := g
      dsimp only at happ hpack hstop hfit hone ⊢
      subst happ
      obtain ⟨hfirst, hsorted⟩ := List.pairwise_cons.mp hsorted
      have hall := hrows (List.mem_cons_self)
      -- The entries of the read are of one pack, and lie between its ends.
      have hg : ∀ l ∈ first :: g,
          l.pack_id = first.pack_id ∧ first.offset ≤ l.offset ∧ l.offset + l.len ≤ stop := by
        intro l hl
        rcases List.mem_cons.mp hl with rfl | hl
        · exact ⟨rfl, le_rfl, hstop.1⟩
        · have hp := hpack l hl
          rcases hfirst l (by simp [hl]) with hlt | ⟨-, hle⟩
          · rw [hp] at hlt
            exact absurd hlt (lt_irrefl _)
          · exact ⟨hp, hle, hstop.2 l hl⟩
      have hend : stop ≤ (content first.pack_id).length := by
        refine hfit (hin first hall) fun l hl => ?_
        have hle := hin l (hrows (by simp [hl]))
        rwa [hpack l hl] at hle
      split_ifs with hmax
      · -- The limit: the read has another entry in it, or others were made before.
        refine ⟨h, .inr ⟨?_, _, rfl⟩⟩
        by_contra hcon
        rw [List.length_cons, List.length_append] at hcon
        cases List.length_eq_zero_iff.mp (show g.length = 0 by omega)
        have hsmall := hone le_rfl (fun l hl => nomatch hl)
        have hle := hlen first hall
        omega
      · rw [wp_bind]
        have hread : first.offset + (stop - first.offset) ≤ (content first.pack_id).length := by
          have := hstop.1
          omega
        refine (serves_range hall hread h).mono ?_
        rintro u _ t ⟨ht, r', rfl⟩
        rw [after_ok, wp_bind, wp_ofExcept, cutEntries_exact hend hg, after_ok]
        have hn' : rest'.length ≤ n := by
          simp only [List.length_cons, List.length_append] at hn
          omega
        have hrest : rest' ⊆ all := fun l hl => hrows (by simp [hl])
        refine (ih hn' hrest (List.pairwise_append.mp hsorted).2.1 _ _ r' ht).mono ?_
        rintro v x t' ⟨ht', ⟨r'', rfl⟩ | ⟨hlarge, m, rfl⟩⟩
        · exact ⟨ht', .inl ⟨r'', by simp⟩⟩
        · -- A read after this one was over the limit, so there is a location after it.
          refine ⟨ht', .inr ⟨.inl ?_, m, rfl⟩⟩
          rw [List.length_cons, List.length_append]
          omega

/-- One call: all of the entries, or the limit, when there is more than one. -/
theorem serves_entries {locs : List ObjRow} (hlocs : locs ⊆ all) (r : Reply)
    (h : HoldsPacks content all s) :
    wp (serving content all) (readEntries locs r) s₀ s fun _ x t =>
      HoldsPacks content all t ∧
        ((∃ out r', x = .ok (out, r') ∧ out.Perm (locs.map (entryOf content))) ∨
          1 < locs.length ∧ ∃ m, x = .error (.limit m)) := by
  have hperm := List.perm_insertionSort readsBefore locs
  refine (serves_spans hlen hin locs.length (by rw [hperm.length_eq])
    (fun l hl => hlocs (hperm.mem_iff.mp hl)) (sorted_locs locs) 0 [] r h).mono ?_
  rintro u x t ⟨ht, ⟨r', rfl⟩ | ⟨hlarge, hm⟩⟩
  · exact ⟨ht, .inl ⟨_, r', rfl, hperm.map _⟩⟩
  · rw [hperm.length_eq] at hlarge
    exact ⟨ht, .inr ⟨by omega, hm⟩⟩

/-- The halves: with as many rounds as there are locations, all of the entries. -/
theorem serves_halves (n : ℕ) {locs : List ObjRow} (hn : locs.length ≤ n) (hlocs : locs ⊆ all)
    (r : Reply) (h : HoldsPacks content all s) :
    wp (serving content all) (readHalves n locs r) s₀ s fun _ x t =>
      HoldsPacks content all t ∧ ∃ out r', x = .ok (out, r') ∧
      out.Perm (locs.map (entryOf content)) := by
  induction n generalizing s₀ s locs r with
  | zero =>
    refine (serves_entries hlen hin hlocs r h).mono ?_
    rintro u x t ⟨ht, hok | ⟨hlarge, -⟩⟩
    · exact ⟨ht, hok⟩
    · omega
  | succ n ih =>
    rw [readHalves, wp_bind, wp_result]
    refine (serves_entries hlen hin hlocs r h).mono ?_
    rintro u x t ⟨ht, ⟨out, r', rfl, hperm⟩ | ⟨hlarge, m, rfl⟩⟩
    · exact ⟨ht, out, r', rfl, hperm⟩
    · -- Each half is shorter than the batch.
      have hfirst : (locs.take (locs.length / 2)).length ≤ n := by
        rw [List.length_take]
        omega
      have hsecond : (locs.drop (locs.length / 2)).length ≤ n := by
        rw [List.length_drop]
        omega
      rw [after_ok]
      dsimp only
      rw [if_neg (Nat.not_le.mpr hlarge), wp_bind]
      refine (ih hfirst (fun l hl => hlocs (List.mem_of_mem_take hl)) r ht).mono ?_
      rintro u' _ t' ⟨ht', a, r₁, rfl, ha⟩
      rw [after_ok, wp_bind]
      refine (ih hsecond (fun l hl => hlocs (List.mem_of_mem_drop hl)) r₁ ht').mono ?_
      rintro v _ t'' ⟨ht'', b, r₂, rfl, hb⟩
      refine ⟨ht'', a ++ b, r₂, rfl, ?_⟩
      have hboth := ha.append hb
      rwa [← List.map_append, List.take_append_drop] at hboth

end Serving

/-- A batch of entries of at most 48 MiB each, in packs that the bucket holds, is read: whatever
else happens meanwhile, `read_entries_chunked` ends with the bytes of each location of the batch,
once, and finitely many replies take it there. -/
theorem readEntriesChunked_exact (content : PackId → List UInt8) (locs : List ObjRow)
    (hlen : ∀ l ∈ locs, l.len ≤ 48 * 2^20)
    (hin : ∀ l ∈ locs, l.offset + l.len ≤ (content l.pack_id).length) (s : Db)
    (hs : HoldsPacks content locs s) (r : Reply) :
    (wp (serving content locs) (readEntriesChunked locs r) s s fun _ x _ =>
      ∃ out r', x = .ok (out, r') ∧
        out.Perm (locs.map fun l => (l.sha, slice (content l.pack_id) l.offset l.len))) ∧
    ∀ replies : ℕ → Reply, (∀ n, (replies n).err = none) → ∃ n out r',
      (readEntriesChunked locs r).eval s ((List.range n).map replies) = some (.ok (out, r')) ∧
        out.Perm (locs.map fun l => (l.sha, slice (content l.pack_id) l.offset l.len)) := by
  have hwp : wp (serving content locs) (readEntriesChunked locs r) s s fun _ x _ =>
      ∃ out r', x = .ok (out, r') ∧ out.Perm (locs.map (entryOf content)) :=
    (serves_halves hlen hin locs.length le_rfl (List.Subset.refl _) r hs).mono fun _ _ _ h => h.2
  refine ⟨hwp, fun replies hreplies => ?_⟩
  obtain ⟨n, x, heval, -, -, out, r', rfl, hperm⟩ :=
    hwp.exists_eval (fun _ _ h => h) (fun _ => trivial) replies fun n _ => hreplies n
  exact ⟨n, out, r', heval, hperm⟩

/-- Two packs. -/
def batchContent : PackId → List UInt8 := fun p => if p = 1 then [1, 2, 3, 4, 5] else [6, 7, 8]

/-- A bucket with the two packs. -/
def batchStore : Db :=
  { Db.fresh with r2 := ⟨⟨[(1, [1, 2, 3, 4, 5]), (2, [6, 7, 8])], by decide⟩, .empty⟩ }

/-- Entries of both, out of order, which overlap and repeat. -/
def batchLocs : List ObjRow :=
  [⟨21, 2, 0, 1, 2, .blob, 2⟩, ⟨12, 1, 1, 2, 3, .blob, 3⟩, ⟨11, 1, 0, 0, 3, .blob, 3⟩,
    ⟨12, 1, 1, 2, 3, .blob, 3⟩]

theorem readEntriesChunked_batch :
    ((∀ l ∈ batchLocs, l.len ≤ 48 * 2^20) ∧
      (∀ l ∈ batchLocs, l.offset + l.len ≤ (batchContent l.pack_id).length) ∧
      HoldsPacks batchContent batchLocs batchStore) ∧
    ∃ n out r', (readEntriesChunked batchLocs ⟨0, false, 0, none⟩).eval batchStore
        ((List.range n).map fun _ => ⟨0, false, 0, none⟩) = some (.ok (out, r')) ∧
      out.Perm [(21, [7, 8]), (12, [3, 4, 5]), (11, [1, 2, 3]), (12, [3, 4, 5])] := by
  have hlen : ∀ l ∈ batchLocs, l.len ≤ 48 * 2^20 := by decide
  have hin : ∀ l ∈ batchLocs, l.offset + l.len ≤ (batchContent l.pack_id).length := by decide
  have hs : HoldsPacks batchContent batchLocs batchStore := by decide
  refine ⟨⟨hlen, hin, hs⟩, ?_⟩
  exact (readEntriesChunked_exact batchContent batchLocs hlen hin batchStore hs
    ⟨0, false, 0, none⟩).2
    (fun _ => ⟨0, false, 0, none⟩) fun _ => rfl

end GitEdge
