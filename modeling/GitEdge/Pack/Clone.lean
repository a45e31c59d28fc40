import GitEdge.Pack.Fetch
import GitEdge.Pack.Marks
import GitEdge.Repo.Push

/-!
# Plain clones

A plain clone asks for the wants and all that they reach. Whichever way it is answered, it gets
every live object: the stored pack holds them all when it is the only live one
(`mem_of_consolidated`), and the pages of `no_walk_set` mark a row of each (`noWalkSet_sends`).

The ways differ in what they refuse. The walk refuses a want that has no live row, and so the only
live pack is given out just when it has all wants; but `no_walk_set` does not look at the wants, so
with two live packs a clone of an unknown object succeeds. `clone_agrees_iff` says when a plain
clone is answered as the walk would.
-/

namespace GitEdge

open Sql Process

variable {db : Db} {rows : List ObjRow} {packs packs' : List PackSlice} {last : Option Oid}
  {e : Error} {ids : List PackId} {pick : Pick} {plan left : ℕ} {x : Oid} {loc : ObjRow}
  {wants : List Oid} {objs : Objects} {u : LinkEnv} {q : FetchRequest}
  {wanted : List (Oid × String)}

/-! ## The pages -/

/-- A row of the object is marked. -/
def Seen (db : Db) (packs : List PackSlice) (x : Oid) : Prop :=
  ∃ r ∈ db.objects, r.sha = x ∧ HasBit packs r.pack_id r.idx

/-- Every object of the rows is seen after them, and so is the one that the cursor names. -/
theorem markDedup_seen {last' : Option Oid} (hrows : ∀ r ∈ rows, r ∈ db.objects)
    (hlast : ∀ x, last = some x → Seen db packs x)
    (h : markDedup rows packs last = .ok (packs', last')) :
    (∀ x, Seen db packs x → Seen db packs' x) ∧ (∀ x, last' = some x → Seen db packs' x) ∧
      ∀ r ∈ rows, Seen db packs' r.sha := by
  induction rows generalizing packs last with
  | nil =>
    simp only [markDedup, Except.ok.injEq, Prod.mk.injEq] at h
    obtain ⟨rfl, rfl⟩ := h
    exact ⟨fun _ => id, hlast, by simp⟩
  | cons r rs ih =>
    have hrs : ∀ r' ∈ rs, r' ∈ db.objects := fun r' hr' => hrows r' (by simp [hr'])
    rw [markDedup] at h
    by_cases hr : some r.sha = last
    · -- The object was seen before.
      rw [if_pos hr] at h
      obtain ⟨hmono, hlast', hseen⟩ := ih hrs hlast h
      refine ⟨hmono, hlast', fun r' hr' => ?_⟩
      rcases List.mem_cons.mp hr' with rfl | hr'
      · exact hmono _ (hlast _ hr.symm)
      · exact hseen r' hr'
    · rw [if_neg hr] at h
      cases hfind : packs.findIdx? fun p => p.pack = r.pack_id with
      | none => simp [hfind] at h
      | some i =>
        obtain ⟨hi, hpack, -⟩ := List.findIdx?_eq_some_iff_getElem.mp hfind
        cases hset : setBit packs i r with
        | error e => simp [hfind, hset] at h
        | ok packs₁ =>
          simp only [hfind, hset] at h
          have hbit := setBit_hasBit (List.getElem?_eq_getElem hi) (by simpa using hpack) hset
          have hmono₁ : ∀ x, Seen db packs x → Seen db packs₁ x := by
            rintro x ⟨q, hq, hx, hb⟩
            exact ⟨q, hq, hx, (hbit _ _).mpr (.inl hb)⟩
          have hr₁ : Seen db packs₁ r.sha :=
            ⟨r, hrows r (by simp), rfl, (hbit _ _).mpr (.inr ⟨rfl, rfl⟩)⟩
          obtain ⟨hmono, hlast', hseen⟩ := ih hrs (fun x hx => by cases hx; exact hr₁) h
          refine ⟨fun x hx => hmono x (hmono₁ x hx), hlast', fun r' hr' => ?_⟩
          rcases List.mem_cons.mp hr' with rfl | hr'
          · exact hmono _ hr₁
          · exact hseen r' hr'

/-- The cursor names the object of the last row. -/
theorem markDedup_last {last' : Option Oid} (h : markDedup rows packs last = .ok (packs', last')) :
    ∀ r ∈ rows.getLast?, last' = some r.sha := by
  induction rows generalizing packs last with
  | nil => simp
  | cons r rs ih =>
    -- The cursor after the first row names its object.
    have hrest : ∃ packs₁, markDedup rs packs₁ (some r.sha) = .ok (packs', last') := by
      rw [markDedup] at h
      by_cases hr : some r.sha = last
      · rw [if_pos hr, ← hr] at h
        exact ⟨packs, h⟩
      · rw [if_neg hr] at h
        split at h
        · cases h
        · split at h
          · cases h
          · exact ⟨_, h⟩
    obtain ⟨packs₁, hrest⟩ := hrest
    cases rs with
    | nil =>
      simp only [markDedup, Except.ok.injEq, Prod.mk.injEq] at hrest
      simp [← hrest.2]
    | cons r' rs => exact ih hrest

/-- What a page can fail with. -/
theorem markDedup_error (h : markDedup rows packs last = .error e) :
    (∃ m, e = .internal m) ∨ ∃ m, e = .storage m := by
  induction rows generalizing packs last with
  | nil => cases h
  | cons r rs ih =>
    rw [markDedup] at h
    split_ifs at h
    · exact ih h
    · split at h
      · cases h
        exact .inl ⟨_, rfl⟩
      · split at h
        · rename_i hset
          cases h
          unfold setBit at hset
          split at hset
          · cases hset
            exact .inr ⟨_, rfl⟩
          · split at hset
            · cases hset
              exact .inr ⟨_, rfl⟩
            · cases hset
        · exact ih h

theorem mem_rowsAfter {r : ObjRow} :
    r ∈ db.rowsAfter ids last ↔
      r ∈ db.objects ∧ r.pack_id ∈ ids ∧ ∀ x ∈ last, x < r.sha := by
  unfold Db.rowsAfter
  rw [List.mem_insertionSort, Table.mem_select]
  cases last <;> simp

instance : Std.Total ObjRow.keyLe where
  total a b := by
    unfold ObjRow.keyLe
    rcases lt_trichotomy a.sha b.sha with h | h | h
    · exact .inl (.inl h)
    · exact (le_total a.pack_id b.pack_id).imp (fun hp => .inr ⟨h, hp⟩) fun hp => .inr ⟨h.symm, hp⟩
    · exact .inr (.inl h)

instance : IsTrans ObjRow ObjRow.keyLe where
  trans a b c hab hbc := by
    unfold ObjRow.keyLe at *
    rcases hab with hab | ⟨hab, hp⟩
    · exact .inl (lt_of_lt_of_le hab (hbc.elim le_of_lt fun h => h.1.le))
    · rw [hab]
      exact hbc.imp_right fun h => ⟨h.1, hp.trans h.2⟩

/-- The rows stand in the order of their objects. -/
theorem rowsAfter_sorted (db : Db) (ids : List PackId) (last : Option Oid) :
    (db.rowsAfter ids last).Pairwise fun a b => a.sha ≤ b.sha := by
  refine (List.pairwise_insertionSort ObjRow.keyLe _).imp fun {a b} hab => ?_
  exact hab.elim le_of_lt fun h => h.1.le

/-- The row at the end of a full page: the rows after it are of its object, or come after the new
cursor, and those are fewer than before. -/
theorem rowsAfter_page (hfull : ¬ ((db.rowsAfter ids last).take noWalkPage).length < noWalkPage) :
    ∃ r, ((db.rowsAfter ids last).take noWalkPage).getLast? = some r ∧
      (∀ q ∈ db.rowsAfter ids last, q ∈ (db.rowsAfter ids last).take noWalkPage ∨ q.sha = r.sha ∨
        q ∈ db.rowsAfter ids (some r.sha)) ∧
      (db.rowsAfter ids (some r.sha)).length < (db.rowsAfter ids last).length := by
  generalize hpage : (db.rowsAfter ids last).take noWalkPage = page at hfull
  have hne : page ≠ [] := by
    rintro rfl
    exact hfull (by decide)
  obtain ⟨r, hr⟩ : ∃ r, page.getLast? = some r := ⟨_, List.getLast?_eq_some_getLast hne⟩
  have hrmem : r ∈ db.rowsAfter ids last := by
    have := List.mem_of_getLast? hr
    rw [← hpage] at this
    exact List.mem_of_mem_take this
  obtain ⟨hrdb, hrids, hrlast⟩ := mem_rowsAfter.mp hrmem
  refine ⟨r, hr, fun q hq => ?_, ?_⟩
  · -- A row past the page is not before the last row of the page.
    have hsplit := List.take_append_drop noWalkPage (db.rowsAfter ids last)
    rw [hpage] at hsplit
    have hsorted := rowsAfter_sorted db ids last
    rw [← hsplit, List.pairwise_append] at hsorted
    rw [← hsplit] at hq
    rcases List.mem_append.mp hq with hq | hq
    · exact .inl hq
    · have hle := hsorted.2.2 r (List.mem_of_getLast? hr) q hq
      rcases Nat.lt_or_eq_of_le hle with hlt | heq
      · have hq' : q ∈ db.rowsAfter ids last := List.mem_of_mem_drop hq
        obtain ⟨hqdb, hqids, -⟩ := mem_rowsAfter.mp hq'
        exact .inr (.inr (mem_rowsAfter.mpr ⟨hqdb, hqids, by simpa using hlt⟩))
      · exact .inr (.inl heq.symm)
  · -- The last row of the page is after the old cursor, and not after the new one.
    have hsub : db.rowsAfter ids (some r.sha) ⊆ (db.rowsAfter ids last).erase r := by
      intro q hq
      obtain ⟨hqdb, hqids, hqlast⟩ := mem_rowsAfter.mp hq
      have hlt : r.sha < q.sha := hqlast r.sha rfl
      refine (List.mem_erase_of_ne fun h => ?_).mpr
        (mem_rowsAfter.mpr ⟨hqdb, hqids, fun x hx => ?_⟩)
      · rw [h] at hlt
        exact lt_irrefl _ hlt
      · exact (hrlast x hx).trans hlt
    have hnodup : (db.rowsAfter ids (some r.sha)).Nodup :=
      (List.perm_insertionSort _ _).nodup_iff.mpr (Table.nodup_select _ _)
    have hle := (List.subperm_of_subset hnodup hsub).length_le
    rw [List.length_erase_of_mem hrmem] at hle
    have hpos := List.length_pos_of_mem hrmem
    omega

/-- The pages see every object of the rows after the cursor. -/
theorem noWalkPages_seen {n : ℕ} (hlast : ∀ x, last = some x → Seen db packs x)
    (h : noWalkPages db ids n packs last = .ok packs') :
    (∀ x, Seen db packs x → Seen db packs' x) ∧
      ∀ r ∈ db.rowsAfter ids last, Seen db packs' r.sha := by
  induction n generalizing packs last with
  | zero => cases h
  | succ n ih =>
    rw [noWalkPages] at h
    cases hm : markDedup ((db.rowsAfter ids last).take noWalkPage) packs last with
    | error e => simp [hm] at h
    | ok q =>
      obtain ⟨packs₁, last₁⟩ := q
      simp only [hm] at h
      have hrows : ∀ r ∈ (db.rowsAfter ids last).take noWalkPage, r ∈ db.objects := fun r hr =>
        (mem_rowsAfter.mp (List.mem_of_mem_take hr)).1
      obtain ⟨hmono₁, hlast₁, hseen₁⟩ := markDedup_seen hrows hlast hm
      by_cases hshort : ((db.rowsAfter ids last).take noWalkPage).length < noWalkPage
      · -- The last page holds all rows that were left.
        rw [if_pos hshort] at h
        cases h
        have hall : (db.rowsAfter ids last).take noWalkPage = db.rowsAfter ids last := by
          rw [List.length_take] at hshort
          exact List.take_of_length_le (by omega)
        rw [hall] at hseen₁
        exact ⟨hmono₁, hseen₁⟩
      · rw [if_neg hshort] at h
        obtain ⟨r, hr, hrest, -⟩ := rowsAfter_page hshort
        have hcursor : last₁ = some r.sha := markDedup_last hm r hr
        subst hcursor
        obtain ⟨hmono, hseen⟩ := ih hlast₁ h
        refine ⟨fun x hx => hmono x (hmono₁ x hx), fun q hq => ?_⟩
        rcases hrest q hq with hq | hq | hq
        · exact hmono _ (hseen₁ q hq)
        · exact hmono _ (hlast₁ _ (by rw [hq]))
        · exact hseen q hq

/-- What the pages can fail with: they never run out when their bound is above the number of
rows. -/
theorem noWalkPages_error {n : ℕ} (hn : (db.rowsAfter ids last).length < n)
    (h : noWalkPages db ids n packs last = .error e) :
    (∃ m, e = .internal m) ∨ ∃ m, e = .storage m := by
  induction n generalizing packs last with
  | zero => exact absurd hn (Nat.not_lt_zero _)
  | succ n ih =>
    rw [noWalkPages] at h
    cases hm : markDedup ((db.rowsAfter ids last).take noWalkPage) packs last with
    | error e' =>
      simp only [hm, Except.error.injEq] at h
      exact h ▸ markDedup_error hm
    | ok q =>
      obtain ⟨packs₁, last₁⟩ := q
      simp only [hm] at h
      by_cases hshort : ((db.rowsAfter ids last).take noWalkPage).length < noWalkPage
      · rw [if_pos hshort] at h
        cases h
      · rw [if_neg hshort] at h
        obtain ⟨r, hr, -, hfewer⟩ := rowsAfter_page hshort
        have hcursor : last₁ = some r.sha := markDedup_last hm r hr
        subst hcursor
        exact ih (by omega) h

/-! ## All live objects -/

theorem mem_livePacks {p : PackRow} : p ∈ db.livePacks ↔ p ∈ db.packs ∧
    p.state = .live := by
  unfold Db.livePacks
  rw [Table.mem_select]
  simp

theorem packLive_iff_mem {id : PackId} : db.packLive id = true ↔ ∃ p ∈ db.livePacks, p.id = id := by
  unfold Db.packLive
  constructor
  · intro h
    cases hp : db.packs.find id with
    | none => simp [hp] at h
    | some p =>
      obtain ⟨hmem, hid⟩ := Table.find_eq_some.mp hp
      exact ⟨p, mem_livePacks.mpr ⟨hmem, by simpa [hp] using h⟩, hid⟩
  · rintro ⟨p, hp, rfl⟩
    obtain ⟨hmem, hlive⟩ := mem_livePacks.mp hp
    rw [Table.find_eq_some.mpr ⟨hmem, rfl⟩]
    simp [hlive]

/-- The plan of a set that was not walked is made of its slices, or fails. -/
theorem planReads_noWalk (pick : Pick) (db : Db) (plan : ℕ) (packs : List PackSlice) :
    (∃ set, planReads pick db plan ⟨packs, [], [], [], none, false⟩ = .ok set ∧ set.packs = packs) ∨
      ∃ e, planReads pick db plan ⟨packs, [], [], [], none, false⟩ = .error e ∧
        ∀ m, e ≠ .protocol m := by
  unfold planReads SendSet.settle
  by_cases hintact : SendSet.intact db ⟨packs, [], [], [], none, false⟩ = true
  · simp only [hintact, Bool.not_true, Bool.or_false, Bool.false_eq_true, if_false]
    by_cases hplan : plan < (packs.zipIdx.map fun p => planSlice db p.2 p.1).flatten.length
    · exact .inr ⟨.budget, if_pos hplan, by simp⟩
    · exact .inl ⟨_, if_neg hplan, rfl⟩
  · refine .inr ⟨.storage "pack index changed mid-fetch", ?_, by simp⟩
    simp [hintact, SendSet.rebuild, bind, Except.bind]

/-- `no_walk_set` sends every live object. -/
theorem noWalkSet_sends {set : SendSet} (h : noWalkSet pick db plan = .ok (some set))
    (hx : db.Live x) : set.Sends db x := by
  unfold noWalkSet at h
  split_ifs at h with hfew
  · cases h
  obtain ⟨packs, hpages, h⟩ := FoldM.bind_eq_ok.mp h
  obtain ⟨set', hplan, h⟩ := FoldM.bind_eq_ok.mp h
  cases h
  have hpacks : set.packs = packs := by
    rcases planReads_noWalk pick db plan packs with ⟨set', hset', hpacks⟩ | ⟨e, he, -⟩
    · rw [hplan] at hset'
      cases hset'
      exact hpacks
    · rw [hplan] at he
      cases he
  obtain ⟨r, hr, rfl, hlive⟩ := hx
  -- The row of the object is among those that the pages read.
  have hafter : r ∈ db.rowsAfter (db.livePacks.map (·.id)) none := by
    obtain ⟨p, hp, hid⟩ := packLive_iff_mem.mp hlive
    exact mem_rowsAfter.mpr ⟨hr, List.mem_map.mpr ⟨p, hp, hid⟩, by simp⟩
  obtain ⟨r', hr', hsha, p, hp, hpack, hbit⟩ := (noWalkPages_seen (by simp) hpages).2 r hafter
  exact ⟨p, hpacks ▸ hp, r', mem_entriesOf.mpr ⟨hr', hpack.symm, hbit⟩, hsha⟩

/-- `no_walk_set` refuses nothing. -/
theorem noWalkSet_error (h : noWalkSet pick db plan = .error e) (m : String) : e ≠ .protocol m := by
  unfold noWalkSet at h
  split_ifs at h with hfew
  cases hpages : noWalkPages db (db.livePacks.map (·.id)) (db.objects.size + 1)
      (db.livePacks.map fun p => ⟨p.id, p.count, p.bytes, Bits.zero p.count⟩) none with
  | error e' =>
    rw [hpages] at h
    cases h
    have hbound : (db.rowsAfter (db.livePacks.map (·.id)) none).length < db.objects.size + 1 := by
      unfold Db.rowsAfter
      rw [List.length_insertionSort]
      exact Nat.lt_succ_of_le (List.length_filter_le _ _)
    rcases noWalkPages_error hbound hpages with ⟨m', rfl⟩ | ⟨m', rfl⟩ <;> simp
  | ok packs =>
    rw [hpages] at h
    rcases planReads_noWalk pick db plan packs with ⟨set, hset, -⟩ | ⟨e', he', hne⟩
    · simp [bind, Except.bind, hset, pure, Except.pure] at h
    · simp only [bind, Except.bind, he', Except.error.injEq] at h
      exact h ▸ hne m

/-! ## Wants that have no live row -/

/-- Whether the row has a bit in the bitmap of its pack. -/
def Db.fits (db : Db) (r : ObjRow) : Bool :=
  (db.packMeta r.pack_id).any fun m => r.idx < (Bits.zero m.1).length

/-- The bitmap of each slice has the length that the count of its pack gives. -/
def Sized (db : Db) (packs : List PackSlice) : Prop :=
  ∀ p ∈ packs, (db.packMeta p.pack).map (·.1) = some p.count ∧
    p.bitmap.length = (Bits.zero p.count).length

theorem setBit_sized {i : ℕ} {p : PackSlice} (hs : Sized db packs) (hp : packs[i]? = some p)
    (hpack : p.pack = loc.pack_id) :
    if db.fits loc then ∃ packs', setBit packs i loc = .ok packs' ∧ Sized db packs'
    else setBit packs i loc = .error (.storage "idx past pack count") := by
  obtain ⟨hmeta, hlen⟩ := hs p (List.mem_of_getElem? hp)
  obtain ⟨m, hm, hcount⟩ := Option.map_eq_some_iff.mp hmeta
  have hfits : db.fits loc = decide (loc.idx < p.bitmap.length) := by
    simp only [Db.fits, ← hpack, hm, Option.any_some, hlen, hcount]
  simp only [setBit, hp, Bits.set?, hfits, decide_eq_true_eq]
  by_cases hi : loc.idx < p.bitmap.length
  · simp only [hi, if_true]
    refine ⟨_, rfl, fun q hq => ?_⟩
    rcases List.mem_or_eq_of_mem_set hq with hq | rfl
    · exact hs q hq
    · exact ⟨hmeta, by simpa using hlen⟩
  · simp only [hi, if_false]

/-- A mark on a live row fails when the row has no bit, and only then. -/
theorem markSlice_sized (hs : Sized db packs) (hlive : db.packLive loc.pack_id = true) :
    if db.fits loc then ∃ packs', markSlice db packs loc = .ok (some packs') ∧ Sized db packs'
    else markSlice db packs loc = .error (.storage "idx past pack count") := by
  have key : ∀ {packs i p}, Sized db packs → packs[i]? = some p → p.pack = loc.pack_id →
      if db.fits loc then ∃ packs', (setBit packs i loc).map some = .ok (some packs') ∧
      Sized db packs'
      else (setBit packs i loc).map some = .error (.storage "idx past pack count") := by
    intro packs i p hs hp hpack
    have := setBit_sized hs hp hpack
    split_ifs at this ⊢
    · obtain ⟨packs', hset, hs'⟩ := this
      exact ⟨packs', by rw [hset]; rfl, hs'⟩
    · rw [this]
      rfl
  unfold markSlice
  cases hf : packs.findIdx? fun p => p.pack = loc.pack_id with
  | some i =>
    obtain ⟨hi, hpack, -⟩ := List.findIdx?_eq_some_iff_getElem.mp hf
    exact key hs (List.getElem?_eq_getElem hi) (by simpa using hpack)
  | none =>
    obtain ⟨c, b, hmeta⟩ := packMeta_isSome hlive
    simp only [hmeta]
    refine key (p := ⟨loc.pack_id, c, b, Bits.zero c⟩) (fun q hq => ?_) (by simp) rfl
    rcases List.mem_append.mp hq with hq | hq
    · exact hs q hq
    · rw [List.mem_singleton.mp hq]
      exact ⟨by rw [hmeta]; rfl, rfl⟩

/-- A want with a live row. -/
theorem takeWant_sized {w : WantWalk} {id : Oid} (hs : Sized db w.set.packs)
    (hrow : pick.row db id = some loc) :
    if db.fits loc then ∃ w', takeWant pick db w id = .ok w' ∧ Sized db w'.set.packs
    else takeWant pick db w id = .error (.storage "idx past pack count") := by
  have hmark := markSlice_sized hs (pick.mem hrow).2.2
  unfold takeWant SendSet.mark
  simp only [hrow]
  by_cases hfits : db.fits loc = true
  · rw [if_pos hfits] at hmark ⊢
    obtain ⟨packs', hm, hs'⟩ := hmark
    simp only [hm]
    cases loc.kind <;> exact ⟨_, rfl, hs'⟩
  · rw [if_neg hfits] at hmark ⊢
    simp only [hmark]
    rfl

/-- The marks that come before the first want without a live row find their bits. -/
def MarksFit (pick : Pick) (db : Db) (wants : List Oid) : Prop :=
  ∀ x ∈ wants.takeWhile fun x => (pick.row db x).isSome, (pick.row db x).all db.fits = true

/-- The wants are refused at the first that has no live row, unless a mark fails before it. -/
theorem takeWants_refuses {w : WantWalk} (hs : Sized db w.set.packs)
    (hbad : ∃ x ∈ wants, pick.row db x = none) :
    (MarksFit pick db wants → ∃ x ∈ wants, pick.row db x = none ∧
      wants.foldlM (takeWant pick db) w = .error (.protocol s!"upload-pack: not our ref {x}")) ∧
      (¬ MarksFit pick db wants →
        wants.foldlM (takeWant pick db) w = .error (.storage "idx past pack count")) := by
  induction wants generalizing w with
  | nil => simp at hbad
  | cons y ys ih =>
    rw [List.foldlM_cons]
    cases hrow : pick.row db y with
    | none =>
      have htake : takeWant pick db w y = .error (.protocol s!"upload-pack: not our ref {y}") := by
        unfold takeWant
        simp only [hrow]
      have hfit : MarksFit pick db (y :: ys) := by simp [MarksFit, hrow]
      exact ⟨fun _ => ⟨y, by simp, hrow, by rw [htake]; rfl⟩, fun h => absurd hfit h⟩
    | some loc =>
      have hwant := takeWant_sized hs hrow
      have hcons : MarksFit pick db (y :: ys) ↔ db.fits loc = true ∧ MarksFit pick db ys := by
        simp [MarksFit, hrow]
      have hbad' : ∃ x ∈ ys, pick.row db x = none := by
        obtain ⟨x, hx, hnone⟩ := hbad
        rcases List.mem_cons.mp hx with rfl | hx
        · rw [hrow] at hnone
          cases hnone
        · exact ⟨x, hx, hnone⟩
      by_cases hfits : db.fits loc = true
      · rw [if_pos hfits] at hwant
        obtain ⟨w', htake, hs'⟩ := hwant
        obtain ⟨hok, hfail⟩ := ih hs' hbad'
        rw [htake, hcons]
        refine ⟨fun h => ?_, fun h => hfail fun h' => h ⟨hfits, h'⟩⟩
        obtain ⟨x, hx, hnone, hfold⟩ := hok h.2
        exact ⟨x, by simp [hx], hnone, hfold⟩
      · rw [if_neg hfits] at hwant
        rw [hwant, hcons]
        exact ⟨fun h => absurd h.1 hfits, fun _ => rfl⟩

/-! ## The answers -/

/-- The objects that an answer brings, in the state in which it was chosen. -/
def FetchAnswer.Delivers (db : Db) (x : Oid) : FetchAnswer → Prop
  | .acks _ => False
  | .link p _ => ∃ r ∈ db.objects, r.pack_id = p ∧ r.sha = x
  | .stream p _ => ∃ r ∈ db.objects, r.pack_id = p ∧ r.sha = x
  | .pack set _ _ => set.Sends db x

/-- The result is that of a clone of the wants: a want without a live row is refused, and otherwise
an answer brings every object that the wants reach through live objects. -/
structure CloneOk (objs : Objects) (db : Db) (wants : List Oid) (res : Except Error FetchAnswer) :
    Prop where
  refuses : (∃ x ∈ wants, ¬ db.Live x) → ∃ x ∈ wants, ¬ db.Live x ∧
    res = .error (.protocol s!"upload-pack: not our ref {x}")
  delivers : (∀ x ∈ wants, db.Live x) → ∀ ans, res = .ok ans → ∀ x,
    Reach.From (fun y z => objs.Link y z ∧ db.Live z) (· ∈ wants) x → ans.Delivers db x

theorem Pick.row_eq_none : pick.row db x = none ↔ ¬ db.Live x := by
  constructor
  · intro h hl
    obtain ⟨r, hr⟩ := pick.some_of_live hl
    rw [h] at hr
    cases hr
  · intro h
    cases hr : pick.row db x with
    | none => rfl
    | some r => exact absurd (Choice.live hr) h

/-- What the wants reach through live objects is live. -/
theorem live_of_reach (h : ∀ x ∈ wants, db.Live x)
    (hx : Reach.From (fun y z => objs.Link y z ∧ db.Live z) (· ∈ wants) x) : db.Live x :=
  hx.induction h fun _ _ _ hyz => hyz.2

/-- The answer from the only live pack brings every live object. -/
theorem mem_of_consolidated {pack : PackId × ℕ} (h : consolidatedPack pick db wants = some pack) :
    (∀ x ∈ wants, db.Live x) ∧
      ∀ x, db.Live x → ∃ r ∈ db.objects, r.pack_id = pack.1 ∧ r.sha = x := by
  unfold consolidatedPack at h
  split at h
  · rename_i p hlive
    split_ifs at h with hall
    cases h
    refine ⟨fun x hx => ?_, ?_⟩
    · have := List.all_eq_true.mp hall x hx
      cases hr : pick.row db x with
      | none => simp [hr] at this
      | some r => exact Choice.live hr
    · rintro x ⟨r, hr, rfl, hpack⟩
      obtain ⟨q, hq, hid⟩ := packLive_iff_mem.mp hpack
      rw [hlive, List.mem_singleton] at hq
      exact ⟨r, hr, by rw [← hid, hq], rfl⟩
  · cases h

/-- With one live pack and live wants, the pack is given out. -/
theorem consolidated_of_live {p : PackRow} (hone : db.livePacks = [p])
    (hwants : ∀ x ∈ wants, db.Live x) : consolidatedPack pick db wants = some (p.id, p.bytes) := by
  unfold consolidatedPack
  rw [hone]
  refine if_pos (List.all_eq_true.mpr fun x hx => ?_)
  obtain ⟨r, hr⟩ := pick.some_of_live (hwants x hx)
  obtain ⟨q, hq, hid⟩ := packLive_iff_mem.mp (pick.mem hr).2.2
  rw [hone, List.mem_singleton] at hq
  simp [hr, ← hid, hq]

/-- The answers with the stored pack. -/
theorem verbatim_always {pack : PackId × ℕ} {P : Except Error FetchAnswer → Prop} {s : Db}
    (hlink : P (.ok (.link pack.1 wanted))) (hstream : P (.ok (.stream pack.1 wanted)))
    (herr : ∀ e, P (.error e)) : Always s (verbatim u q pack wanted) P := by
  unfold verbatim
  refine Always.bind (A := fun _ => True) (always_of_forall (fun r => ?_) _ _) fun b _ t => ?_
  · exact ⟨fun _ _ => trivial, fun e _ => herr e⟩
  · cases b with
    | true => exact hlink
    | false =>
      refine Always.bind (A := fun _ => True) (always_of_forall (fun r => ?_) _ _) fun _ _ _ => ?_
      · exact ⟨fun _ _ => trivial, fun e _ => herr e⟩
      · exact hstream

/-- A plain clone does not wait before its answer is chosen. -/
theorem fetchV2_plain (hplain : q.plainClone = true) (hwanted : q.wantedRefs db = .ok wanted)
    (P : Except Error FetchAnswer → Prop) :
    Always db (fetchV2 objs pick u q left plan) P ↔
      Always db (cloneAnswer objs pick u q left plan db (q.wants ++ wanted.map (·.1)) []
        (q.haves.filter fun h => (pick.row db h).isSome) wanted) P := by
  have hflags := hplain
  simp only [FetchRequest.plainClone, Bool.and_eq_true, List.isEmpty_iff] at hflags
  obtain ⟨⟨⟨⟨⟨⟨hhaves, -⟩, -⟩, -⟩, hnot⟩, -⟩, -⟩ := hflags
  unfold fetchV2
  simp only [Proc.read, always_read_bind, ofResult, hwanted, always_ofExcept_bind, hnot, deepenNots]
  change Always db (ofSpan Span.read >>= _) P ↔ _
  simp [always_read_bind, hhaves, hplain]

/-- The walk refuses the wants, when one has no live row and there are not two live packs. -/
theorem walkedAnswer_refuses {a : FetchArgs} {acks : List Oid}
    (h : a.wants.foldlM (takeWant pick db) ⟨.walk, [], [], [], [], []⟩ = .error e)
    (P : Except Error FetchAnswer → Prop) :
    Always db (walkedAnswer objs pick a left plan acks wanted) P ↔ P (.error e) := by
  unfold walkedAnswer sendSet Always
  change wp free ((ofSpan Span.read >>= _) >>= _) db db _ ↔ _
  rw [wp_bind, wp_bind, wp_ofSpan, Span.wp_read]
  simp only [after_ok, wp_bind, ofResult]
  rw [h]
  exact Iff.rfl

theorem noWalkSet_eq_none : noWalkSet pick db plan = .ok none ↔ db.livePacks.length < 2 := by
  constructor
  · intro h
    by_contra hmany
    unfold noWalkSet at h
    rw [if_neg hmany] at h
    obtain ⟨packs, -, h⟩ := FoldM.bind_eq_ok.mp h
    obtain ⟨set, -, h⟩ := FoldM.bind_eq_ok.mp h
    cases h
  · exact fun h => if_pos h

section

variable {acks : List Oid}

/-- When every want has a live row, each way to answer brings all live objects. -/
theorem cloneAnswer_of_live (hall : ∀ x ∈ wants, db.Live x) :
    Always db (cloneAnswer objs pick u q left plan db wants [] acks wanted)
      (CloneOk objs db wants) := by
  have hok : ∀ ans : FetchAnswer, (∀ x, db.Live x → ans.Delivers db x) →
      CloneOk objs db wants (.ok ans) := by
    intro ans hans
    refine ⟨fun ⟨x, hx, hnot⟩ => absurd (hall x hx) hnot, fun _ ans' hans' x hx => ?_⟩
    cases hans'
    exact hans x (live_of_reach hall hx)
  have herr : ∀ e, CloneOk objs db wants (.error e) := fun e =>
    ⟨fun ⟨x, hx, hnot⟩ => absurd (hall x hx) hnot, fun _ _ h => nomatch h⟩
  unfold cloneAnswer
  cases hcons : consolidatedPack pick db wants with
  | some pack =>
    have hmem := (mem_of_consolidated hcons).2
    exact verbatim_always (hok _ hmem) (hok _ hmem) herr
  | none =>
    simp only [ofResult, always_ofExcept_bind]
    cases hset : noWalkSet pick db plan with
    | error e => exact herr e
    | ok o =>
      cases o with
      | some set => exact hok _ fun x hx => noWalkSet_sends hset hx
      | none =>
        -- A single live pack would have been given out, so there is none, and nothing is wanted.
        have hnone : db.livePacks = [] := by
          have hfew := noWalkSet_eq_none.mp hset
          cases hlive : db.livePacks with
          | nil => rfl
          | cons p ps =>
            rw [hlive, List.length_cons] at hfew
            have hps : ps = [] := List.eq_nil_of_length_eq_zero (by omega)
            rw [consolidated_of_live (hps ▸ hlive) hall] at hcons
            cases hcons
        have hdead : ∀ x, ¬ db.Live x := by
          rintro x ⟨r, -, -, hlive⟩
          obtain ⟨p, hp, -⟩ := packLive_iff_mem.mp hlive
          rw [hnone] at hp
          cases hp
        refine always_of_forall (fun res => ?_) _ _
        exact ⟨fun ⟨x, hx, hnot⟩ => absurd (hall x hx) hnot, fun _ _ _ x hx =>
          absurd (live_of_reach hall hx) (hdead x)⟩

/-- A want without a live row is refused by the walk, which is not asked when two packs are live. -/
theorem cloneAnswer_of_missing (hbad : ∃ x ∈ wants, ¬ db.Live x) :
    Always db (cloneAnswer objs pick u q left plan db wants [] acks wanted)
    (CloneOk objs db wants) ↔ db.livePacks.length < 2 ∧ MarksFit pick db wants := by
  have hnotall : ¬ ∀ x ∈ wants, db.Live x := fun h => by
    obtain ⟨x, hx, hnot⟩ := hbad
    exact hnot (h x hx)
  have hnever : ∀ res : Except Error FetchAnswer, (∀ m, res ≠ .error (.protocol m)) →
      ¬ CloneOk objs db wants res := by
    intro res hres h
    obtain ⟨x, -, -, heq⟩ := h.refuses hbad
    exact hres _ heq
  have hcons : consolidatedPack pick db wants = none := by
    cases hcons : consolidatedPack pick db wants with
    | none => rfl
    | some pack => exact absurd (mem_of_consolidated hcons).1 hnotall
  unfold cloneAnswer
  simp only [hcons, ofResult, always_ofExcept_bind]
  by_cases hfew : db.livePacks.length < 2
  · simp only [noWalkSet_eq_none.mpr hfew, hfew, true_and]
    have hrow : ∃ x ∈ wants, pick.row db x = none := by
      obtain ⟨x, hx, hnot⟩ := hbad
      exact ⟨x, hx, Pick.row_eq_none.mpr hnot⟩
    have hstart : Sized db SendSet.walk.packs := fun p hp => by cases hp
    obtain ⟨hrefused, hfailed⟩ :=
      takeWants_refuses (w := ⟨.walk, [], [], [], [], []⟩) hstart hrow
    by_cases hfit : MarksFit pick db wants
    · obtain ⟨x, hx, hnone, hfold⟩ := hrefused hfit
      rw [walkedAnswer_refuses hfold]
      refine iff_of_true ⟨fun _ => ⟨x, hx, Pick.row_eq_none.mp hnone, rfl⟩, fun h => ?_⟩ hfit
      exact absurd h hnotall
    · rw [walkedAnswer_refuses (hfailed hfit)]
      exact iff_of_false (hnever _ (by simp)) hfit
  · simp only [hfew, false_and, iff_false]
    cases hset : noWalkSet pick db plan with
    | error e => exact hnever _ (by simpa using noWalkSet_error hset)
    | ok o =>
      cases o with
      | some set => exact hnever _ (by simp)
      | none => exact absurd (noWalkSet_eq_none.mp hset) hfew

/-- A plain clone is answered as the walk would answer it exactly when every want has a live row, or
when there are not two live packs and the marks find their bits. -/
theorem clone_agrees_iff (hplain : q.plainClone = true) (hwanted : q.wantedRefs db = .ok wanted) :
    Always db (fetchV2 objs pick u q left plan) (CloneOk objs db (q.wants ++ wanted.map (·.1))) ↔
      (∀ x ∈ q.wants ++ wanted.map (·.1), db.Live x) ∨
        (db.livePacks.length < 2 ∧ MarksFit pick db (q.wants ++ wanted.map (·.1))) := by
  rw [fetchV2_plain hplain hwanted]
  by_cases hall : ∀ x ∈ q.wants ++ wanted.map (·.1), db.Live x
  · exact iff_of_true (cloneAnswer_of_live hall) (.inl hall)
  · have hbad : ∃ x ∈ q.wants ++ wanted.map (·.1), ¬ db.Live x := by
      by_contra hnone
      exact hall fun x hx => by_contra fun hnot => hnone ⟨x, hx, hnot⟩
    rw [cloneAnswer_of_missing hbad]
    simp only [hall, false_or]

end

/-! ## Two live packs -/

/-- The repository after two pushes: the commit `7` with the tree `5` in the first pack, and the
commit `8` on top of it in the second. -/
def twoPushes : Db :=
  let env := Env.default fun _ => true
  let db := ((pushBegin env 1 .off ⟨1, "admin", "", true, none⟩).run (boot 0)).state
  let db := ((pushIndex 2 ⟨10, 1, 2, 100⟩
    [⟨⟨7, 10, 0, 12, 30, .commit, 40⟩, some []⟩, ⟨⟨5, 10, 1, 42, 30, .tree, 40⟩, none⟩]).run
    db).state
  let db := ((commitPush env 3 ⟨1, some 10, "admin", [⟨0, 7, "refs/heads/a", none⟩], true⟩).run
    db).state
  let db := ((pushBegin env 4 .off ⟨2, "admin", "", true, none⟩).run db).state
  let db := ((pushIndex 5 ⟨11, 2, 1, 70⟩ [⟨⟨8, 11, 0, 12, 30, .commit, 40⟩, some [7]⟩]).run
    db).state
  ((commitPush env 6 ⟨2, some 11, "admin", [⟨7, 8, "refs/heads/a", none⟩], true⟩).run db).state

/-- A plain clone of the wants. -/
def cloneOf (wants : List Oid) : FetchRequest :=
  ⟨wants, [], [], true, [], none, none, [], false, none, false, []⟩

/-- A repository whose packs have no links. -/
def noLinks : LinkEnv := ⟨none, none, none, false, 20⟩

/-- The objects of the two pushes. -/
def pushedObjects : Objects where
  kind x := if x = 5 then .tree else .commit
  size _ := 40
  commit x := some ⟨5, if x = 8 then [7] else [], none⟩
  tree _ := some []
  tag _ := none

/-- A clone of an object that the repository does not have is answered with all that it has. -/
theorem clone_accepts_unknown :
    (cloneOf [99]).plainClone = true ∧ twoPushes.lookup 99 = none ∧
      (fetchV2 pushedObjects Pick.first noLinks (cloneOf [99]) 6 6).eval twoPushes [] =
        some (.ok (.pack ⟨[⟨10, 2, 100, [true, true, false, false, false, false, false, false]⟩,
            ⟨11, 1, 70, [true, false, false, false, false, false, false, false]⟩],
          [⟨0, 12, 60, [(12, 30), (42, 30)]⟩, ⟨1, 12, 30, [(12, 30)]⟩], [], [], none, false⟩ []
            [])) ∧
      ¬ Always twoPushes (fetchV2 pushedObjects Pick.first noLinks (cloneOf [99]) 6 6)
        (CloneOk pushedObjects twoPushes [99]) := by
  have hwanted : (cloneOf [99]).wantedRefs twoPushes = .ok [] := rfl
  have hbad : ∃ x ∈ [99], ¬ twoPushes.Live x :=
    ⟨99, by simp, fun h => absurd (Db.lookup_isSome_iff.mpr h) (by decide)⟩
  refine ⟨rfl, rfl, rfl, fun h => ?_⟩
  have hmissing := (cloneAnswer_of_missing hbad).mp ((fetchV2_plain rfl hwanted _).mp h)
  exact absurd hmissing.1 (by decide)

/-- A clone of the branch is answered as the walk would answer it. -/
theorem clone_agrees_branch :
    (cloneOf [8]).plainClone = true ∧ (cloneOf [8]).wantedRefs twoPushes = .ok [] ∧
      Always twoPushes (fetchV2 pushedObjects Pick.first noLinks (cloneOf [8]) 6 6)
        (CloneOk pushedObjects twoPushes [8]) := by
  have hwanted : (cloneOf [8]).wantedRefs twoPushes = .ok [] := rfl
  have hlive : ∀ x ∈ [8], twoPushes.Live x := by
    intro x hx
    rw [List.mem_singleton.mp hx]
    exact Db.lookup_isSome_iff.mp (by decide)
  exact ⟨rfl, hwanted, (clone_agrees_iff rfl hwanted).mpr (.inl hlive)⟩

end GitEdge
