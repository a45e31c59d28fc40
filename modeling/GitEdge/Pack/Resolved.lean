import GitEdge.Pack.Resolve

/-!
# What pass B resolves

The object of an entry is defined without an order of work: a full entry inflates to it, and a delta
is applied to the object of its base, which is the entry at an offset, an entry whose object has an
id, or a stored object with that id (`Resolves`). `Grounded` says that an entry has a finite chain
of bases, whether or not the deltas along it apply.

What holds between two entries is `Sound`: the cache and the map of ids only say what `Resolves`
says, whatever the cache has dropped. The offset deltas of an entry that is in the cache or in the
map lead to an entry that is full or whose base is known (`Settled`), so only an entry that is
neither can wait, and it waits for the one base that its own offset deltas lead to (`OfsRef`).
-/

namespace GitEdge

open Fallible

variable {i off start : ℕ} {rc : EntryRec} {id : Oid} {d : List UInt8} {o : Obj}
  {ids : Oid → Option ℕ}

/-! ## The mathematics of objects -/

/-- Inflation, the application of a delta, and the objects that are stored, as functions. -/
structure ObjSpec where
  unzip : List UInt8 → Option (List UInt8)
  delta : List UInt8 → List UInt8 → Option (List UInt8)
  stored : Oid → Option Obj

/-- The calls of the inflater that have not ended: the state after consuming `x` and producing
`o`. -/
inductive ObjLib.Fed (L : ObjLib) : L.Unzip → List UInt8 → List UInt8 → Prop
  | fresh : ObjLib.Fed L L.fresh [] []
  | call {z : L.Unzip} {x o buf : List UInt8} {c : Unzipped L.Unzip} (h : ObjLib.Fed L z x o)
      (hc : L.feed z buf = .ok c) (hgoes : c.ended = false) :
      ObjLib.Fed L c.state (x ++ buf.take c.used) (o ++ c.made)

/-- One delta is applied and one stream is inflated correctly. -/
structure ObjLib.Lawful (L : ObjLib) (spec : ObjSpec) : Prop where
  inflate_ok : ∀ n y d, L.inflate n y = .ok d → spec.unzip y = some d
  patch_ok : ∀ b n y d, L.patch b n y = .ok d →
    ∃ δ, spec.unzip y = some δ ∧ spec.delta b.2 δ = some d
  feed_ok : ∀ z x o buf c, L.Fed z x o → L.feed z buf = .ok c → c.ended = true →
    spec.unzip (x ++ buf.take c.used) = some (o ++ c.made)

namespace PassB

variable (p : PassB) (spec : ObjSpec)

/-- The delta of an entry makes `d` of `b`. -/
def Patched (rc : EntryRec) (b d : List UInt8) : Prop :=
  ∃ δ, spec.unzip (rc.body p.pack) = some δ ∧ spec.delta b δ = some d

/-- There is a stored object with the id. -/
def IsExternal (id : Oid) : Prop := id ∈ p.externals.map (·.1)

/-- The stored object with the id. -/
def External (id : Oid) (o : Obj) : Prop := p.IsExternal id ∧ spec.stored id = some o

/-- The object of an entry. -/
inductive Resolves : ℕ → Obj → Prop
  | full {i : ℕ} {rc : EntryRec} {k : Kind} {d : List UInt8} (hrc : p.recs[i]? = some rc)
      (hk : rc.kind_or_delta = .full k) (hd : spec.unzip (rc.body p.pack) = some d) :
      Resolves i (k, d)
  | ofs {i j n off : ℕ} {rc rj : EntryRec} {b : Obj} {d : List UInt8} (hrc : p.recs[i]? = some rc)
      (hk : rc.kind_or_delta = .ofsDelta n) (hoff : p.objLib.baseOffset rc.offset n = some off)
      (hj : p.recs[j]? = some rj) (hjoff : rj.offset = off) (hb : Resolves j b)
      (hd : p.Patched spec rc b.2 d) : Resolves i (b.1, d)
  | own {i j : ℕ} {id : Oid} {rc : EntryRec} {b : Obj} {d : List UInt8} (hrc : p.recs[i]? = some rc)
      (hk : rc.kind_or_delta = .refDelta id) (hb : Resolves j b)
      (hid : p.objLib.hash p.fmt b = some id) (hd : p.Patched spec rc b.2 d) : Resolves i (b.1, d)
  | thin {i : ℕ} {id : Oid} {rc : EntryRec} {b : Obj} {d : List UInt8} (hrc : p.recs[i]? = some rc)
      (hk : rc.kind_or_delta = .refDelta id) (hb : p.External spec id b)
      (hd : p.Patched spec rc b.2 d) : Resolves i (b.1, d)

/-- An object of the pass with the id: that of an entry, or a stored base. -/
def HasId (id : Oid) (o : Obj) : Prop :=
  p.External spec id o ∨ ∃ j, p.Resolves spec j o ∧ p.objLib.hash p.fmt o = some id

/-- What is read is what is stored: the bytes of the pending pack, and of a stored base the object
with its id. No two objects of the pass have one id. -/
structure Honest : Prop where
  read : ∀ t off n d, p.env.read t off n = .ok d → d = (p.pack.drop off).take n ∧ d.length = n
  stored : ∀ t locs es e, p.env.stored t locs = .ok es → e ∈ es →
    e.1 ∈ locs.map (·.1) ∧ ∀ o, p.objLib.decode e.2 = .ok o → spec.stored e.1 = some o
  distinct : ∀ id o o', p.HasId spec id o → p.HasId spec id o' → o = o'

/-- An entry with a finite chain of bases that ends in a full entry or a stored object. -/
inductive Grounded : ℕ → Prop
  | full {i : ℕ} {rc : EntryRec} {k : Kind} (hrc : p.recs[i]? = some rc)
      (hk : rc.kind_or_delta = .full k) : Grounded i
  | ofs {i j n off : ℕ} {rc rj : EntryRec} (hrc : p.recs[i]? = some rc)
      (hk : rc.kind_or_delta = .ofsDelta n) (hoff : p.objLib.baseOffset rc.offset n = some off)
      (hj : p.recs[j]? = some rj) (hjoff : rj.offset = off) (hb : Grounded j) : Grounded i
  | own {i j : ℕ} {id : Oid} {rc : EntryRec} {b : Obj} (hrc : p.recs[i]? = some rc)
      (hk : rc.kind_or_delta = .refDelta id) (hb : Grounded j) (hobj : p.Resolves spec j b)
      (hid : p.objLib.hash p.fmt b = some id) : Grounded i
  | thin {i : ℕ} {id : Oid} {rc : EntryRec} (hrc : p.recs[i]? = some rc)
      (hk : rc.kind_or_delta = .refDelta id) (hb : p.IsExternal id) : Grounded i

/-- The offset deltas from an entry lead to a delta over the base `id`. -/
inductive OfsRef : ℕ → Oid → Prop
  | here {i : ℕ} {id : Oid} {rc : EntryRec} (hrc : p.recs[i]? = some rc)
      (hk : rc.kind_or_delta = .refDelta id) : OfsRef i id
  | step {i j n off : ℕ} {id : Oid} {rc rj : EntryRec} (hrc : p.recs[i]? = some rc)
      (hk : rc.kind_or_delta = .ofsDelta n) (hoff : p.objLib.baseOffset rc.offset n = some off)
      (hj : p.recs[j]? = some rj) (hjoff : rj.offset = off) (h : OfsRef j id) : OfsRef i id

/-- The base to which the offset deltas from an entry lead, if there is one, is known. -/
def Settled (by_id : Oid → Option ℕ) (i : ℕ) : Prop :=
  ∀ id, p.OfsRef i id → p.IsExternal id ∨ by_id id ≠ none

/-- The object of the entry at an offset, with known bases. -/
def At (by_id : Oid → Option ℕ) (off : ℕ) (o : Obj) : Prop :=
  ∃ j rc, p.recs[j]? = some rc ∧ rc.offset = off ∧ p.Resolves spec j o ∧ p.Settled by_id j

/-- The offset deltas from an offset lead to a delta over the base `id`. -/
def RefAt (off : ℕ) (id : Oid) : Prop :=
  ∃ j rc, p.recs[j]? = some rc ∧ rc.offset = off ∧ p.OfsRef j id

/-- The state between two entries. -/
structure Sound (cx : Cx p.store) : Prop where
  win : cx.win.buf <+: p.pack.drop cx.win.start
  off : ∀ off o, p.store.get cx.cache (.off off) = some o → p.At spec cx.by_id off o
  ext : ∀ id o, p.store.get cx.cache (.id id) = some o → p.External spec id o
  ids : ∀ id j, cx.by_id id = some j →
    ∃ o, p.Resolves spec j o ∧ p.objLib.hash p.fmt o = some id ∧ p.Settled cx.by_id j

/-- What resolving a base does not touch. -/
structure Same (cx cx' : Cx p.store) : Prop where
  by_id : cx'.by_id = cx.by_id
  out : cx'.out = cx.out
  rows : cx'.rows = cx.rows
  posted : cx'.posted = cx.posted

/-- The failures other than a missing base. -/
def Other (f : Fault) : Prop := ∀ id, f ≠ .missingBase id

variable {p spec} {cx cx' cx'' : Cx p.store}

theorem other_failed (e : Error) : Other (.failed e) := by
  intro id h
  cases h

theorem other_unpack (m : String) : Other (unpackFault m) := other_failed _

theorem Same.refl (cx : Cx p.store) : p.Same cx cx := ⟨rfl, rfl, rfl, rfl⟩

theorem Same.trans (h : p.Same cx cx') (h' : p.Same cx' cx'') : p.Same cx cx'' :=
  ⟨h'.by_id.trans h.by_id, h'.out.trans h.out, h'.rows.trans h.rows, h'.posted.trans h.posted⟩

/-! ## The entry table -/

/-- No two entries begin at one offset. -/
theorem offset_inj {j : ℕ} {rc' : EntryRec} (hi : p.recs[i]? = some rc) (hj : p.recs[j]? = some rc')
    (h : rc.offset = rc'.offset) : i = j := by
  obtain ⟨hlti, rfl⟩ := List.getElem?_eq_some_iff.mp hi
  obtain ⟨hltj, rfl⟩ := List.getElem?_eq_some_iff.mp hj
  have hsorted := List.pairwise_iff_getElem.mp p.sorted
  rcases Nat.lt_trichotomy i j with hlt | heq | hlt
  · have := hsorted i j hlti hltj hlt
    omega
  · exact heq
  · have := hsorted j i hltj hlti hlt
    omega

theorem byOff_eq_some (h : p.byOff off = some rc) :
    rc.offset = off ∧ ∃ j : ℕ, p.recs[j]? = some rc := by
  unfold byOff at h
  have hoff := List.find?_some h
  have hmem := List.mem_of_find?_eq_some h
  exact ⟨by simpa using hoff, List.getElem?_of_mem hmem⟩

theorem externalLoc_isSome : (p.externalLoc id).isSome ↔ p.IsExternal id := by
  unfold externalLoc IsExternal
  simp only [Option.isSome_map, List.find?_isSome, decide_eq_true_eq, List.mem_map]

theorem Patched.unique {b d' : List UInt8} (h : p.Patched spec rc b d)
    (h' : p.Patched spec rc b d') : d = d' := by
  obtain ⟨δ, hδ, hd⟩ := h
  obtain ⟨δ', hδ', hd'⟩ := h'
  rw [hδ] at hδ'
  cases hδ'
  rw [hd] at hd'
  exact Option.some.inj hd'

/-- What the kind of an entry says about its object. -/
theorem Resolves.inv (h : p.Resolves spec i o) (hrc : p.recs[i]? = some rc) :
    match rc.kind_or_delta with
    | .full k => o.1 = k ∧ spec.unzip (rc.body p.pack) = some o.2
    | .ofsDelta n => ∃ off j rj b, p.objLib.baseOffset rc.offset n = some off ∧
        p.recs[j]? = some rj ∧ rj.offset = off ∧ p.Resolves spec j b ∧ o.1 = b.1 ∧
        p.Patched spec rc b.2 o.2
    | .refDelta id => ∃ b, p.HasId spec id b ∧ o.1 = b.1 ∧ p.Patched spec rc b.2 o.2 := by
  cases h with
  | full hrc' hk hd =>
    rw [hrc] at hrc'
    cases hrc'
    rw [hk]
    exact ⟨rfl, hd⟩
  | ofs hrc' hk hoff hj hjoff hb hd =>
    rw [hrc] at hrc'
    cases hrc'
    rw [hk]
    exact ⟨_, _, _, _, hoff, hj, hjoff, hb, rfl, hd⟩
  | own hrc' hk hb hid hd =>
    rw [hrc] at hrc'
    cases hrc'
    rw [hk]
    exact ⟨_, .inr ⟨_, hb, hid⟩, rfl, hd⟩
  | thin hrc' hk hb hd =>
    rw [hrc] at hrc'
    cases hrc'
    rw [hk]
    exact ⟨_, .inl hb, rfl, hd⟩

/-- The object of an entry is unique. -/
theorem Resolves.unique (henv : p.Honest spec) {o' : Obj} (h : p.Resolves spec i o)
    (h' : p.Resolves spec i o') : o = o' := by
  induction h generalizing o' with
  | full hrc hk hd =>
    have hinv := h'.inv hrc
    rw [hk] at hinv
    obtain ⟨hkind, hd'⟩ := hinv
    rw [hd] at hd'
    exact Prod.ext hkind.symm (Option.some.inj hd')
  | ofs hrc hk hoff hj hjoff _ hd ih =>
    have hinv := h'.inv hrc
    rw [hk] at hinv
    obtain ⟨off', j', rj', b', hoff', hj', hjoff', hb', hkind, hd'⟩ := hinv
    rw [hoff] at hoff'
    cases hoff'
    obtain rfl := offset_inj hj hj' (hjoff.trans hjoff'.symm)
    obtain rfl := ih hb'
    exact Prod.ext hkind.symm (hd.unique hd')
  | own hrc hk hb hid hd =>
    have hinv := h'.inv hrc
    rw [hk] at hinv
    obtain ⟨b', hb', hkind, hd'⟩ := hinv
    obtain rfl := henv.distinct _ _ _ (.inr ⟨_, hb, hid⟩) hb'
    exact Prod.ext hkind.symm (hd.unique hd')
  | thin hrc hk hb hd =>
    have hinv := h'.inv hrc
    rw [hk] at hinv
    obtain ⟨b', hb', hkind, hd'⟩ := hinv
    obtain rfl := henv.distinct _ _ _ (.inl hb) hb'
    exact Prod.ext hkind.symm (hd.unique hd')

/-- What the kind of an entry says about where its offset deltas lead. -/
theorem OfsRef.inv (h : p.OfsRef i id) (hrc : p.recs[i]? = some rc) :
    match rc.kind_or_delta with
    | .full _ => False
    | .ofsDelta n => ∃ off j rj, p.objLib.baseOffset rc.offset n = some off ∧
        p.recs[j]? = some rj ∧ rj.offset = off ∧ p.OfsRef j id
    | .refDelta id' => id = id' := by
  cases h with
  | here hrc' hk =>
    rw [hrc] at hrc'
    cases hrc'
    rw [hk]
  | step hrc' hk hoff hj hjoff h =>
    rw [hrc] at hrc'
    cases hrc'
    rw [hk]
    exact ⟨_, _, _, hoff, hj, hjoff, h⟩

/-- Only a delta over an id leads to a base, so the ids are recorded. -/
theorem OfsRef.needIds (h : p.OfsRef i id) : p.needIds = true := by
  induction h with
  | here hrc hk =>
    refine List.any_eq_true.mpr ⟨_, List.mem_of_getElem? hrc, ?_⟩
    rw [hk]
  | step _ _ _ _ _ _ ih => exact ih

/-! ## Reads and decoding -/

theorem ask_ends {α : Type} {f : ℕ → Except Error α} {Q : α → Cx p.store → Prop}
    (h : ∀ a, f cx.clock = .ok a → Q a { cx with clock := cx.clock + 1 }) :
    Ends Other (p.ask f) Q cx := by
  unfold ask
  simp only [ends_bind, ends_get, ends_set]
  exact ends_ofExcept h (fun e _ => other_failed e)

/-- A slice of a part of the pack is a slice of the pack. -/
theorem slice_eq {pack buf : List UInt8} {len : ℕ} (hbuf : buf <+: pack.drop start)
    (hle : start ≤ off) (hlen : off - start + len ≤ buf.length) :
    (buf.drop (off - start)).take len = (pack.drop off).take len ∧
      ((buf.drop (off - start)).take len).length = len := by
  obtain ⟨rest, hrest⟩ := hbuf
  have hdrop : pack.drop off = (buf.drop (off - start)) ++ rest := by
    rw [← List.drop_append_of_le_length (by omega), hrest, List.drop_drop]
    congr 1
    omega
  refine ⟨?_, ?_⟩
  · rw [hdrop, List.take_append_of_le_length]
    rw [List.length_drop]
    omega
  · rw [List.length_take, List.length_drop]
    omega

/-- The window that `slide` gives holds bytes of the pack from the entry or before it. -/
theorem slide_ends (henv : p.Honest spec) (hcx : p.Sound spec cx) (rc : EntryRec) :
    Ends Other (p.slide rc) (fun win cx' => win.buf <+: p.pack.drop win.start ∧
      win.start ≤ rc.offset ∧ p.Sound spec cx' ∧ p.Same cx cx') cx := by
  unfold slide
  simp only [ends_bind, ends_get]
  split
  · next hin => exact ⟨hcx.win, hin.1, hcx, .refl cx⟩
  · simp only [ends_bind]
    refine ask_ends fun buf hbuf => ?_
    have hwin : buf <+: p.pack.drop rc.offset := by
      rw [(henv.read _ _ _ _ hbuf).1]
      exact List.take_prefix _ _
    exact ⟨hwin, Nat.le_refl _, ⟨hwin, hcx.off, hcx.ext, hcx.ids⟩, ⟨rfl, rfl, rfl, rfl⟩⟩

/-- The window gives the bytes of the entry. -/
theorem windowEntry_ends (henv : p.Honest spec) (hcx : p.Sound spec cx) (rc : EntryRec) :
    Ends Other (p.windowEntry rc) (fun raw cx' => raw = rc.raw p.pack ∧
      raw.length = rc.header_len + rc.compressed_len ∧ p.Sound spec cx' ∧ p.Same cx cx') cx := by
  unfold windowEntry
  dsimp only
  split
  · exact other_unpack _
  refine (slide_ends henv hcx rc).bind fun win cx' ⟨hwin, hstart, hcx', hsame⟩ => ?_
  split
  · exact other_failed _
  · next hlen =>
    obtain ⟨heq, hraw⟩ := slice_eq hwin hstart (Nat.le_of_not_lt hlen)
    exact ⟨heq, hraw, hcx', hsame⟩

/-- A full entry is inflated. -/
theorem decodeMini_full (hlib : p.objLib.Lawful spec) {k : Kind} (hrc : rc ∈ p.recs)
    (hk : rc.kind_or_delta = .full k) (base : Option Obj) :
    Ends Other (p.decodeMini base (rc.raw p.pack)) (fun o cx' => cx' = cx ∧ o.1 = k ∧
      spec.unzip (rc.body p.pack) = some o.2) cx := by
  unfold decodeMini
  simp only [ends_bind]
  refine ends_ofExcept (fun e he => ?_) (fun m _ => other_unpack m)
  obtain ⟨hheader, hsize⟩ := p.header rc hrc e he
  split
  · exact other_unpack _
  rw [hheader, hk]
  simp only [ends_bind]
  refine ends_ofExcept (fun d hd => ?_) (fun m _ => other_unpack _)
  rw [hsize] at hd
  exact ⟨rfl, rfl, hlib.inflate_ok _ _ _ hd⟩

/-- A delta is applied to its base. -/
theorem decodeMini_delta (hlib : p.objLib.Lawful spec) (hrc : rc ∈ p.recs)
    (hk : ∀ k, rc.kind_or_delta ≠ .full k) (b : Obj) :
    Ends Other (p.decodeMini (some b) (rc.raw p.pack)) (fun o cx' => cx' = cx ∧ o.1 = b.1 ∧
      p.Patched spec rc b.2 o.2) cx := by
  unfold decodeMini
  simp only [ends_bind]
  refine ends_ofExcept (fun e he => ?_) (fun m _ => other_unpack m)
  obtain ⟨hheader, hsize⟩ := p.header rc hrc e he
  split
  · exact other_unpack _
  have hpatch : Ends Other (ofExcept (fun m => unpackFault ("delta: " ++ m))
      (p.objLib.patch b e.decompressed_size ((rc.raw p.pack).drop e.header_size))) (fun d cx' =>
        cx' = cx ∧ p.Patched spec rc b.2 d) cx := by
    refine ends_ofExcept (fun d hd => ⟨rfl, ?_⟩) (fun m _ => other_unpack _)
    rw [hsize] at hd
    exact hlib.patch_ok _ _ _ _ hd
  rw [hheader]
  cases hkind : rc.kind_or_delta with
  | full k => exact absurd hkind (hk k)
  | ofsDelta n => exact hpatch.bind fun d cx' hd => ⟨hd.1, rfl, hd.2⟩
  | refDelta id => exact hpatch.bind fun d cx' hd => ⟨hd.1, rfl, hd.2⟩

/-! ## The cache -/

theorem cached_ends {k : CacheKey} {Q : Option Obj → Cx p.store → Prop}
    (h : Q (p.store.get cx.cache k) cx) : Ends Other (p.cached k) Q cx := h

theorem Sound.put_off (hcx : p.Sound spec cx) (hat : p.At spec cx.by_id off o) :
    p.Sound spec { cx with cache := p.store.put cx.cache (.off off) o } where
  win := hcx.win
  off off' o' h := by
    rcases p.store.get_put _ _ _ _ _ h with ⟨hkey, rfl⟩ | h
    · cases hkey
      exact hat
    · exact hcx.off off' o' h
  ext id o' h := by
    rcases p.store.get_put _ _ _ _ _ h with ⟨hkey, -⟩ | h
    · cases hkey
    · exact hcx.ext id o' h
  ids := hcx.ids

theorem Sound.put_id (hcx : p.Sound spec cx) (hext : p.External spec id o) :
    p.Sound spec { cx with cache := p.store.put cx.cache (.id id) o } where
  win := hcx.win
  off off o' h := by
    rcases p.store.get_put _ _ _ _ _ h with ⟨hkey, -⟩ | h
    · cases hkey
    · exact hcx.off off o' h
  ext id' o' h := by
    rcases p.store.get_put _ _ _ _ _ h with ⟨hkey, rfl⟩ | h
    · cases hkey
      exact hext
    · exact hcx.ext id' o' h
  ids := hcx.ids

/-- What is put under an offset is given back. -/
theorem cachePut_off_ends (hcx : p.Sound spec cx) (hat : p.At spec cx.by_id off o) :
    Ends Other (p.cachePut (.off off) o) (fun o' cx' =>
      o' = o ∧ p.Sound spec cx' ∧ p.Same cx cx') cx :=
  ⟨rfl, hcx.put_off hat, ⟨rfl, rfl, rfl, rfl⟩⟩

theorem cachePut_id_ends (hcx : p.Sound spec cx) (hext : p.External spec id o) :
    Ends Other (p.cachePut (.id id) o) (fun o' cx' =>
      o' = o ∧ p.Sound spec cx' ∧ p.Same cx cx') cx :=
  ⟨rfl, hcx.put_id hext, ⟨rfl, rfl, rfl, rfl⟩⟩

/-! ## Bases -/

/-- A stored base is the object with its id. -/
theorem external_ends (henv : p.Honest spec) (hcx : p.Sound spec cx) (hid : p.IsExternal id) :
    Ends Other (p.external id) (fun o cx' => p.External spec id o ∧ p.Sound spec cx' ∧ p.Same cx cx')
    cx := by
  unfold external
  rw [ends_bind]
  apply cached_ends
  split
  · next o ho => exact ⟨hcx.ext id o ho, hcx, .refl cx⟩
  split
  · next hloc =>
    have hsome := externalLoc_isSome.mpr hid
    rw [hloc] at hsome
    cases hsome
  · next loc hloc =>
    dsimp only
    split
    · exact other_unpack _
    rw [ends_bind]
    refine ask_ends fun es hes => ?_
    split
    · exact other_failed _
    · next e he =>
      obtain ⟨hmem, hobj⟩ := henv.stored _ _ _ e hes (List.mem_of_getLast? he)
      have hid' : e.1 = id := by simpa using hmem
      rw [ends_bind]
      refine ends_ofExcept (fun o ho => ?_) (fun m _ => other_failed m)
      have hhash := hobj o ho
      rw [hid'] at hhash
      have hsound : p.Sound spec { cx with clock := cx.clock + 1 } :=
        ⟨hcx.win, hcx.off, hcx.ext, hcx.ids⟩
      exact (cachePut_id_ends hsound ⟨hid, hhash⟩).mono fun o' cx' ⟨ho', hcx', hsame⟩ =>
        ⟨ho' ▸ ⟨hid, hhash⟩, hcx', ⟨hsame.by_id, hsame.out, hsame.rows, hsame.posted⟩⟩

variable (p spec) in
/-- The object with an id that is known. -/
def BaseOf (ids : Oid → Option ℕ) (id : Oid) (o : Obj) : Prop :=
  p.HasId spec id o ∧ (p.IsExternal id ∨ ids id ≠ none)

variable (p) in
/-- There is no object with the id yet. -/
def Unknown (ids : Oid → Option ℕ) (id : Oid) : Prop := ids id = none ∧ ¬p.IsExternal id

variable (p spec) in
/-- A way to find bases: it gives the base, or it waits for one that is not known. -/
def Answers (base : Oid → p.M Base) : Prop := ∀ id cx, p.Sound spec cx →
  Ends Other (base id) (fun b cx' => p.Sound spec cx' ∧ p.Same cx cx' ∧
    match b with
    | .ready o => p.BaseOf spec cx.by_id id o
    | .await id' => id' = id ∧ p.Unknown cx.by_id id) cx

variable (p spec) in
/-- The deltas of a chain, applied one after another, give the objects of their entries, and the
last one gives that of the entry at `start`. -/
def Unwinds (ids : Oid → Option ℕ) (start : ℕ) : List (ℕ × List UInt8) → Obj → Prop
  | [], o => p.At spec ids start o
  | (off, raw) :: chain, o => ∃ rc ∈ p.recs, raw = rc.raw p.pack ∧
      (∀ k, rc.kind_or_delta ≠ .full k) ∧ ∀ d, p.Patched spec rc o.2 d →
      p.At spec ids off (o.1, d) ∧ Unwinds ids start chain (o.1, d)

/-- The deltas of a chain are applied. -/
theorem unwind_ends (hlib : p.objLib.Lawful spec) {chain : List (ℕ × List UInt8)}
    (hcx : p.Sound spec cx) (hids : cx.by_id = ids) (h : p.Unwinds spec ids start chain o) :
    Ends Other (p.unwind chain o) (fun o' cx' => p.At spec ids start o' ∧ p.Sound spec cx' ∧
      p.Same cx cx') cx := by
  induction chain generalizing o cx with
  | nil => exact ⟨h, hcx, .refl cx⟩
  | cons link chain ih =>
    obtain ⟨off, raw⟩ := link
    obtain ⟨rc, hrc, rfl, hdelta, hnext⟩ := h
    unfold unwind
    refine (decodeMini_delta hlib hrc hdelta o).bind fun r cx₁ ⟨hcx₁, _, hr⟩ => ?_
    subst hcx₁
    obtain ⟨hat, hchain⟩ := hnext r.2 hr
    rw [← hids] at hat
    refine (cachePut_off_ends hcx hat).bind fun o' cx₂ ⟨ho', hcx₂, hsame⟩ => ?_
    subst ho'
    refine (ih hcx₂ (hsame.by_id.trans hids) hchain).mono fun o'' cx₃ ⟨hat', hcx₃, hsame'⟩ => ?_
    exact ⟨hat', hcx₃, hsame.trans hsame'⟩

/-- An object that the base of an offset delta has makes the delta an object of its entry. -/
theorem At.ofs {n : ℕ} {b : Obj} (hrc : p.recs[i]? = some rc) (hk : rc.kind_or_delta = .ofsDelta n)
    (hoff : p.objLib.baseOffset rc.offset n = some off) (hb : p.At spec ids off b)
    (hd : p.Patched spec rc b.2 d) : p.At spec ids rc.offset (b.1, d) := by
  obtain ⟨j, rj, hj, hjoff, hobj, hsettled⟩ := hb
  refine ⟨i, rc, hrc, rfl, .ofs hrc hk hoff hj hjoff hobj hd, fun id hid => ?_⟩
  have hinv := hid.inv hrc
  rw [hk] at hinv
  obtain ⟨off', j', rj', hoff', hj', hjoff', href⟩ := hinv
  rw [hoff] at hoff'
  cases hoff'
  obtain rfl := offset_inj hj hj' (hjoff.trans hjoff'.symm)
  exact hsettled id href

/-- A known base makes a delta over an id an object of its entry. -/
theorem At.ref {b : Obj} (hrc : p.recs[i]? = some rc) (hk : rc.kind_or_delta = .refDelta id)
    (hb : p.BaseOf spec ids id b) (hd : p.Patched spec rc b.2 d) :
    p.At spec ids rc.offset (b.1, d) := by
  refine ⟨i, rc, hrc, rfl, ?_, fun id' hid => ?_⟩
  · rcases hb.1 with hext | ⟨j, hobj, hhash⟩
    · exact .thin hrc hk hext hd
    · exact .own hrc hk hobj hhash hd
  · have hinv := hid.inv hrc
    rw [hk] at hinv
    cases hinv
    exact hb.2

theorem At.full {k : Kind} (hrc : p.recs[i]? = some rc) (hk : rc.kind_or_delta = .full k)
    (hd : spec.unzip (rc.body p.pack) = some d) : p.At spec ids rc.offset (k, d) := by
  refine ⟨i, rc, hrc, rfl, .full hrc hk hd, fun id hid => ?_⟩
  have hinv := hid.inv hrc
  rw [hk] at hinv
  exact hinv.elim

/-- The loop of `resolve_at`. What is known of the deltas that were passed is that they turn an
object of the entry at hand into one of the entry at `start`. -/
theorem walk_ends (hlib : p.objLib.Lawful spec) (henv : p.Honest spec) {base : Oid → p.M Base}
    (hbase : p.Answers spec base) {links bytes : ℕ} {chain : List (ℕ × List UInt8)}
    (hcx : p.Sound spec cx) (hids : cx.by_id = ids)
    (hobj : ∀ o, p.At spec ids off o → p.Unwinds spec ids start chain o)
    (href : ∀ id, p.RefAt off id → p.RefAt start id) :
    Ends Other (p.walk base links off chain bytes) (fun w cx' => p.Sound spec cx' ∧ p.Same cx cx' ∧
      match w with
      | .found o chain' _ => p.Unwinds spec ids start chain' o
      | .blocked id _ => p.RefAt start id ∧ p.Unknown ids id) cx := by
  induction links generalizing off chain bytes cx with
  | zero =>
    unfold walk
    rw [ends_bind]
    apply cached_ends
    split
    · next o ho => exact ⟨hcx, .refl cx, hobj o (hids ▸ hcx.off off o ho)⟩
    · exact other_unpack _
  | succ links ih =>
    unfold walk
    rw [ends_bind]
    apply cached_ends
    split
    · next o ho => exact ⟨hcx, .refl cx, hobj o (hids ▸ hcx.off off o ho)⟩
    dsimp only
    split
    · exact other_unpack _
    next rc hrc =>
    obtain ⟨rfl, i, hi⟩ := byOff_eq_some hrc
    have hmem := List.mem_of_getElem? hi
    refine (windowEntry_ends henv hcx rc).bind ?_
    rintro raw cx₁ ⟨hraw, -, hcx₁, hsame⟩
    simp only [ends_bind, ends_modify, ends_get]
    -- The bytes in flight are counted; nothing else changes.
    have hcx₂ : p.Sound spec { cx₁ with chain_live := cx₁.chain_live + raw.length } :=
      ⟨hcx₁.win, hcx₁.off, hcx₁.ext, hcx₁.ids⟩
    have hsame₂ : p.Same cx { cx₁ with chain_live := cx₁.chain_live + raw.length } :=
      ⟨hsame.by_id, hsame.out, hsame.rows, hsame.posted⟩
    split
    · exact other_unpack _
    split
    · next n hk =>
      -- An offset delta: the walk goes on at its base.
      split
      · exact other_unpack _
      next off' hoff =>
      have hne : ∀ k, rc.kind_or_delta ≠ .full k := by
        intro k h
        rw [hk] at h
        cases h
      refine (ih hcx₂ (hsame₂.by_id.trans hids) (fun o ho => ?_) (fun id hid => ?_)).mono
        fun w cx₃ h => ⟨h.1, hsame₂.trans h.2.1, h.2.2⟩
      · refine ⟨rc, hmem, hraw, hne, fun d hd => ?_⟩
        have hat := ho.ofs hi hk hoff hd
        exact ⟨hat, hobj _ hat⟩
      · obtain ⟨j, rj, hj, hjoff, hjref⟩ := hid
        exact href id ⟨i, rc, hi, rfl, .step hi hk hoff hj hjoff hjref⟩
    · next id hk =>
      -- A delta over an id: the walk ends at its base, or waits for it.
      have hne : ∀ k, rc.kind_or_delta ≠ .full k := by
        intro k h
        rw [hk] at h
        cases h
      rw [ends_bind]
      refine (hbase id _ hcx₂).mono ?_
      rintro b cx₃ ⟨hcx₃, hsame₃, hb⟩
      have hids₂ := hsame₂.by_id.trans hids
      rw [hids₂] at hb
      cases b with
      | ready o =>
        refine ⟨hcx₃, hsame₂.trans hsame₃, rc, hmem, hraw, hne, fun d hd => ?_⟩
        have hat := At.ref hi hk hb hd
        exact ⟨hat, hobj _ hat⟩
      | await id' =>
        obtain ⟨rfl, hunknown⟩ := hb
        exact ⟨hcx₃, hsame₂.trans hsame₃, href _ ⟨i, rc, hi, rfl, .here hi hk⟩, hunknown⟩
    · next k hk =>
      -- A full entry: the walk ends with its object.
      split
      · exact other_unpack _
      rw [hraw]
      refine (decodeMini_full hlib hmem hk none).bind ?_
      rintro o cx₃ ⟨hcx₃, hkind, hd⟩
      subst hcx₃
      have hat : p.At spec ids rc.offset o := by
        obtain ⟨k', d⟩ := o
        cases hkind
        exact At.full hi hk hd
      have hids₂ := hsame₂.by_id.trans hids
      rw [← hids₂] at hat
      rw [hraw] at hcx₂ hsame₂ hids₂
      refine (cachePut_off_ends hcx₂ hat).bind ?_
      rintro o' cx₄ ⟨ho', hcx₄, hsame₄⟩
      subst ho'
      rw [hids₂] at hat
      exact ⟨hcx₄, hsame₂.trans hsame₄, hobj _ hat⟩

variable (p spec) in
/-- A way to resolve the entry at an offset: it gives the object of the entry, or it waits for the
base to which the offset deltas of the entry lead. -/
def Locates (resolve : ℕ → p.M Base) : Prop := ∀ off cx, p.Sound spec cx →
  Ends Other (resolve off) (fun b cx' => p.Sound spec cx' ∧ p.Same cx cx' ∧
    match b with
    | .ready o => p.At spec cx.by_id off o
    | .await id => p.RefAt off id ∧ p.Unknown cx.by_id id) cx

theorem resolveAt_locates (hlib : p.objLib.Lawful spec) (henv : p.Honest spec) {base : Oid → p.M Base}
    (hbase : p.Answers spec base) : p.Locates spec (p.resolveAt base) := by
  intro off cx hcx
  unfold resolveAt
  have hwalk : Ends Other (p.walk base maxDepth off [] 0) _ cx :=
    walk_ends hlib henv hbase hcx rfl (fun o ho => ho) (fun id hid => hid)
  refine hwalk.bind fun w cx₁ ⟨hcx₁, hsame, hw⟩ => ?_
  cases w with
  | blocked id bytes =>
    exact ⟨⟨hcx₁.win, hcx₁.off, hcx₁.ext, hcx₁.ids⟩,
      ⟨hsame.by_id, hsame.out, hsame.rows, hsame.posted⟩, hw⟩
  | found o chain bytes =>
    refine (unwind_ends hlib hcx₁ hsame.by_id hw).bind fun o' cx₂ ⟨hat, hcx₂, hsame'⟩ => ?_
    have h := hsame.trans hsame'
    exact ⟨⟨hcx₂.win, hcx₂.off, hcx₂.ext, hcx₂.ids⟩, ⟨h.by_id, h.out, h.rows, h.posted⟩, hat⟩

/-- The entry of an id that is known gives the object with the id, and it never waits. -/
theorem baseVia_answers (henv : p.Honest spec) {nested : Option (ℕ → p.M Base)}
    (hnested : ∀ resolve ∈ nested, p.Locates spec resolve) :
    p.Answers spec (p.baseVia nested) := by
  intro id cx hcx
  unfold baseVia
  rw [ends_bind]
  apply cached_ends
  split
  · next o ho =>
    have hext := hcx.ext id o ho
    exact ⟨hcx, .refl cx, .inl hext, .inl hext.1⟩
  simp only [ends_bind, ends_get]
  split
  · next j hj =>
    obtain ⟨o, hobj, hhash, hsettled⟩ := hcx.ids id j hj
    split
    · exact other_unpack _
    next resolve =>
    split
    · exact other_failed _
    next rc hrc =>
    refine (hnested resolve rfl rc.offset cx hcx).mono ?_
    rintro b cx' ⟨hcx', hsame, hb⟩
    refine ⟨hcx', hsame, ?_⟩
    cases b with
    | ready o' =>
      obtain ⟨j', rc', hrc', hoff, hobj', -⟩ := hb
      obtain rfl := offset_inj hrc hrc' hoff.symm
      obtain rfl := hobj.unique henv hobj'
      refine ⟨.inr ⟨j, hobj, hhash⟩, .inr ?_⟩
      rw [hj]
      exact Option.some_ne_none j
    | await id' =>
      -- The entry is settled, so its offset deltas lead to a base that is known.
      obtain ⟨⟨j', rc', hrc', hoff, href⟩, hnone, hext⟩ := hb
      obtain rfl := offset_inj hrc hrc' hoff.symm
      rcases hsettled id' href with hknown | hknown
      · exact absurd hknown hext
      · exact absurd hnone hknown
  · next hnone =>
    split
    · next hsome =>
      have hext := externalLoc_isSome.mp hsome
      exact (external_ends henv hcx hext).bind fun o cx' h => ⟨h.2.1, h.2.2, .inl h.1, .inl hext⟩
    · next hsome =>
      exact ⟨hcx, .refl cx, rfl, hnone, fun hext => hsome (externalLoc_isSome.mpr hext)⟩

theorem baseById_answers (hlib : p.objLib.Lawful spec) (henv : p.Honest spec) (hops : ℕ) :
    p.Answers spec (p.baseById hops) := by
  induction hops with
  | zero => exact baseVia_answers henv fun _ h => nomatch h
  | succ hops ih =>
    refine baseVia_answers henv fun resolve h => ?_
    cases h
    exact resolveAt_locates hlib henv ih

end PassB

end GitEdge
