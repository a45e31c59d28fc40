import Mathlib.Algebra.BigOperators.Group.Finset.Basic
import GitEdge.Pack.Normalize

/-!
# The byte budget of the cache

The cache of pass B counts the bytes of the objects that it holds, and drops the oldest keys while
the count is over the budget. `put` adds the new object to the count, but does not take off the
object that was resident under the key; and it queues the key once more, so that the loop stops at a
key that it dropped before.

As long as no put finds its key resident, the count is the size of the resident objects, and stays
within the budget. A put over a resident object leaves the count too high by the size of that object
(`cache_accounts_iff`). Pass B makes such a put: an entry that waits for a later base, and is the
base of another entry, is resolved and cached for that entry, and cached again when it is woken.
-/

namespace GitEdge

variable {k : CacheKey} {c : Cache}

namespace Cache

variable {cap : ℕ}

/-- The size of the object under a key; nothing is resident under it otherwise. -/
def sizeAt (map : CacheKey → Option Obj) (k : CacheKey) : ℕ := (map k).elim 0 fun o => o.2.length

/-- The size of the objects under the keys of a queue. -/
def sizeOf (map : CacheKey → Option Obj) (order : List CacheKey) : ℕ :=
  ∑ k ∈ order.toFinset, sizeAt map k

/-- The size of the resident objects; each has its key in the queue. -/
def total (c : Cache) : ℕ := sizeOf c.map c.order

/-- The count is the size of the resident objects, and within the budget. -/
def Accounts (cap : ℕ) (c : Cache) : Prop := c.bytes = c.total ∧ c.total ≤ cap

/-- The caches that puts of keys make which were not resident. -/
inductive Fresh (cap : ℕ) : Cache → Prop
  | empty : Fresh cap (lossy cap).empty
  | put {c : Cache} {k : CacheKey} (o : Obj) (h : Fresh cap c) (habsent : c.map k = none) :
      Fresh cap (c.put cap k o)

/-- What the puts of new keys keep: the queue has the resident keys, each once, and the count is
right. -/
structure Sound (cap : ℕ) (c : Cache) : Prop where
  nodup : c.order.Nodup
  resident : ∀ k, k ∈ c.order ↔ (c.map k).isSome
  bytes : c.bytes = c.total
  within : c.bytes ≤ cap

/-- The drop of the first key of a queue takes the size of its object off, whether the key is queued
again or not. -/
theorem sizeOf_cons (map : CacheKey → Option Obj) (k : CacheKey) (order : List CacheKey) :
    sizeOf map (k :: order) = sizeAt map k + sizeOf (Function.update map k none) order := by
  have hrest : ∀ s : Finset CacheKey, k ∉ s →
      ∑ x ∈ s, sizeAt (Function.update map k none) x = ∑ x ∈ s, sizeAt map x := by
    intro s hs
    apply Finset.sum_congr rfl
    intro x hx
    have hne : x ≠ k := fun h => hs (h ▸ hx)
    rw [sizeAt, Function.update_of_ne hne, sizeAt]
  have hgone : sizeAt (Function.update map k none) k = 0 := by
    rw [sizeAt, Function.update_self]
    rfl
  unfold sizeOf
  rw [List.toFinset_cons]
  by_cases hk : k ∈ order.toFinset
  · rw [Finset.insert_eq_of_mem hk, ← Finset.add_sum_erase _ _ hk,
      ← Finset.add_sum_erase _ _ hk, hgone, hrest _ (Finset.notMem_erase k _), Nat.zero_add]
  · rw [Finset.sum_insert hk, hrest _ hk]

/-- A queue of resident keys, each once, is dropped from until the count is within the budget. -/
theorem sound_evict {bytes : ℕ} {map : CacheKey → Option Obj} {order : List CacheKey}
    (hnodup : order.Nodup) (hresident : ∀ k, k ∈ order ↔ (map k).isSome)
    (hbytes : bytes = sizeOf map order) : Sound cap (evict cap bytes map order) := by
  induction order generalizing bytes map with
  | nil => exact ⟨hnodup, hresident, hbytes, by rw [evict, hbytes]; exact Nat.zero_le _⟩
  | cons k order ih =>
    rw [evict]
    split_ifs with hover
    · obtain ⟨hk, hnodup'⟩ := List.nodup_cons.mp hnodup
      obtain ⟨o, ho⟩ := Option.isSome_iff_exists.mp ((hresident k).mp List.mem_cons_self)
      rw [ho]
      dsimp only
      apply ih hnodup'
      · intro x
        by_cases hx : x = k
        · subst hx
          rw [Function.update_self]
          exact ⟨fun h => absurd h hk, fun h => by cases h⟩
        · rw [Function.update_of_ne hx, ← hresident x, List.mem_cons]
          exact ⟨.inr, fun h => h.resolve_left hx⟩
      · rw [hbytes, sizeOf_cons, sizeAt, ho]
        exact Nat.add_sub_cancel_left _ _
    · exact ⟨hnodup, hresident, hbytes, Nat.le_of_not_lt hover⟩

/-- What `put` enters: the size of the new object comes in, and that of the object before it
goes. -/
theorem sizeOf_put (map : CacheKey → Option Obj) (order : List CacheKey) (o : Obj)
    (hk : k ∈ order ∨ map k = none) :
    sizeOf (Function.update map k (some o)) (order ++ [k]) + sizeAt map k =
      sizeOf map order + o.2.length := by
  have hswap : sizeOf (Function.update map k (some o)) (order ++ [k]) =
      sizeOf (Function.update map k (some o)) (k :: order) := by
    unfold sizeOf
    congr 1
    ext x
    simp
  have hbefore : sizeOf map order = sizeAt map k + sizeOf (Function.update map k none) order := by
    rcases hk with hk | hk
    · rw [← sizeOf_cons]
      unfold sizeOf
      rw [List.toFinset_cons, Finset.insert_eq_of_mem (List.mem_toFinset.mpr hk)]
    · have hsame : Function.update map k none = map := by rw [← hk, Function.update_eq_self]
      rw [hsame, sizeAt, hk, Option.elim_none, Nat.zero_add]
  have hnew : sizeAt (Function.update map k (some o)) k = o.2.length := by
    rw [sizeAt, Function.update_self, Option.elim_some]
  rw [hswap, sizeOf_cons, hnew, Function.update_idem, hbefore]
  omega

/-- A put of a new key keeps it. -/
theorem Sound.put (h : Sound cap c) (habsent : c.map k = none) (o : Obj) :
    Sound cap (c.put cap k o) := by
  have hk : k ∉ c.order := by
    rw [h.resident, habsent]
    exact Bool.false_ne_true
  apply sound_evict
  · rw [← List.concat_eq_append]
    exact h.nodup.concat hk
  · intro x
    by_cases hx : x = k
    · subst hx
      simp
    · rw [Function.update_of_ne hx, ← h.resident x]
      simp [hx]
  · have hsize := sizeOf_put c.map c.order o (.inr habsent)
    rw [sizeAt, habsent, Option.elim_none, Nat.add_zero] at hsize
    rw [hsize, h.bytes]
    rfl

theorem Fresh.sound (h : Fresh cap c) : Sound cap c := by
  induction h with
  | empty =>
    refine ⟨List.nodup_nil, fun k => ?_, rfl, Nat.zero_le _⟩
    exact ⟨fun hk => (by cases hk), fun hk => (by cases hk)⟩
  | put o _ habsent ih => exact ih.put habsent o

theorem Sound.accounts (h : Sound cap c) : Accounts cap c :=
  ⟨h.bytes, h.bytes ▸ h.within⟩

/-- With its last key queued twice, the loop drops from a queue until the count is within the budget
or nothing is resident. A count that is too high stays so by as much. -/
theorem evict_excess {bytes extra : ℕ} {map : CacheKey → Option Obj} {l : List CacheKey}
    (hnodup : l.Nodup) (hresident : ∀ x ∈ l, (map x).isSome) (hk : k ∈ l ∨ map k = none)
    (hbytes : bytes = sizeOf map (l ++ [k]) + extra) :
    (evict cap bytes map (l ++ [k])).bytes = (evict cap bytes map (l ++ [k])).total + extra ∧
      (evict cap bytes map (l ++ [k])).total ≤ cap := by
  induction l generalizing bytes map with
  | nil =>
    -- The key was dropped before, and nothing is left.
    have hnone : map k = none := hk.resolve_left (by simp)
    have hempty : sizeOf map [k] = 0 := by simp [sizeOf, sizeAt, hnone]
    rw [List.nil_append, hempty] at hbytes
    rw [List.nil_append, evict]
    split_ifs with hover
    · rw [hnone]
      exact ⟨hbytes, Nat.zero_le _⟩
    · refine ⟨?_, ?_⟩
      · rw [total, hempty]
        exact hbytes
      · rw [total, hempty]
        exact Nat.zero_le _
  | cons x l ih =>
    obtain ⟨hx, hnodup'⟩ := List.nodup_cons.mp hnodup
    obtain ⟨hxres, hlres⟩ := List.forall_mem_cons.mp hresident
    obtain ⟨o, ho⟩ := Option.isSome_iff_exists.mp hxres
    rw [List.cons_append] at hbytes ⊢
    rw [evict]
    split_ifs with hover
    · rw [ho]
      dsimp only
      apply ih hnodup'
      · intro y hy
        have hyx : y ≠ x := fun h => hx (h ▸ hy)
        rw [Function.update_of_ne hyx]
        exact hlres y hy
      · by_cases hkx : k = x
        · exact .inr (by rw [hkx, Function.update_self])
        · rw [Function.update_of_ne hkx]
          exact hk.imp_left fun h => (List.mem_cons.mp h).resolve_left hkx
      · rw [sizeOf_cons, sizeAt, ho, Option.elim_some] at hbytes
        omega
    · refine ⟨hbytes, ?_⟩
      change sizeOf map (x :: (l ++ [k])) ≤ cap
      omega

/-- After a put over a resident object, the count is too high by its size. -/
theorem Sound.put_resident (h : Sound cap c) {o' : Obj} (hresident : c.map k = some o') (o : Obj) :
    (c.put cap k o).bytes = (c.put cap k o).total + o'.2.length ∧ (c.put cap k o).total ≤ cap := by
  have hk : k ∈ c.order := (h.resident k).mpr (by rw [hresident]; rfl)
  apply evict_excess h.nodup
  · intro x hx
    by_cases hxk : x = k
    · rw [hxk, Function.update_self]
      rfl
    · rw [Function.update_of_ne hxk]
      exact (h.resident x).mp hx
  · exact .inl hk
  · have hsize := sizeOf_put c.map c.order o (.inl hk)
    rw [sizeAt, hresident, Option.elim_some] at hsize
    rw [hsize, h.bytes]
    rfl

end Cache

open Cache in
/-- Where every put so far was of a key that was not resident, the count of the cache is the size of
the resident objects, which all have their keys in the queue, and that is within the budget. After
the next put it is so again exactly if no object was resident under the key, or an empty one. -/
theorem cache_accounts_iff (cap : ℕ) (c : Cache) (hc : Fresh cap c) (k : CacheKey) (o : Obj) :
    (∀ x, (c.map x).isSome → x ∈ c.order) ∧ Accounts cap c ∧
      (Accounts cap (c.put cap k o) ↔ ∀ o', c.map k = some o' → o'.2 = []) := by
  have hsound := hc.sound
  refine ⟨fun x hx => (hsound.resident x).mpr hx, hsound.accounts, ?_⟩
  cases hk : c.map k with
  | none =>
    exact ⟨fun _ o' ho' => (by cases ho'), fun _ => (hsound.put hk o).accounts⟩
  | some o' =>
    obtain ⟨hbytes, hwithin⟩ := hsound.put_resident hk o
    constructor
    · rintro ⟨hcount, -⟩ o'' ho''
      cases ho''
      apply List.eq_nil_of_length_eq_zero
      omega
    · intro hempty
      refine ⟨?_, hwithin⟩
      rw [hbytes, hempty o' rfl]
      rfl

/-- A cache with one object. -/
def oneCached : Cache := (Cache.lossy cacheBytes).empty.put cacheBytes (.off 12) (.blob, [9])

/-- The cache of one object accounts for it, and no longer when the object is put again. -/
theorem cache_accounts_one :
    oneCached.Accounts cacheBytes ∧
      ¬ (oneCached.put cacheBytes (.off 12) (.blob, [9])).Accounts cacheBytes := by
  obtain ⟨-, haccounts, hagain⟩ := cache_accounts_iff cacheBytes oneCached
    (.put _ .empty rfl) (.off 12) (.blob, [9])
  refine ⟨haccounts, fun h => ?_⟩
  exact absurd (hagain.mp h (.blob, [9]) (by decide +kernel)) (by decide)

/-! ### A delta that is resolved before its turn

The first entry is a delta over the second one, and the third one a delta over the first. The first
waits for the second. The third is taken before the first is woken, so it resolves the first and
caches it; then the first is cached again. -/

namespace PassB

/-- The delta over the blob `[9]`, the blob, and a delta over the first entry, 51 bytes before. -/
def chainedEntries : List (List UInt8) :=
  forwardEntries ++ [entryBytes 6 [51] [2, 3, 0x90, 2, 1, 7]]

/-- Pass B over that pack. -/
def chained : PassB :=
  overPack (packObject (Codec.git .sha1) chainedEntries)
    (forwardRecs ++ [⟨63, 2, .ofsDelta 51, 17, 6⟩]) (by decide +kernel) (by decide +kernel)

/-- The count of the cache at the end of the pass, and the size of the resident objects. -/
def accounts : Option (Except Fault (Cx chained.store)) → Option (ℕ × ℕ)
  | some (.ok cx) =>
    let cache : Cache := cx.cache
    some (cache.bytes, cache.total)
  | _ => none

/-- The pass ends with a count of eight bytes for objects of six. -/
theorem chained_overcounts : accounts (chained.resolveAndNormalize 13) = some (8, 6) := by
  decide +kernel

end PassB

end GitEdge
