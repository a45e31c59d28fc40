import Mathlib.Algebra.Order.BigOperators.Group.List
import Mathlib.Data.UInt
import GitEdge.Lib.FoldM
import GitEdge.Repo.Commit

/-!
# The LFS batch

`lfs_batch_inner` of `repo_do/mod.rs`: for each object of an upload that is not stored yet, the
client gets a signed URL to upload it. Before the answer goes out, the bytes of the live packs, the
stored LFS bytes and the declared sizes are compared with the quota. The sizes are unsigned in the
request and signed in the sum: a size of `2^63` or more counts as negative, and a sum that is not
positive is not compared at all.

What the code adds up is first described without its loop: which objects are new is read off the
request and the answers of the bucket (`LfsWorld.fresh`), and whether a saturated sum is over a bound
off the list of sizes (`SumsOver`). On these the quota is kept exactly under `LfsWorld.Counts`.
-/

namespace GitEdge

open Sql

variable {sizes : List UInt64}

/-! ## Signed sums -/

/-- `i64::MAX`. -/
def maxI64 : ℤ := 2^63 - 1

/-- `x as i64` of a `u64`. -/
def asI64 (x : UInt64) : ℤ := if x.toNat < 2^63 then x.toNat else x.toNat - 2^64

/-- `i64::saturating_add`. -/
def satAdd (a b : ℤ) : ℤ := max (-2^63) (min maxI64 (a + b))

/-- The loop that adds up sizes. -/
def satSum (sizes : List UInt64) (start : ℤ) : ℤ :=
  sizes.foldl (fun total x => satAdd total (asI64 x)) start

/-- The sum of sizes. -/
def sizeSum (sizes : List UInt64) : ℤ := (sizes.map fun x => (x.toNat : ℤ)).sum

/-! ## The batch -/

/-- An object of a batch request. -/
structure LfsObj where
  oid : String
  size : UInt64
deriving DecidableEq, Repr

/-- A batch request. -/
structure LfsDto where
  operation : String
  objects : List LfsObj
deriving DecidableEq, Repr

/-- What the answer says of an object. -/
inductive LfsVerdict where
  /-- 422, `oid must be 64 hex chars`. -/
  | malformed
  /-- It is stored already. -/
  | stored
  | upload (href : String)
  | download (href : String)
  /-- 404, `object not found`. -/
  | missing
deriving DecidableEq, Repr

/-- One object of the answer. -/
structure LfsEntry where
  oid : String
  size : UInt64
  verdict : LfsVerdict
deriving DecidableEq, Repr

/-- What a batch is given besides the request and the database: the headers, the signing key, and
the answers of the bucket, which holds less than `2^63` bytes. The charges of the request budget are
numbered, and `late` tells which of them come after the time limit. -/
structure LfsWorld where
  base : Option String
  owner : Option String
  repo : Option String
  repo_id : String
  key : Option String
  /-- `lfs_sig`: key, repository, object, expiry and operation. -/
  sig : String → String → String → ℤ → String → Except Error String
  now : ℤ
  max_bytes : ℤ
  /-- Whether the bucket has the object of the numbered request. -/
  head : ℕ → Bool
  /-- The sizes of the stored objects, by page of the listing: the first page and the others. -/
  page : List UInt64
  pages : List (List UInt64)
  stored_lt : sizeSum (page :: pages).flatten < 2^63
  late : ℕ → Bool

/-- `ReqBudget::PAID_SUBREQUESTS`. -/
def paidSubrequests : ℕ := 9000

/-- `ReqBudget::charge`, for the numbered charge of a request. -/
def LfsWorld.charge (w : LfsWorld) (n : ℕ) : Except Error Unit :=
  if paidSubrequests < n + 1 || w.late n then .error .budget else .ok ()

/-- Whether a character is a hexadecimal digit. -/
def isHexDigit (c : Char) : Bool :=
  ('0' ≤ c && c ≤ '9') || ('a' ≤ c && c ≤ 'f') || ('A' ≤ c && c ≤ 'F')

/-- Whether an id is one of LFS: 64 hexadecimal digits. -/
def lfsOidOk (oid : String) : Bool := oid.utf8ByteSize = 64 && oid.toList.all isHexDigit

/-- The capability URL of an object. -/
def LfsWorld.href (w : LfsWorld) (base owner repo : String) (exp : ℤ) (oid sig : String) : String :=
  s!"{base}/{owner}/{repo}/_lfs/{oid}?e={exp}&r={w.repo_id}&s={sig}"

/-- What the answer says of an object with a proper id, from the number of the request for it. -/
def lfsVerdict (w : LfsWorld) (upload : Bool) (base owner repo key : String) (exp : ℤ) (n : ℕ)
    (oid : String) : Except Error LfsVerdict :=
  match upload, w.head n with
  | true, true => .ok .stored
  | true, false =>
    (w.sig key w.repo_id oid exp "put").map fun sig => .upload (w.href base owner repo exp oid sig)
  | false, true =>
    (w.sig key w.repo_id oid exp "get").map fun sig =>
      .download (w.href base owner repo exp oid sig)
  | false, false => .ok .missing

/-- The loop over the objects, from the number of the next charge: the entries of the answer, and
the number of charges. -/
def lfsLoop (w : LfsWorld) (upload : Bool) (base owner repo key : String) (exp : ℤ) :
    List LfsObj → ℕ → Except Error (List LfsEntry × ℕ)
  | [], n => .ok ([], n)
  | o :: os, n =>
    if !lfsOidOk o.oid then
      (lfsLoop w upload base owner repo key exp os n).map fun r =>
        (⟨o.oid, o.size, .malformed⟩ :: r.1, r.2)
    else do
      w.charge n
      let verdict ← lfsVerdict w upload base owner repo key exp n o.oid
      let r ← lfsLoop w upload base owner repo key exp os (n + 1)
      pure (⟨o.oid, o.size, verdict⟩ :: r.1, r.2)

/-- `lfs_bytes`, from the number of the next charge. -/
def lfsBytes (w : LfsWorld) : List (List UInt64) → ℤ → ℕ → Except Error ℤ
  | [], total, _ => .ok total
  | p :: ps, total, n => do
    w.charge n
    lfsBytes w ps (satSum p total) (n + 1)

/-- The object is to be uploaded. -/
def LfsEntry.uploads (e : LfsEntry) : Bool :=
  match e.verdict with
  | .upload _ => true
  | _ => false

/-- The declared sizes of the objects to upload. -/
def newSizes (es : List LfsEntry) : List UInt64 := (es.filter (·.uploads)).map (·.size)

/-- `storage_totals("")`: the bytes of the live packs, as no push has the empty id. -/
def Db.liveBytes (db : Db) : ℕ := ((db.packs.select fun p => p.state = .live).map (·.bytes)).sum

/-- The message of a batch over the quota. -/
def overLfsQuota (packs lfs new max : ℤ) : Error :=
  .limit s!"repo quota exceeded: packs {packs} + lfs {lfs} + upload {new} > GE_QUOTA_MAX_BYTES={max}"

/-- The comparison with the quota. -/
def lfsQuota (w : LfsWorld) (db : Db) (new : ℤ) (n : ℕ) : Except Error Unit := do
  let lfs ← lfsBytes w (w.page :: w.pages) 0 n
  if w.max_bytes < satAdd (satAdd db.liveBytes lfs) new then
    .error (overLfsQuota db.liveBytes lfs new w.max_bytes)
  else .ok ()

/-- The part of `lfs_batch_inner` before the quota: the objects of the answer, and the number of
charges. -/
def lfsEntries (w : LfsWorld) (d : LfsDto) : Except Error (List LfsEntry × ℕ) :=
  if d.operation ≠ "upload" ∧ d.operation ≠ "download" then
    .error (.protocol "lfs operation must be upload or download")
  else
    match w.base, w.owner, w.repo with
    | some base, some owner, some repo =>
      match w.key with
      | none => .error .forbidden
      | some key =>
        lfsLoop w (d.operation = "upload") base owner repo key (w.now / 1000 + 3600) d.objects 0
    | _, _, _ => .error (.internal "lfs batch missing base")

/-- `lfs_batch_inner`: the objects of the answer. The source adds the sizes up within the loop, in
the order of the entries. -/
def lfsBatch (w : LfsWorld) (db : Db) (d : LfsDto) : Except Error (List LfsEntry) := do
  let (es, n) ← lfsEntries w d
  let new := satSum (newSizes es) 0
  if d.operation = "upload" ∧ 0 < new then lfsQuota w db new n
  pure es

/-! ## The quota -/

/-- The stored LFS bytes. -/
def LfsWorld.storedBytes (w : LfsWorld) : ℤ := sizeSum (w.page :: w.pages).flatten

/-- What is stored and what is declared fits the quota. -/
def LfsFits (w : LfsWorld) (db : Db) (es : List LfsEntry) : Prop :=
  db.liveBytes + w.storedBytes + sizeSum (newSizes es) ≤ w.max_bytes

/-- An answer with an upload in it is one that fits the quota. -/
def LfsSound (w : LfsWorld) (db : Db) (d : LfsDto) : Prop :=
  ∀ es, lfsBatch w db d = .ok es → (∃ e ∈ es, e.uploads = true) → LfsFits w db es

/-! ## What a request declares -/

/-- The objects with a proper id: the bucket is asked for each of them, in this order. -/
def proper (objects : List LfsObj) : List LfsObj := objects.filter fun o => lfsOidOk o.oid

/-- Those of them that the bucket does not have when it is asked, by the number of the first
request. -/
def LfsWorld.fresh (w : LfsWorld) (objects : List LfsObj) (n : ℕ) : List LfsObj :=
  (((proper objects).zipIdx n).filter fun p => !w.head p.2).map (·.1)

/-- The sizes that a request declares for objects that are not stored. -/
def LfsWorld.declared (w : LfsWorld) (d : LfsDto) : List UInt64 :=
  (w.fresh d.objects 0).map (·.size)

/-- What is left of the quota. -/
def LfsWorld.left (w : LfsWorld) (db : Db) : ℤ := w.max_bytes - (db.liveBytes + w.storedBytes)

/-- The numbered charge is within the request budget and the time limit. -/
def LfsWorld.Paid (w : LfsWorld) (i : ℕ) : Prop := i < paidSubrequests ∧ w.late i = false

/-- Every object of an upload can be answered: the headers and the key are there, a URL can be
signed for each new object, and the requests to the bucket are paid for. -/
structure LfsWorld.Serves (w : LfsWorld) (d : LfsDto) : Prop where
  upload : d.operation = "upload"
  headers : w.base.isSome ∧ w.owner.isSome ∧ w.repo.isSome
  signed : ∃ key ∈ w.key, ∀ o ∈ w.fresh d.objects 0,
    (w.sig key w.repo_id o.oid (w.now / 1000 + 3600) "put").isOk
  paid : ∀ i < (proper d.objects).length, w.Paid i

/-- The sum of sizes as signed numbers. -/
def signedSum (sizes : List UInt64) : ℤ := (sizes.map asI64).sum

/-- The sizes add up to more than `t`, as far as signed numbers that stop at the least and at the
greatest one can tell: the sizes of a final part make up more than `t` over zero, if they are all of
them, and over the least number otherwise, and no shorter final part takes the greatest number down
to `t`. -/
def SumsOver (t : ℤ) (sizes : List UInt64) : Prop :=
  ∃ a b, sizes = a ++ b ∧ t < (if a = [] then 0 else -2^63) + signedSum b ∧
    ∀ c, c <:+ b → t < maxI64 + signedSum c

/-- The declared sizes tell when an upload does not fit. Either nothing is new, or what is stored
and what is new fit the quota, or the new sizes sum to more than nothing and, if the listing of the
bucket is paid for, the quota is no greatest number and they sum to more than what is left of it. -/
def LfsWorld.Counts (w : LfsWorld) (db : Db) (d : LfsDto) : Prop :=
  w.declared d = [] ∨ sizeSum (w.declared d) ≤ w.left db ∨ SumsOver 0 (w.declared d) ∧
    ((∀ i ≤ w.pages.length, w.Paid ((proper d.objects).length + i)) →
      w.max_bytes < maxI64 ∧ SumsOver (w.left db) (w.declared d))

section Quota

variable {w : LfsWorld} {db : Db} {d : LfsDto} {es : List LfsEntry} {n m : ℕ}

theorem map_eq_ok {α β : Type} {x : Except Error α} {f : α → β} {b : β} :
    x.map f = .ok b ↔ ∃ a, x = .ok a ∧ f a = b := by
  cases x <;> simp [Except.map]

/-- Only an upload has uploads in its answer. -/
theorem not_uploads_of_download {base owner repo key : String} {exp : ℤ} {objects : List LfsObj}
    (h : lfsLoop w false base owner repo key exp objects n = .ok (es, m)) :
    ∀ e ∈ es, e.uploads = false := by
  induction objects generalizing n es m with
  | nil =>
    cases h
    intro e he
    cases he
  | cons o os ih =>
    rw [lfsLoop] at h
    split_ifs at h with hoid
    · obtain ⟨r, hrest, h⟩ := map_eq_ok.mp h
      cases h
      intro e he
      rcases List.mem_cons.mp he with rfl | he
      · rfl
      · exact ih hrest e he
    · obtain ⟨-, -, h⟩ := FoldM.bind_eq_ok.mp h
      obtain ⟨verdict, hverdict, h⟩ := FoldM.bind_eq_ok.mp h
      obtain ⟨r, hrest, h⟩ := FoldM.bind_eq_ok.mp h
      cases h
      intro e he
      rcases List.mem_cons.mp he with rfl | he
      · cases hhead : w.head n with
        | true =>
          simp only [lfsVerdict, hhead] at hverdict
          obtain ⟨sig, -, rfl⟩ := map_eq_ok.mp hverdict
          rfl
        | false =>
          simp only [lfsVerdict, hhead] at hverdict
          cases hverdict
          rfl
      · exact ih hrest e he

/-- An answer with an upload in it answers an upload. -/
theorem upload_of_uploads (h : lfsEntries w d = .ok (es, n)) (hup : ∃ e ∈ es, e.uploads = true) :
    d.operation = "upload" := by
  by_contra hop
  obtain ⟨e, he, hup⟩ := hup
  unfold lfsEntries at h
  split_ifs at h
  split at h
  · split at h
    · cases h
    · rw [decide_eq_false hop] at h
      rw [not_uploads_of_download h e he] at hup
      cases hup
  · cases h

/-- A batch is answered when its sum is not positive, or is within the quota. -/
theorem lfsBatch_eq_ok : lfsBatch w db d = .ok es ↔ ∃ n, lfsEntries w d = .ok (es, n) ∧
    (d.operation = "upload" ∧ 0 < satSum (newSizes es) 0 →
      lfsQuota w db (satSum (newSizes es) 0) n = .ok ()) := by
  unfold lfsBatch
  rw [FoldM.bind_eq_ok]
  constructor
  · rintro ⟨⟨es', n⟩, hentries, h⟩
    dsimp only at h
    split_ifs at h with hcheck
    · obtain ⟨_, hquota, h⟩ := FoldM.bind_eq_ok.mp h
      cases h
      exact ⟨n, hentries, fun _ => hquota⟩
    · cases h
      exact ⟨n, hentries, fun h => absurd h hcheck⟩
  · rintro ⟨n, hentries, hquota⟩
    refine ⟨(es, n), hentries, ?_⟩
    dsimp only
    split_ifs with hcheck
    · exact FoldM.bind_eq_ok.mpr ⟨(), hquota hcheck, rfl⟩
    · rfl

/-! ## The loops, without their state -/

theorem charge_eq_ok : w.charge n = .ok () ↔ w.Paid n := by
  unfold LfsWorld.charge LfsWorld.Paid
  split_ifs with h
  · simp only [Bool.or_eq_true, decide_eq_true_eq] at h
    simp only [false_iff, not_and, Bool.not_eq_false]
    exact fun hlt => h.resolve_left (by omega)
  · simp only [Bool.or_eq_true, decide_eq_true_eq, not_or, Bool.not_eq_true] at h
    exact ⟨fun _ => ⟨by omega, h.2⟩, fun _ => rfl⟩

theorem isOk_iff {α : Type} {x : Except Error α} : x.isOk ↔ ∃ a, x = .ok a := by
  cases x <;> simp [Except.isOk, Except.toBool]

theorem proper_cons_of_pos {o : LfsObj} {os : List LfsObj} (h : lfsOidOk o.oid = true) :
    proper (o :: os) = o :: proper os :=
  List.filter_cons_of_pos (p := fun o : LfsObj => lfsOidOk o.oid) h

theorem proper_cons_of_neg {o : LfsObj} {os : List LfsObj} (h : ¬ lfsOidOk o.oid = true) :
    proper (o :: os) = proper os :=
  List.filter_cons_of_neg (p := fun o : LfsObj => lfsOidOk o.oid) h

theorem fresh_cons_of_neg {o : LfsObj} {os : List LfsObj} (h : ¬ lfsOidOk o.oid = true) :
    w.fresh (o :: os) n = w.fresh os n := by
  unfold LfsWorld.fresh
  rw [proper_cons_of_neg h]

theorem fresh_cons_of_pos {o : LfsObj} {os : List LfsObj} (h : lfsOidOk o.oid = true) :
    w.fresh (o :: os) n = (if w.head n then [] else [o]) ++ w.fresh os (n + 1) := by
  unfold LfsWorld.fresh
  rw [proper_cons_of_pos h, List.zipIdx_cons, List.filter_cons]
  cases w.head n <;> rfl

section Objects

variable {base owner repo key : String} {exp : ℤ} {objects : List LfsObj}

/-- The new objects of an answer were signed for, and the requests for all were paid for. -/
theorem lfsLoop_serves (h : lfsLoop w true base owner repo key exp objects n = .ok (es, m)) :
    (∀ o ∈ w.fresh objects n, (w.sig key w.repo_id o.oid exp "put").isOk) ∧
      ∀ i < (proper objects).length, w.Paid (n + i) := by
  induction objects generalizing n es m with
  | nil => exact ⟨fun o ho => absurd ho List.not_mem_nil, fun i hi => absurd hi (Nat.not_lt_zero i)⟩
  | cons o os ih =>
    rw [lfsLoop] at h
    by_cases hoid : lfsOidOk o.oid = true
    · rw [if_neg (by simpa using hoid)] at h
      obtain ⟨⟨⟩, hcharge, h⟩ := FoldM.bind_eq_ok.mp h
      obtain ⟨verdict, hverdict, h⟩ := FoldM.bind_eq_ok.mp h
      obtain ⟨r, hrest, -⟩ := FoldM.bind_eq_ok.mp h
      obtain ⟨hsigned, hpaid⟩ := ih hrest
      rw [fresh_cons_of_pos hoid, proper_cons_of_pos hoid]
      constructor
      · intro x hx
        rcases List.mem_append.mp hx with hx | hx
        · cases hhead : w.head n with
          | true => simp [hhead] at hx
          | false =>
            obtain rfl : x = o := by simpa [hhead] using hx
            simp only [lfsVerdict, hhead] at hverdict
            obtain ⟨sig, hsig, -⟩ := map_eq_ok.mp hverdict
            exact isOk_iff.mpr ⟨sig, hsig⟩
        · exact hsigned x hx
      · intro i hi
        cases i with
        | zero => exact charge_eq_ok.mp hcharge
        | succ i =>
          rw [← Nat.add_assoc, Nat.add_right_comm]
          exact hpaid i (by simpa using hi)
    · rw [if_pos (by simpa using hoid)] at h
      obtain ⟨r, hrest, -⟩ := map_eq_ok.mp h
      rw [fresh_cons_of_neg hoid, proper_cons_of_neg hoid]
      exact ih hrest

/-- An upload whose objects are signed for and paid for is answered, with a URL for each of the new
objects and no other. -/
theorem exists_lfsLoop (hsigned : ∀ o ∈ w.fresh objects n, (w.sig key w.repo_id o.oid exp "put").isOk)
    (hpaid : ∀ i < (proper objects).length, w.Paid (n + i)) :
    ∃ es, lfsLoop w true base owner repo key exp objects n = .ok (es, n + (proper objects).length) ∧
      newSizes es = (w.fresh objects n).map (·.size) := by
  induction objects generalizing n with
  | nil => exact ⟨[], rfl, rfl⟩
  | cons o os ih =>
    by_cases hoid : lfsOidOk o.oid = true
    · rw [fresh_cons_of_pos hoid] at hsigned ⊢
      rw [proper_cons_of_pos hoid] at hpaid ⊢
      have hcharge : w.charge n = .ok () := charge_eq_ok.mpr (hpaid 0 (Nat.succ_pos _))
      have hpaid' : ∀ i < (proper os).length, w.Paid (n + 1 + i) := by
        intro i hi
        rw [Nat.add_right_comm, Nat.add_assoc]
        exact hpaid (i + 1) (Nat.succ_lt_succ hi)
      obtain ⟨es, hloop, hsizes⟩ := ih (fun x hx => hsigned x (List.mem_append_right _ hx)) hpaid'
      -- A stored object needs no action, and a new one gets its URL.
      obtain ⟨verdict, hverdict, hnew⟩ :
          ∃ v, lfsVerdict w true base owner repo key exp n o.oid = .ok v ∧
            newSizes [⟨o.oid, o.size, v⟩] = (if w.head n then [] else [o]).map (·.size) := by
        cases hhead : w.head n with
        | true => exact ⟨.stored, by simp only [lfsVerdict, hhead], rfl⟩
        | false =>
          have ho := hsigned o (List.mem_append_left _ (by simp [hhead]))
          obtain ⟨sig, hsig⟩ := isOk_iff.mp ho
          exact ⟨.upload (w.href base owner repo exp o.oid sig),
            by simp only [lfsVerdict, hhead, hsig]; rfl, rfl⟩
      refine ⟨⟨o.oid, o.size, verdict⟩ :: es, ?_, ?_⟩
      · rw [lfsLoop, if_neg (by simpa using hoid), hcharge, hverdict]
        simp only [bind, Except.bind, hloop]
        rw [List.length_cons, ← Nat.add_assoc, Nat.add_right_comm]
        rfl
      · rw [List.map_append, ← hsizes, ← hnew]
        unfold newSizes
        rw [← List.map_append, ← List.filter_append]
        rfl
    · rw [fresh_cons_of_neg hoid] at hsigned ⊢
      rw [proper_cons_of_neg hoid] at hpaid ⊢
      obtain ⟨es, hloop, hsizes⟩ := ih hsigned hpaid
      refine ⟨⟨o.oid, o.size, .malformed⟩ :: es, ?_, hsizes⟩
      rw [lfsLoop, if_pos (by simpa using hoid), hloop]
      rfl

end Objects

/-- An upload that is answered can be served. -/
theorem serves_of_lfsEntries (h : lfsEntries w d = .ok (es, n)) (hop : d.operation = "upload") :
    w.Serves d := by
  unfold lfsEntries at h
  rw [if_neg (by simp [hop])] at h
  split at h
  next base owner repo hbase howner hrepo =>
    split at h
    · cases h
    next key hkey =>
      rw [decide_eq_true hop] at h
      obtain ⟨hsigned, hpaid⟩ := lfsLoop_serves h
      refine ⟨hop, by simp [hbase, howner, hrepo], ⟨key, hkey, hsigned⟩, fun i hi => ?_⟩
      rw [← Nat.zero_add i]
      exact hpaid i hi
  · cases h

/-- An upload that can be served is answered, with a URL for each of the new objects. -/
theorem LfsWorld.Serves.exists_lfsEntries (h : w.Serves d) :
    ∃ es, lfsEntries w d = .ok (es, (proper d.objects).length) ∧
      newSizes es = w.declared d := by
  obtain ⟨hop, ⟨hbase, howner, hrepo⟩, ⟨key, hkey, hsigned⟩, hpaid⟩ := h
  obtain ⟨base, hbase⟩ := Option.isSome_iff_exists.mp hbase
  obtain ⟨owner, howner⟩ := Option.isSome_iff_exists.mp howner
  obtain ⟨repo, hrepo⟩ := Option.isSome_iff_exists.mp hrepo
  have hloop : ∃ es, lfsLoop w true base owner repo key (w.now / 1000 + 3600) d.objects 0 =
      .ok (es, 0 + (proper d.objects).length) ∧ newSizes es = w.declared d :=
    exists_lfsLoop hsigned fun i hi => by
      rw [Nat.zero_add]
      exact hpaid i hi
  obtain ⟨es, hloop, hsizes⟩ := hloop
  refine ⟨es, ?_, hsizes⟩
  unfold lfsEntries
  rw [if_neg (by simp [hop])]
  simp only [hbase, howner, hrepo, Option.mem_def.mp hkey, decide_eq_true hop, hloop]
  rw [Nat.zero_add]

/-- The listing of the bucket is added up exactly if its pages are paid for. -/
theorem lfsBytes_eq_ok {pages : List (List UInt64)} {total lfs : ℤ} :
    lfsBytes w pages total n = .ok lfs ↔
      (∀ i < pages.length, w.Paid (n + i)) ∧ lfs = satSum pages.flatten total := by
  induction pages generalizing total n with
  | nil =>
    simp only [lfsBytes, List.length_nil, Nat.not_lt_zero, false_implies, implies_true, true_and,
      Except.ok.injEq]
    exact eq_comm
  | cons p ps ih =>
    have hsum : satSum (p :: ps).flatten total = satSum ps.flatten (satSum p total) := by
      unfold satSum
      rw [List.flatten_cons, List.foldl_append]
    rw [lfsBytes, FoldM.bind_eq_ok, hsum]
    constructor
    · rintro ⟨⟨⟩, hcharge, h⟩
      obtain ⟨hpaid, hlfs⟩ := ih.mp h
      refine ⟨fun i hi => ?_, hlfs⟩
      cases i with
      | zero => exact charge_eq_ok.mp hcharge
      | succ i =>
        rw [← Nat.add_assoc, Nat.add_right_comm]
        exact hpaid i (Nat.lt_of_succ_lt_succ hi)
    · rintro ⟨hpaid, hlfs⟩
      refine ⟨(), charge_eq_ok.mpr (hpaid 0 (Nat.succ_pos _)), ih.mpr ⟨fun i hi => ?_, hlfs⟩⟩
      rw [Nat.add_right_comm, Nat.add_assoc]
      exact hpaid (i + 1) (Nat.succ_lt_succ hi)

/-! ## Saturated sums -/

/-- Sizes whose sum is a signed number add up to it. -/
theorem satSum_eq {start : ℤ} (hlo : 0 ≤ start) (hhi : start + sizeSum sizes < 2^63) :
    satSum sizes start = start + sizeSum sizes := by
  induction sizes generalizing start with
  | nil => simp [satSum, sizeSum]
  | cons x xs ih =>
    have hrest : 0 ≤ sizeSum xs := by
      refine List.sum_nonneg fun y hy => ?_
      obtain ⟨z, -, rfl⟩ := List.mem_map.mp hy
      omega
    have hsum : sizeSum (x :: xs) = x.toNat + sizeSum xs := by simp [sizeSum]
    have hstep : satAdd start (asI64 x) = start + x.toNat := by
      unfold satAdd asI64 maxI64
      rw [if_pos (by omega)]
      omega
    calc satSum (x :: xs) start = satSum xs (satAdd start (asI64 x)) := rfl
      _ = start + x.toNat + sizeSum xs := by rw [hstep, ih (by omega) (by omega)]
      _ = start + sizeSum (x :: xs) := by rw [hsum, Int.add_assoc]

/-- Whether a saturated sum is over a bound is told by the list of sizes. The induction takes the
sizes from the end: the last of them moves the bound for those before it. -/
theorem lt_satSum_iff {t : ℤ} : t < satSum sizes 0 ↔ SumsOver t sizes := by
  induction sizes using List.reverseRecOn generalizing t with
  | nil =>
    constructor
    · intro h
      refine ⟨[], [], rfl, by simpa [signedSum, satSum] using h, fun c hc => ?_⟩
      rw [List.suffix_nil.mp hc]
      have : t < 0 := h
      simp only [signedSum, List.map_nil, List.sum_nil, maxI64]
      omega
    · rintro ⟨a, b, hab, h, -⟩
      obtain ⟨rfl, rfl⟩ := List.append_eq_nil_iff.mp hab.symm
      simpa [signedSum, satSum] using h
  | append_singleton xs x ih =>
    have hadd : ∀ b, signedSum (b ++ [x]) = signedSum b + asI64 x := fun b => by
      simp [signedSum]
    have hlast : satSum (xs ++ [x]) 0 = satAdd (satSum xs 0) (asI64 x) := by
      simp [satSum, List.foldl_append]
    have hstep : t < satSum (xs ++ [x]) 0 ↔ t < -2^63 ∨ t < maxI64 ∧ t - asI64 x < satSum xs 0 := by
      rw [hlast]
      unfold satAdd maxI64
      omega
    rw [hstep, ih]
    constructor
    · rintro (hfloor | ⟨hroof, a, b, rfl, hsum, hpart⟩)
      · refine ⟨xs ++ [x], [], (List.append_nil _).symm, by simpa [signedSum] using hfloor, ?_⟩
        intro c hc
        rw [List.suffix_nil.mp hc]
        simp only [signedSum, List.map_nil, List.sum_nil, maxI64]
        omega
      · refine ⟨a, b ++ [x], List.append_assoc .., by rw [hadd]; omega, fun c hc => ?_⟩
        rcases List.suffix_concat_iff.mp hc with rfl | ⟨c, rfl, hc'⟩
        · simpa [signedSum] using hroof
        · have := hpart c hc'
          rw [hadd]
          omega
    · rintro ⟨a, b, hab, hsum, hpart⟩
      have hroof : t < maxI64 := by simpa [signedSum] using hpart [] (List.nil_suffix)
      rcases List.eq_nil_or_concat b with rfl | ⟨b, y, rfl⟩
      · rw [List.append_nil] at hab
        rw [← hab, if_neg (by simp)] at hsum
        exact .inl (by simpa [signedSum] using hsum)
      · rw [List.concat_eq_append] at hab hsum hpart
        rw [← List.append_assoc] at hab
        obtain ⟨rfl, hy⟩ := List.append_inj' hab rfl
        obtain rfl : x = y := by simpa using hy
        rw [hadd] at hsum
        refine .inr ⟨hroof, a, b, rfl, by omega, fun c hc => ?_⟩
        obtain ⟨d, rfl⟩ := hc
        have := hpart (c ++ [x]) ⟨d, by simp⟩
        rw [hadd] at this
        omega

/-- Sizes whose sum is a signed number sum over a bound exactly if their sum is. -/
theorem sumsOver_iff {t : ℤ} (h : sizeSum sizes < 2^63) : SumsOver t sizes ↔ t < sizeSum sizes := by
  rw [← lt_satSum_iff, satSum_eq (Int.le_refl 0) (by omega), zero_add]

/-! ## The quota is kept -/

/-- The comparison lets a sum of new sizes through exactly if the quota is the greatest number, or
what is left of it is as much. -/
theorem lfsQuota_eq_ok {new : ℤ} (hnew : 0 < new) : lfsQuota w db new n = .ok () ↔
    (∀ i ≤ w.pages.length, w.Paid (n + i)) ∧
      ¬ (w.max_bytes < maxI64 ∧ w.left db < new) := by
  have hstored : 0 ≤ w.storedBytes := by
    refine List.sum_nonneg fun y hy => ?_
    obtain ⟨z, -, rfl⟩ := List.mem_map.mp hy
    omega
  have hlt := w.stored_lt
  have hbytes : satSum (w.page :: w.pages).flatten 0 = w.storedBytes := by
    rw [satSum_eq (Int.le_refl 0) (by omega), zero_add]
    rfl
  have hover : w.max_bytes < satAdd (satAdd db.liveBytes w.storedBytes) new ↔
      w.max_bytes < maxI64 ∧ w.left db < new := by
    unfold satAdd maxI64 LfsWorld.left
    omega
  unfold lfsQuota
  rw [FoldM.bind_eq_ok, ← hover]
  simp only [lfsBytes_eq_ok, hbytes, List.length_cons, Nat.lt_succ_iff]
  constructor
  · rintro ⟨lfs, ⟨hpaid, rfl⟩, h⟩
    exact ⟨hpaid, fun hov => by rw [if_pos hov] at h; cases h⟩
  · rintro ⟨hpaid, hle⟩
    exact ⟨_, ⟨hpaid, rfl⟩, if_neg hle⟩

theorem uploads_iff_newSizes : (∃ e ∈ es, e.uploads = true) ↔ newSizes es ≠ [] := by
  unfold newSizes
  rw [Ne, List.map_eq_nil_iff, List.filter_eq_nil_iff]
  push Not
  rfl

/-- A batch keeps to the quota exactly if it cannot be served, or its declared sizes tell when it
does not fit. -/
theorem lfs_quota_iff (w : LfsWorld) (db : Db) (d : LfsDto) :
    LfsSound w db d ↔ (w.Serves d → w.Counts db d) := by
  constructor
  · intro hsound hserves
    obtain ⟨es, hentries, hsizes⟩ := hserves.exists_lfsEntries
    unfold LfsWorld.Counts
    rw [← hsizes, ← lt_satSum_iff, ← lt_satSum_iff]
    by_cases hnew : newSizes es = []
    · exact .inl hnew
    by_cases hfits : LfsFits w db es
    · exact .inr (.inl (by unfold LfsFits at hfits; unfold LfsWorld.left; omega))
    -- An answer that went out would fit.
    have hrefused : lfsBatch w db d ≠ .ok es := fun hok =>
      hfits (hsound es hok (uploads_iff_newSizes.mpr hnew))
    have hpos : 0 < satSum (newSizes es) 0 := by
      by_contra hpos
      exact hrefused (lfsBatch_eq_ok.mpr ⟨_, hentries, fun h => absurd h.2 hpos⟩)
    refine .inr (.inr ⟨hpos, fun hpaid => ?_⟩)
    by_contra hle
    have hquota := (lfsQuota_eq_ok hpos).mpr ⟨hpaid, hle⟩
    exact hrefused (lfsBatch_eq_ok.mpr ⟨_, hentries, fun _ => hquota⟩)
  · intro hcounts es hok hup
    obtain ⟨n, hentries, hquota⟩ := lfsBatch_eq_ok.mp hok
    have hop := upload_of_uploads hentries hup
    have hserves := serves_of_lfsEntries hentries hop
    obtain ⟨es', hentries', hsizes⟩ := hserves.exists_lfsEntries
    rw [hentries] at hentries'
    obtain ⟨rfl, rfl⟩ : es = es' ∧ n = (proper d.objects).length := by simpa using hentries'
    have hcount := hcounts hserves
    unfold LfsWorld.Counts at hcount
    rw [← hsizes, ← lt_satSum_iff, ← lt_satSum_iff] at hcount
    rcases hcount with hnone | hfits | ⟨hpos, hover⟩
    · exact absurd hnone (uploads_iff_newSizes.mp hup)
    · unfold LfsWorld.left at hfits
      unfold LfsFits
      omega
    · obtain ⟨hpaid, hle⟩ := (lfsQuota_eq_ok hpos).mp (hquota ⟨hop, hpos⟩)
      exact absurd (hover hpaid) hle

end Quota

/-! ## A size that counts as negative -/

/-- An empty repository with the default quota. -/
def freshLfs : LfsWorld where
  base := some "https://git.example"
  owner := some "o"
  repo := some "r"
  repo_id := "id"
  key := some "key"
  sig := fun _ _ _ _ _ => .ok "sig"
  now := 0
  max_bytes := (Env.default fun _ => true).quota_max_bytes
  head := fun _ => false
  page := []
  pages := []
  stored_lt := by decide
  late := fun _ => false

/-- A request to upload one object of `2^63` bytes. -/
def hugeUpload : LfsDto where
  operation := "upload"
  objects := [⟨String.ofList (List.replicate 64 'a'), 2^63⟩]

/-- The answer to it. -/
def hugeEntry : LfsEntry where
  oid := String.ofList (List.replicate 64 'a')
  size := 2^63
  verdict := .upload (freshLfs.href "https://git.example" "o" "r" (0 / 1000 + 3600)
    (String.ofList (List.replicate 64 'a')) "sig")

/-- The request gets its URL, though it is over the quota by far. -/
theorem hugeUpload_unsound : ¬ LfsSound freshLfs Db.fresh hugeUpload := by
  intro hsound
  have hoid : lfsOidOk (String.ofList (List.replicate 64 'a')) = true := by decide +kernel
  have hentries : lfsEntries freshLfs hugeUpload = .ok ([hugeEntry], 1) := by
    simp only [lfsEntries, hugeUpload, freshLfs, lfsLoop, hoid, lfsVerdict, LfsWorld.charge]
    rfl
  -- The size counts as negative, so nothing is compared.
  have hsum : satSum [2^63] 0 = -2^63 := by decide +kernel
  have hok : lfsBatch freshLfs Db.fresh hugeUpload = .ok [hugeEntry] := by
    refine lfsBatch_eq_ok.mpr ⟨1, hentries, fun hcheck => ?_⟩
    have hpos : 0 < satSum [2^63] 0 := hcheck.2
    rw [hsum] at hpos
    omega
  have hfits := hsound _ hok ⟨_, List.mem_singleton.mpr rfl, rfl⟩
  revert hfits
  unfold LfsFits
  decide +kernel

end GitEdge
