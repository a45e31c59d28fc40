import GitEdge.Lib.Fallible
import GitEdge.Lib.Waiters
import GitEdge.Pack.Parse

/-!
# Pass B over a pushed pack

`resolve_and_normalize` of `pack/ingest.rs` turns the entries of a pending pack into full entries of
a new pack. It hands the entries to `one_entry` in the order of the table; an entry whose base is a
later entry waits for the base's id, and an entry that is finished wakes those that wait for its id.
Objects that were resolved are kept in a cache which drops some of them, and a base that was dropped
is resolved again by `resolve_at`, which walks the chain of bases back and applies the deltas
forward.

The libraries are the record `ObjLib`. What is awaited is the record `PassBEnv`, whose answers may
differ from one moment to the next and may be errors; the requests' budget is part of it. The nested
calls of `resolve_at` count down `hops`, which is `MAX_DEPTH` less `res_depth`.
-/

namespace GitEdge

open Fallible

/-- An object: its kind and its bytes. -/
abbrev Obj := Kind × List UInt8

/-! ## Entry tables -/

/-- The bytes of an entry. -/
def EntryRec.raw (pack : List UInt8) (rc : EntryRec) : List UInt8 :=
  (pack.drop rc.offset).take (rc.header_len + rc.compressed_len)

/-- The zlib stream of an entry. -/
def EntryRec.body (pack : List UInt8) (rc : EntryRec) : List UInt8 :=
  (rc.raw pack).drop rc.header_len

/-! ## The cache -/

/-- The key of a cached object: the offset of its entry, or its id. -/
inductive CacheKey where
  | off (offset : ℕ)
  | id (oid : Oid)
deriving DecidableEq, Repr

/-- A cache that may drop anything at any time it is written to, but never makes anything up. -/
structure Lossy (κ α : Type) where
  Carrier : Type
  empty : Carrier
  get : Carrier → κ → Option α
  put : Carrier → κ → α → Carrier
  get_empty : ∀ k, get empty k = none
  get_put : ∀ c k a k' a', get (put c k a) k' = some a' → k' = k ∧ a' = a ∨ get c k' = some a'

/-- `CACHE`. -/
def cacheBytes : ℕ := 48 * 2^20

/-- `Cache`. -/
structure Cache where
  bytes : ℕ
  map : CacheKey → Option Obj
  order : List CacheKey

namespace Cache

/-- The loop of `put` that drops the oldest keys. A key that was dropped before ends it. -/
def evict (cap : ℕ) : ℕ → (CacheKey → Option Obj) → List CacheKey → Cache
  | bytes, map, [] => ⟨bytes, map, []⟩
  | bytes, map, k :: order =>
    if cap < bytes then
      match map k with
      | some o => evict cap (bytes - o.2.length) (Function.update map k none) order
      | none => ⟨bytes, map, order⟩
    else ⟨bytes, map, k :: order⟩

/-- `Cache::put`. -/
def put (cap : ℕ) (c : Cache) (k : CacheKey) (o : Obj) : Cache :=
  evict cap (c.bytes + o.2.length) (Function.update c.map k (some o)) (c.order ++ [k])

theorem evict_map (cap bytes : ℕ) (map : CacheKey → Option Obj) (order : List CacheKey)
    {k : CacheKey} {o : Obj} (h : (evict cap bytes map order).map k = some o) : map k = some o := by
  induction order generalizing bytes map with
  | nil => exact h
  | cons k' order ih =>
    unfold evict at h
    split at h
    · split at h
      · have hk := ih _ _ h
        by_cases hkk : k = k'
        · subst hkk
          rw [Function.update_self] at hk
          cases hk
        · rwa [Function.update_of_ne hkk] at hk
      · exact h
    · exact h

/-- The cache of pass B, with any capacity. -/
def lossy (cap : ℕ) : Lossy CacheKey Obj where
  Carrier := Cache
  empty := ⟨0, fun _ => none, []⟩
  get c k := c.map k
  put := put cap
  get_empty _ := rfl
  get_put c k a k' a' h := by
    have hk := evict_map _ _ _ _ h
    by_cases hkk : k' = k
    · subst hkk
      rw [Function.update_self] at hk
      exact .inl ⟨rfl, (Option.some.inj hk).symm⟩
    · rw [Function.update_of_ne hkk] at hk
      exact .inr hk

end Cache

/-! ## What is called and awaited -/

/-- What one call of a `Decompress` does whose output is read. -/
structure Unzipped (σ : Type) where
  state : σ
  used : ℕ
  made : List UInt8
  ended : Bool

/-- The libraries that pass B calls beside those of pass A. -/
structure ObjLib where
  /-- `Header::verified_base_pack_offset`. -/
  baseOffset : ℕ → ℕ → Option ℕ
  /-- `decode_entry` of a pack with one full entry of this size and these compressed bytes. -/
  inflate : ℕ → List UInt8 → Except String (List UInt8)
  /-- `decode_entry` of a delta of this size and these compressed bytes, in a pack with its base. -/
  patch : Obj → ℕ → List UInt8 → Except String (List UInt8)
  /-- The state of the `Decompress` of `stream_blob`. -/
  Unzip : Type
  fresh : Unzip
  /-- A call with a sink of 1 MiB. -/
  feed : Unzip → List UInt8 → Except String (Unzipped Unzip)
  /-- `compute_hash`; it fails on a collision. -/
  hash : ObjFormat → Obj → Option Oid
  /-- `extract_links`. -/
  extractLinks : ObjFormat → Obj → Except Error (List Oid)
  /-- `codec::encode_entry`. -/
  encode : Obj → Except Error (List UInt8)
  /-- `codec::decode_entry`. -/
  decode : List UInt8 → Except Error Obj

/-- `ObjLoc`, as far as pass B reads it. -/
structure ObjLoc where
  pack : PackId
  offset : ℕ
  len : ℕ
  size : ℕ
deriving DecidableEq, Repr

/-- `ObjRow` as `/_do/push/index` takes it. -/
structure IndexRow where
  sha : Oid
  idx : ℕ
  offset : ℕ
  len : ℕ
  kind : Kind
  size : ℕ
  parents : Option (List Oid)
deriving DecidableEq, Repr

/-- What pass B awaits. The first argument counts what was awaited before. -/
structure PassBEnv where
  /-- `read_range` of the pending pack. -/
  read : ℕ → ℕ → ℕ → Except Error (List UInt8)
  /-- `read_entries` of stored objects. -/
  stored : ℕ → List (Oid × ObjLoc) → Except Error (List (Oid × List UInt8))
  /-- The uploads of `flush_if_full`. -/
  flush : ℕ → Except Error Unit
  /-- `/_do/push/index`. -/
  post : ℕ → List IndexRow → Except Error Unit

/-- How pass B fails. -/
inductive Fault where
  | missingBase (id : Oid)
  | failed (e : Error)
deriving DecidableEq, Repr

/-- `unpack`. -/
def unpackFault (m : String) : Fault := .failed (.unpack m)

/-- `Window`: the bytes of the pending pack from `start` on. -/
structure Window where
  start : ℕ
  buf : List UInt8
deriving DecidableEq, Repr

/-- `Cx`, the writer, the sink and the rows. -/
structure Cx (store : Lossy CacheKey Obj) where
  win : Window
  cache : store.Carrier
  by_id : Oid → Option ℕ
  chain_live : ℕ
  /-- How often something was awaited. -/
  clock : ℕ
  /-- What was appended to the writer after the header of the new pack. -/
  out : List UInt8
  links : List Oid
  tags : List (Oid × Oid)
  rows : List IndexRow
  /-- The rows that were posted. -/
  posted : List IndexRow

/-- `MAX_DEPTH`. -/
def maxDepth : ℕ := 64

/-- `MAX_CHAIN_BYTES`. -/
def maxChainBytes : ℕ := 64 * 2^20

/-- `MAX_CHAIN_LIVE`. -/
def maxChainLive : ℕ := 128 * 2^20

/-- `WINDOW`. -/
def windowBytes : ℕ := 8 * 2^20

/-- `MAX_LINKS`. -/
def maxLinks : ℕ := 1000000

/-- The offset of the first entry of a pack. -/
def headerBytes : ℕ := 12

/-- `Base`. -/
inductive Base where
  | ready (o : Obj)
  | await (id : Oid)
deriving DecidableEq, Repr

/-- What pass B is run on: the pending pack with its entry table, and the bases that it may name. -/
structure PassB where
  lib : PackLib
  objLib : ObjLib
  env : PassBEnv
  store : Lossy CacheKey Obj
  fmt : ObjFormat
  pack : List UInt8
  recs : List EntryRec
  /-- The entries of a pack follow one another, so a search by offset finds the only one. -/
  sorted : recs.Pairwise fun rc rc' => rc.offset < rc'.offset
  /-- The table says what the header of an entry says. -/
  header : ∀ rc ∈ recs, ∀ e, lib.fromBytes fmt (rc.raw pack) = .ok e →
    e.header = rc.kind_or_delta ∧ e.header_size = rc.header_len
  /-- The thin pack's bases, in the order in which the map gives them. -/
  externals : List (Oid × ObjLoc)

namespace PassB

variable (p : PassB)

/-- The programs of pass B. -/
abbrev M (α : Type) := StateT (Cx p.store) (Except Fault) α

/-- Awaits an answer. -/
def ask {α : Type} (f : ℕ → Except Error α) : p.M α := do
  let cx ← get
  set { cx with clock := cx.clock + 1 }
  ofExcept Fault.failed (f cx.clock)

/-- Where the pending pack ends. -/
def packLen : ℕ :=
  match p.recs.getLast? with
  | none => headerBytes + p.fmt.width
  | some rc => rc.offset + rc.header_len + rc.compressed_len + p.fmt.width

/-- The slide of `Window::entry`: the window that holds the entry, or one read from its offset
on. -/
def slide (rc : EntryRec) : p.M Window := do
  let len := rc.header_len + rc.compressed_len
  let cx ← get
  if cx.win.start ≤ rc.offset ∧ rc.offset - cx.win.start + len ≤ cx.win.buf.length then pure cx.win
  else do
    let buf ← p.ask fun t =>
      p.env.read t rc.offset (min (max len windowBytes) (p.packLen - rc.offset))
    modify fun cx => { cx with win := ⟨rc.offset, buf⟩ }
    pure ⟨rc.offset, buf⟩

/-- `Window::entry`: the bytes of an entry. -/
def windowEntry (rc : EntryRec) : p.M (List UInt8) := do
  let len := rc.header_len + rc.compressed_len
  if maxEntryWire + 64 < len then throw (unpackFault "entry window too large")
  let win ← p.slide rc
  let lo := rc.offset - win.start
  if win.buf.length < lo + len then throw (.failed (.storage "entry outside window"))
  pure ((win.buf.drop lo).take len)

/-- `Toc::by_off` of a table in memory: a binary search by offset. -/
def byOff (off : ℕ) : Option EntryRec := p.recs.find? fun rc => rc.offset = off

/-- `Externals::get`. -/
def externalLoc (id : Oid) : Option ObjLoc := (p.externals.find? fun e => e.1 = id).map (·.2)

/-- `decode_mini`: the object of a full entry, or of a delta over a base. -/
def decodeMini (base : Option Obj) (raw : List UInt8) : p.M Obj := do
  let e ← ofExcept unpackFault (p.lib.fromBytes p.fmt raw)
  if raw.length < e.header_size then throw (unpackFault "short entry")
  let body := raw.drop e.header_size
  match e.header, base with
  | .full k, _ => do
    let d ← ofExcept (fun m => unpackFault ("delta: " ++ m))
      (p.objLib.inflate e.decompressed_size body)
    pure (k, d)
  | _, some b => do
    let d ← ofExcept (fun m => unpackFault ("delta: " ++ m))
      (p.objLib.patch b e.decompressed_size body)
    pure (b.1, d)
  | _, none => throw (unpackFault "delta without base")

/-- `Cache::get`. -/
def cached (k : CacheKey) : p.M (Option Obj) := do
  let cx ← get
  pure (p.store.get cx.cache k)

/-- `Cache::put`, which gives the object back. -/
def cachePut (k : CacheKey) (o : Obj) : p.M Obj := do
  modify fun cx => { cx with cache := p.store.put cx.cache k o }
  pure o

/-! ## Bases -/

/-- `external`: the object of a stored base. -/
def external (id : Oid) : p.M Obj := do
  match ← p.cached (.id id) with
  | some hit => pure hit
  | none =>
    match p.externalLoc id with
    | none => throw (.missingBase id)
    | some loc => do
      if maxObj < loc.size then
        throw (unpackFault
          s!"delta base {id} exceeds 16 MiB; push the object as a full blob (e.g. git -c core.bigFileThreshold=1 push)")
      let es ← p.ask fun t => p.env.stored t [(id, loc)]
      match es.getLast? with
      | none => throw (.failed (.storage "base read"))
      | some e => do
        let o ← ofExcept Fault.failed (p.objLib.decode e.2)
        p.cachePut (.id id) o

/-- How a walk along the bases ended: with an object and the deltas to apply to it, the last one
first; or at a base that is not resolved. -/
inductive Walk where
  | found (o : Obj) (chain : List (ℕ × List UInt8)) (bytes : ℕ)
  | blocked (id : Oid) (bytes : ℕ)

/-- The loop of `resolve_at`, with how many more deltas the chain may hold. -/
def walk (base : Oid → p.M Base) : ℕ → ℕ → List (ℕ × List UInt8) → ℕ → p.M Walk
  | links, off, chain, bytes => do
    match ← p.cached (.off off) with
    | some hit => pure (.found hit chain bytes)
    | none =>
      match links with
      | 0 => throw (unpackFault "delta chain too deep")
      | links + 1 =>
        match p.byOff off with
        | none => throw (unpackFault "delta base is not an entry")
        | some rc => do
          let raw ← p.windowEntry rc
          let bytes := bytes + raw.length
          modify fun cx => { cx with chain_live := cx.chain_live + raw.length }
          let cx ← get
          if maxChainBytes < bytes ∨ maxChainLive < cx.chain_live then
            throw (unpackFault "delta chain too large")
          match rc.kind_or_delta with
          | .ofsDelta distance =>
            match p.objLib.baseOffset off distance with
            | none => throw (unpackFault "bad ofs-delta")
            | some off' => walk base links off' ((off, raw) :: chain) bytes
          | .refDelta id => do
            match ← base id with
            | .await id' => pure (.blocked id' bytes)
            | .ready o => pure (.found o ((off, raw) :: chain) bytes)
          | .full _ => do
            if maxObj < rc.size then
              throw (unpackFault "delta base exceeds 16 MiB and cannot be resolved")
            let o ← p.decodeMini none raw
            let o ← p.cachePut (.off off) o
            pure (.found o chain bytes)

/-- The end of `resolve_at`: the deltas are applied forward, and each result is cached. -/
def unwind : List (ℕ × List UInt8) → Obj → p.M Obj
  | [], o => pure o
  | (off, raw) :: chain, o => do
    let r ← p.decodeMini (some o) raw
    let o' ← p.cachePut (.off off) (o.1, r.2)
    unwind chain o'

/-- `resolve_at`, over the nested call of `base_by_id`. -/
def resolveAt (base : Oid → p.M Base) (start : ℕ) : p.M Base := do
  match ← p.walk base maxDepth start [] 0 with
  | .blocked id bytes => do
    modify fun cx => { cx with chain_live := cx.chain_live - bytes }
    pure (.await id)
  | .found o chain bytes => do
    let o ← p.unwind chain o
    modify fun cx => { cx with chain_live := cx.chain_live - bytes }
    pure (.ready o)

/-- `base_by_id`, over the nested call of `resolve_at`; there is none at the last level. -/
def baseVia (nested : Option (ℕ → p.M Base)) (id : Oid) : p.M Base := do
  match ← p.cached (.id id) with
  | some hit => pure (.ready hit)
  | none => do
    let cx ← get
    match cx.by_id id with
    | some j =>
      match nested with
      | none => throw (unpackFault "delta chain too deep")
      | some resolve =>
        match p.recs[j]? with
        | none => throw (.failed (.internal "by_id idx"))
        | some rc => resolve rc.offset
    | none =>
      if (p.externalLoc id).isSome then do
        let o ← p.external id
        pure (.ready o)
      else pure (.await id)

/-- `base_by_id`, with how many more nested calls of `resolve_at` there may be. -/
def baseById : ℕ → Oid → p.M Base
  | 0 => p.baseVia none
  | hops + 1 => p.baseVia (some (p.resolveAt (baseById hops)))

/-! ## One entry -/

/-- `push_links` of the edge's sink. -/
def pushLinks (links : List Oid) : p.M Unit := do
  modify fun cx => { cx with links := cx.links ++ links }
  let cx ← get
  if maxLinks < cx.links.length then
    throw (.failed (.limit "push references too many objects (1,000,000 max)"))

/-- The target of a tag is noted. -/
def noteTag (id : Oid) (o : Obj) (links : List Oid) : p.M Unit :=
  match o.1, links.head? with
  | .tag, some t => modify fun cx => { cx with tags := cx.tags ++ [(id, t)] }
  | _, _ => pure ()

/-- `raw_extend`. -/
def rawExtend (bytes : List UInt8) : p.M Unit :=
  modify fun cx => { cx with out := cx.out ++ bytes }

/-- `offset` of the writer. -/
def outOffset : p.M ℕ := do
  let cx ← get
  pure (headerBytes + cx.out.length)

/-- The length of an entry that began at `start`, as in `append_entry` and `raw_entry_done`. -/
def entryLen (start : ℕ) : p.M ℕ := do
  let stop ← p.outOffset
  if 2^32 ≤ stop - start then throw (.failed (.limit "entry too long"))
  pure (stop - start)

/-- The row and the id of an entry are recorded. -/
def record (row : IndexRow) (need_ids : Bool) (cx : Cx p.store) : Cx p.store :=
  { cx with
    rows := cx.rows ++ [row]
    by_id := if need_ids then Function.update cx.by_id row.sha (some row.idx) else cx.by_id }

/-- The rows of a full batch are posted. -/
def postFull : p.M Unit := do
  let cx ← get
  if 10000 ≤ cx.rows.length then do
    p.ask fun t => p.env.post t cx.rows
    modify fun cx => { cx with posted := cx.posted ++ cx.rows, rows := [] }
  else pure ()

/-- The end of an entry, with what it puts into the cache. -/
def finishEntry (row : IndexRow) (need_ids : Bool) (cache : p.M Unit) : p.M (Waiters.Step Oid) := do
  if 2^32 ≤ row.idx then throw (unpackFault "too many objects")
  modify (p.record row need_ids)
  cache
  p.postFull
  pure (.done row.sha)

/-- What `stream_blob` keeps between two calls of the inflater. -/
structure Streaming (objLib : ObjLib) where
  z : objLib.Unzip
  /-- `total_in`. -/
  used : ℕ
  /-- The bytes that were hashed. -/
  data : List UInt8
  ended : Bool

/-- The inner loop of `stream_blob`: the inflater takes a chunk. -/
def feedChunk (size pos : ℕ) (z : p.objLib.Unzip) (used : ℕ) (data inp : List UInt8) :
    Except Fault (Streaming p.objLib) :=
  match p.objLib.feed z inp with
  | .error m => .error (unpackFault s!"zlib at {pos}: {m}")
  | .ok c =>
    if size < (data ++ c.made).length then .error (unpackFault s!"object at {pos}: size mismatch")
    else if inp.length < c.used then .error (.failed (.internal "zlib input"))
    else if c.used = inp.length ∨
      c.ended = true then .ok ⟨c.state, used + c.used, data ++ c.made, c.ended⟩
    else if c.used = 0 ∧ c.made = [] then .error (unpackFault s!"zlib stalled at {pos}")
    else feedChunk size pos c.state (used + c.used) (data ++ c.made) (inp.drop c.used)
termination_by inp.length + (size - data.length)
decreasing_by
  rename_i hsize hused _ hstall
  have hprogress : c.used ≠ 0 ∨ 0 < c.made.length := by
    by_contra hnot
    rw [not_or, not_not, Nat.pos_iff_ne_zero, not_not, List.length_eq_zero_iff] at hnot
    exact hstall hnot
  simp only [List.length_append, List.length_drop] at hsize ⊢
  omega

/-- The outer loop of `stream_blob`: the body is read in windows, hashed and appended as it is. -/
def streamBody (size pos stop : ℕ) (st : Streaming p.objLib) : p.M (Streaming p.objLib) :=
  if pos < stop ∧ st.ended = false then do
    let n := min (stop - pos) windowBytes
    let chunk ← p.ask fun t => p.env.read t pos n
    let st' ← ofExcept id (p.feedChunk size pos st.z st.used st.data chunk)
    p.rawExtend chunk
    p.ask p.env.flush
    streamBody size (pos + n) stop st'
  else pure st
termination_by stop - pos
decreasing_by
  have hwindow : 0 < windowBytes := by decide
  omega

/-- `stream_blob`: a blob that is too large to be held in memory. -/
def streamBlob (i : ℕ) (rc : EntryRec) (need_ids : Bool) : p.M (Waiters.Step Oid) := do
  let start ← p.outOffset
  let bodyStart := rc.offset + rc.header_len
  let hdr ← p.ask fun t => p.env.read t rc.offset rc.header_len
  p.rawExtend hdr
  let st ← p.streamBody rc.size bodyStart (bodyStart + rc.compressed_len)
    ⟨p.objLib.fresh, 0, [], false⟩
  if st.ended = false ∨ st.data.length ≠ rc.size ∨ st.used ≠ rc.compressed_len then
    throw (unpackFault s!"object at {rc.offset}: size mismatch")
  match p.objLib.hash p.fmt (.blob, st.data) with
  | none => throw (unpackFault "sha1 collision")
  | some id => do
    let len ← p.entryLen start
    p.finishEntry ⟨id, i, start, len, .blob, rc.size, none⟩ need_ids (pure ())

/-- The base that `one_entry` asks for; `none` of a full entry. -/
def entryBase (rc : EntryRec) : p.M (Option Base) :=
  match rc.kind_or_delta with
  | .ofsDelta distance =>
    match p.objLib.baseOffset rc.offset distance with
    | none => throw (unpackFault "bad ofs-delta")
    | some off => do
      let b ← p.resolveAt (p.baseById maxDepth) off
      pure (some b)
  | .refDelta id => do
    let b ← p.baseById maxDepth id
    pure (some b)
  | .full _ => pure none

/-- The rest of `one_entry`: the object is decoded, hashed, appended and cached. -/
def appendObject (i : ℕ) (rc : EntryRec) (need_ids : Bool) (base : Option Obj) :
    p.M (Waiters.Step Oid) := do
  let raw ← p.windowEntry rc
  let o ← p.decodeMini base raw
  match p.objLib.hash p.fmt o with
  | none => throw (unpackFault "hash collision")
  | some id => do
    let links ← ofExcept Fault.failed (p.objLib.extractLinks p.fmt o)
    -- The tree comes first among the links of a commit.
    let parents := if o.1 = .commit then some (links.drop 1) else none
    p.noteTag id o links
    p.pushLinks links
    let start ← p.outOffset
    let wire ← ofExcept Fault.failed (p.objLib.encode o)
    p.rawExtend wire
    let len ← p.entryLen start
    p.ask p.env.flush
    p.finishEntry ⟨id, i, start, len, o.1, o.2.length, parents⟩ need_ids do
      let _ ← p.cachePut (.off rc.offset) o
      pure ()

/-- `one_entry`. -/
def oneEntry (need_ids : Bool) (i : ℕ) : p.M (Waiters.Step Oid) :=
  match p.recs[i]? with
  | none => throw (.failed (.internal "idx"))
  | some rc =>
    if rc.kind_or_delta = .full .blob ∧ maxObj < rc.size then p.streamBlob i rc need_ids
    else do
      match ← p.entryBase rc with
      | some (.await id) => pure (.await id)
      | some (.ready o) => p.appendObject i rc need_ids (some o)
      | none => p.appendObject i rc need_ids none

/-! ## The whole pass -/

/-- The bases that are read ahead, up to 32 MiB. -/
def prefetchLocs : List (Oid × ObjLoc) → ℕ → List (Oid × ObjLoc)
  | [], _ => []
  | e :: es, sum =>
    if e.2.size ≤ maxObj then
      if 32 * 2^20 < sum + e.2.len then [] else e :: prefetchLocs es (sum + e.2.len)
    else prefetchLocs es sum

/-- The bases that were read ahead are decoded and cached. -/
def cacheBases : List (Oid × List UInt8) → p.M Unit
  | [] => pure ()
  | e :: es => do
    let o ← ofExcept Fault.failed (p.objLib.decode e.2)
    let _ ← p.cachePut (.id e.1) o
    cacheBases es

/-- The reading ahead; a failed read is skipped. -/
def prefetch : p.M Unit := do
  let cx ← get
  set { cx with clock := cx.clock + 1 }
  match p.env.stored cx.clock (prefetchLocs p.externals 0) with
  | .ok es => p.cacheBases es
  | .error _ => pure ()

/-- Whether an entry names its base by id. -/
def needIds : Bool := p.recs.any fun rc => match rc.kind_or_delta with
  | .refDelta _ => true
  | _ => false

/-- The state at the start. -/
def start : Cx p.store := ⟨⟨0, []⟩, p.store.empty, fun _ => none, 0, 0, [], [], [], [], []⟩

/-- `resolve_and_normalize`: the state at the end, with the rows that are not posted; `none` when
the fuel for the work list is spent. -/
def resolveAndNormalize (fuel : ℕ) : Option (Except Fault (Cx p.store)) :=
  match p.prefetch p.start with
  | .error e => some (.error e)
  | .ok ((), cx) =>
    match Waiters.run (p.oneEntry p.needIds) fuel (List.range p.recs.length) [] cx with
    | none => none
    | some (.error e) => some (.error e)
    | some (.ok ([], cx)) => some (.ok cx)
    | some (.ok (w :: _, _)) => some (.error (.missingBase w.1))

end PassB

end GitEdge
