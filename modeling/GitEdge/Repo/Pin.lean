import GitEdge.Repo.History

/-!
# Pinned refs are frozen

A row of `pins` freezes a ref. Two tables are involved, and two kinds of routes write them: `pin`
and `unpin` write `pins` and no ref, and the commits write refs and no pin. So it is enough to look
at one span at a time. `pin` adds a row only for the target that the ref has (`Pinned.pinRow`). A
commit changes a ref only by a command that passes the rules of the state before the writes, and
one of them is that the ref has no pin (`commitPush_frozen`, `commitMeta_frozen`). Since the rule
is read in the span of the writes, it does not matter when the push or the import began.
-/

namespace GitEdge

open Sql

variable {s t : Db} {name : String}

/-! ## `pin` and `unpin` -/

/-- `valid_ref`: the gate that `apply_one` uses too. -/
def validRef (env : Env) (name : String) : Bool :=
  "refs/".toList.isPrefixOf name.toList && env.valid_name name

/-- The number of pins a repository may have. -/
def maxPins : ℕ := 256

/-- The upsert of `pin`. -/
def pinRow (name : String) (target : Oid) (db : Db) : Db :=
  { db with pins := db.pins.upsert ⟨name, target⟩ (fun r => { r with sha := target }) fun _ => rfl }

/-- `pin`: freezes a ref at the target that it has. The id is what `oid` makes of the text of the
request: an id, or the message of the decoder. -/
def pin (env : Env) (name : String) (sha : Except String Oid) : Span Db Error Unit := do
  let db ← Span.read
  if !validRef env name then Span.fail (.protocol "bad ref name")
  else
    match sha with
    | .error m => Span.fail (.protocol m)
    | .ok target =>
      if target = 0 then Span.fail (.protocol "pin sha must be non-zero")
      else if db.target name ≠ some target then Span.fail (.conflict s!"{name} is not at {target}")
      else if maxPins ≤ db.pins.countWhere fun r => r.name ≠ name then
        Span.fail (.limit "too many pins (256 max)")
      else Span.exec (pinRow name target)

/-- `unpin`: the result says whether there was a pin. -/
def unpin (env : Env) (name : String) : Span Db Error Bool := do
  let db ← Span.read
  if !validRef env name then Span.fail (.protocol "bad ref name")
  else do
    Span.exec fun db => { db with pins := db.pins.deleteWhere fun r => r.name = name }
    pure (db.pins.has name)

/-- Every pin is at the target of its ref. -/
def Pinned (db : Db) : Prop := ∀ p ∈ db.pins, db.target p.name = some p.sha

theorem Pinned.of_eq (h : Pinned s) (hrefs : t.refs = s.refs) (hpins : t.pins = s.pins) :
    Pinned t := by
  intro p hp
  rw [hpins] at hp
  rw [Db.target, hrefs]
  exact h p hp

/-- `pin` fails and writes nothing, or it writes the pin of the target that the ref has. -/
theorem pin_cases (env : Env) (name : String) (sha : Except String Oid) (s : Db) :
    let o := (pin env name sha).run s
    (o.state = s ∧ ∃ e, o.res = .error e) ∨
      ∃ target, s.target name = some target ∧ o.res = .ok () ∧ o.state = pinRow name target s := by
  intro o
  have ho : o = (pin env name sha).run s := rfl
  unfold pin at ho
  rw [Span.run_read_bind] at ho
  by_cases hvalid : validRef env name = true
  · simp only [hvalid, Bool.not_true, Bool.false_eq_true, if_false] at ho
    cases sha with
    | error m => exact .inl (by rw [ho]; exact ⟨rfl, _, rfl⟩)
    | ok target =>
      dsimp only at ho
      by_cases hnull : target = 0
      · rw [if_pos hnull] at ho
        exact .inl (by rw [ho]; exact ⟨rfl, _, rfl⟩)
      rw [if_neg hnull] at ho
      by_cases hat : s.target name = some target
      · rw [if_neg (not_not_intro hat)] at ho
        by_cases hmax : maxPins ≤ s.pins.countWhere fun r => r.name ≠ name
        · rw [if_pos hmax] at ho
          exact .inl (by rw [ho]; exact ⟨rfl, _, rfl⟩)
        · rw [if_neg hmax] at ho
          exact .inr ⟨target, hat, by rw [ho]; rfl, by rw [ho]; rfl⟩
      · rw [if_pos hat] at ho
        exact .inl (by rw [ho]; exact ⟨rfl, _, rfl⟩)
  · simp only [hvalid, Bool.not_false, if_true] at ho
    exact .inl (by rw [ho]; exact ⟨rfl, _, rfl⟩)

/-- `unpin` writes nothing, or it deletes the pin of the name. -/
theorem unpin_cases (env : Env) (name : String) (s : Db) :
    let t := ((unpin env name).run s).state
    t = s ∨ t = { s with pins := s.pins.deleteWhere fun r => r.name = name } := by
  intro t
  have ht : t = ((unpin env name).run s).state := rfl
  unfold unpin at ht
  rw [Span.run_read_bind] at ht
  split at ht
  · exact .inl ht
  · exact .inr ht

/-- The new pin is at the target of its ref, and the others are as they were. -/
theorem Pinned.pinRow (h : Pinned s) {target : Oid} (hat : s.target name = some target) :
    Pinned (pinRow name target s) := by
  intro p hp
  have hname : ∀ q : PinRow, q.name = name → q.sha = target → s.target q.name = some q.sha := by
    intro q hq hsha
    rw [hq, hsha]
    exact hat
  rcases Table.mem_upsert.mp hp with ⟨hp, -⟩ | ⟨q, -, hq, rfl⟩ | ⟨rfl, -⟩
  · exact h p hp
  · exact hname _ hq rfl
  · exact hname _ rfl rfl

/-! ## Commits -/

/-- A commit writes no pin. -/
theorem commitPush_pins (env : Env) (now : ℤ) (req : CommitRequest) (s : Db) :
    ((commitPush env now req).run s).state.pins = s.pins := by
  have hpending : ∀ barrier pack, (withPending barrier pack s).pins = s.pins := by
    intro barrier pack
    obtain ⟨_, _, _, h⟩ := withPending_eq barrier pack s
    rw [h]
  rcases commitPush_cases env now req s with ⟨m, -, hs⟩ | ⟨-, -, why, -, hs⟩ |
    ⟨m, -, hs⟩ | ⟨pack, m, -, -, -, hs⟩ | ⟨scopes, P, -, h3, -, hs⟩
  · rw [hs]
  · rw [hs]
    rfl
  · rw [hs]
    rfl
  · rw [hs]
    exact hpending _ _
  · have hP : P.pins = s.pins := by
      cases h3 with
      | noPack h => rfl
      | pack h one jobs seq => exact hpending _ _
    rw [hs, ← hP]
    rcases commitCommands_cases env now req s.barrierActive scopes P with
      ⟨rs, -, -, hst⟩ | ⟨-, jobs, seq, events, dropped, hst⟩
    · rw [hst, (rejectAtomic_eq req now _ _ P).2]
      split
      · rfl
      · split_ifs <;> rfl
    · have hland := (landCommands_sameRules env P.head req.push_id req.principal now s.barrierActive
        scopes req.commands P).pins
      rw [hst]
      generalize landCommands env P.head req.push_id req.principal now s.barrierActive scopes
        req.commands P = L at hland ⊢
      obtain ⟨version, head, he⟩ := settled_eq (L.1.any fun r => r.2.isNone) req L.2
      rw [he]
      exact hland

/-- A commit leaves a pinned ref alone. -/
theorem commitPush_frozen (env : Env) (now : ℤ) (req : CommitRequest) (s : Db)
    (hpin : s.pins.has name = true) :
    ((commitPush env now req).run s).state.refs.find name = s.refs.find name := by
  rcases commitPush_effect env now req s with ⟨hrefs, -⟩ | ⟨scopes, P, -, h3, -, hrefs, -⟩
  · rw [hrefs]
  · by_contra hne
    obtain ⟨hrules, hrefs', -⟩ := h3.judged
    rw [hrefs, ← hrefs'] at hne
    obtain ⟨c, -, hname, hrule⟩ := landCommands_changed _ _ _ _ _ _ _ _ _ _ hne
    -- The rules of the dry run are those of the state before, and they read its pins.
    have hfree : P.pins.has name = false := hname ▸ (passes_of_breaksRule hrule).notPinned
    have hjudged : (req.judged s).pins = s.pins := by
      unfold CommitRequest.judged
      split <;> rfl
    rw [hrules.pins, hjudged, hpin] at hfree
    cases hfree

/-- The commit of an import writes no pin and leaves a pinned ref alone. -/
theorem commitMeta_frozen (env : Env) (now : ℤ) (id : ℕ) (lease : Lease) (p : ImportPayload)
    (c : ImportCursor) (m : PackMeta) (s : Db) :
    let t := ((commitMeta env now id lease p c m).run s).state
    t.pins = s.pins ∧ ∀ name, s.pins.has name = true → t.refs.find name = s.refs.find name := by
  intro t
  rcases commitMeta_cases env now id lease p c m s with ⟨-, ht⟩ |
    ⟨-, links, toc, parts, opens, tail, ht⟩
  · rcases ht with ht | ht
    · rw [show t = s from ht]
      exact ⟨rfl, fun _ _ => rfl⟩
    · rw [show t = _ from ht]
      exact ⟨rfl, fun _ _ => rfl⟩
  · rw [show t = _ from ht]
    exact ⟨commitPush_pins env now p.request _, fun name hname =>
      commitPush_frozen env now p.request (prepared now id lease p m s) hname⟩

/-! ## Runs -/

/-- A step of the repository, as far as pins are concerned, with the name that it unpins. All code
besides the commits, `pin` and `unpin` writes neither a ref nor a pin. -/
inductive PinStep (env : Env) : Db → Option String → Db → Prop
  | push (now : ℤ) (req : CommitRequest) (s : Db) :
      PinStep env s none ((commitPush env now req).run s).state
  | importPack (now : ℤ) (id : ℕ) (lease : Lease) (p : ImportPayload) (c : ImportCursor)
      (m : PackMeta) (s : Db) :
      PinStep env s none ((commitMeta env now id lease p c m).run s).state
  | pin (name : String) (sha : Except String Oid) (s : Db) :
      PinStep env s none ((pin env name sha).run s).state
  | unpin (name : String) (s : Db) : PinStep env s (some name) ((unpin env name).run s).state
  | rest {s t : Db} (refs : t.refs = s.refs) (pins : t.pins = s.pins) : PinStep env s none t

/-- The states of a repository. -/
inductive PinReach (env : Env) : Db → Prop
  | boot (now : ℤ) : PinReach env (boot now)
  | step {s t : Db} {unpins : Option String} (hs : PinReach env s) (ht : PinStep env s unpins t) :
      PinReach env t

/-- A period without an unpin of the name. -/
inductive PinPeriod (env : Env) (name : String) : Db → Db → Prop
  | refl (s : Db) : PinPeriod env name s s
  | step {s t u : Db} {unpins : Option String} (hp : PinPeriod env name s t)
      (ht : PinStep env t unpins u) (hname : unpins ≠ some name) : PinPeriod env name s u

section

variable {env : Env}

/-- A step leaves a pinned ref alone, and its pin too unless it is the unpin of the ref. -/
theorem PinStep.frozen {unpins : Option String} (ht : PinStep env s unpins t)
    (hpin : s.pins.has name = true) :
    t.refs.find name = s.refs.find name ∧ (unpins ≠ some name → t.pins.has name = true) := by
  cases ht with
  | push now req =>
    refine ⟨commitPush_frozen env now req s hpin, fun _ => ?_⟩
    rw [commitPush_pins]
    exact hpin
  | importPack now id lease p c m =>
    obtain ⟨hpins, hfrozen⟩ := commitMeta_frozen env now id lease p c m s
    refine ⟨hfrozen name hpin, fun _ => ?_⟩
    rw [hpins]
    exact hpin
  | pin other sha =>
    rcases pin_cases env other sha s with ⟨hs, -⟩ | ⟨target, -, -, hs⟩
    · rw [hs]
      exact ⟨rfl, fun _ => hpin⟩
    · rw [hs]
      refine ⟨rfl, fun _ => ?_⟩
      rw [pinRow, Table.has_upsert, hpin, Bool.true_or]
  | unpin other =>
    rcases unpin_cases env other s with hs | hs
    · rw [hs]
      exact ⟨rfl, fun _ => hpin⟩
    · rw [hs]
      refine ⟨rfl, fun hne => ?_⟩
      obtain ⟨p, hp, hname⟩ := Table.has_iff.mp hpin
      have hother : p.name ≠ other := fun h => hne (by rw [← h, hname])
      exact Table.has_iff.mpr ⟨p, Table.mem_deleteWhere.mpr ⟨hp, by simpa using hother⟩, hname⟩
  | rest refs pins =>
    rw [refs, pins]
    exact ⟨rfl, fun _ => hpin⟩

/-- A step keeps every pin at the target of its ref. -/
theorem PinStep.pinned {unpins : Option String} (ht : PinStep env s unpins t) (hs : Pinned s) :
    Pinned t := by
  -- A commit writes no pin, and leaves the refs of the pins that there are alone.
  have hcommit : t.pins = s.pins → (∀ name, s.pins.has name = true →
      t.refs.find name = s.refs.find name) → Pinned t := by
    intro hpins hfrozen p hp
    rw [hpins] at hp
    have hfind := hfrozen p.name (Table.has_iff.mpr ⟨p, hp, rfl⟩)
    have htarget : t.target p.name = s.target p.name := by
      simp only [Db.target, targets, hfind]
    rw [htarget]
    exact hs p hp
  cases ht with
  | push now req =>
    exact hcommit (commitPush_pins env now req s) fun _ h => commitPush_frozen env now req s h
  | importPack now id lease p c m =>
    obtain ⟨hpins, hfrozen⟩ := commitMeta_frozen env now id lease p c m s
    exact hcommit hpins hfrozen
  | pin name sha =>
    rcases pin_cases env name sha s with ⟨hst, -⟩ | ⟨target, hat, -, hst⟩
    · rw [hst]
      exact hs
    · rw [hst]
      exact hs.pinRow hat
  | unpin name =>
    rcases unpin_cases env name s with hst | hst
    · rw [hst]
      exact hs
    · rw [hst]
      exact fun p hp => hs p (Table.mem_deleteWhere.mp hp).1
  | rest refs pins => exact hs.of_eq refs pins

theorem PinReach.pinned (hs : PinReach env s) : Pinned s := by
  induction hs with
  | boot now =>
    obtain ⟨jobs, seq, he⟩ := boot_eq now
    rw [he]
    exact fun p hp => absurd hp (Table.not_mem_empty p)
  | step _ ht ih => exact ht.pinned ih

/-- Through a period without its unpin, a pinned ref and its pin stay. -/
theorem PinPeriod.frozen (h : PinPeriod env name s t) (hpin : s.pins.has name = true) :
    t.refs.find name = s.refs.find name ∧ t.pins.has name = true := by
  induction h with
  | refl => exact ⟨rfl, hpin⟩
  | step _ hu hname ih =>
    obtain ⟨hfind, hstay⟩ := hu.frozen ih.2
    exact ⟨hfind.trans ih.1, hstay hname⟩

/-- In every run each pin is at the target of its ref, and from a pin that succeeds on, the row of
the ref is the same in every state until its unpin. -/
theorem pinned_refs_frozen (hs : PinReach env s) :
    (∀ p ∈ s.pins, s.target p.name = some p.sha) ∧
      ∀ name sha, ((pin env name sha).run s).res = .ok () →
        ∀ t, PinPeriod env name ((pin env name sha).run s).state t →
          t.refs.find name = s.refs.find name := by
  refine ⟨hs.pinned, fun name sha hok t ht => ?_⟩
  rcases pin_cases env name sha s with ⟨-, e, he⟩ | ⟨target, -, -, hst⟩
  · rw [he] at hok
    cases hok
  · rw [hst] at ht
    have hpin : (pinRow name target s).pins.has name = true := by
      rw [pinRow, Table.has_upsert]
      simp
    exact (ht.frozen hpin).1

end

/-- A branch, and a push of its deletion that is open. -/
def pinReady : Db :=
  let env := Env.default fun _ => true
  let db := ((pushBegin env 1 .off ⟨1, "admin", "", true, none⟩).run (boot 0)).state
  let db := ((pushIndex 2 ⟨10, 1, 1, 100⟩
    [⟨⟨7, 10, 0, 12, 30, .commit, 40⟩, some []⟩]).run db).state
  let db := ((commitPush env 3 ⟨1, some 10, "admin", [⟨0, 7, "refs/heads/a", none⟩], true⟩).run
    db).state
  ((pushBegin env 4 .off ⟨2, "admin", "", true, none⟩).run db).state

/-- The branch is pinned, and then the push tries to delete it. -/
def pinTried : Db :=
  let env := Env.default fun _ => true
  ((commitPush env 6 ⟨2, none, "admin", [⟨7, 0, "refs/heads/a", none⟩], false⟩).run
    ((pin env "refs/heads/a" (.ok 7)).run pinReady).state).state

/-- A push that was open when the ref was pinned cannot delete it. -/
theorem pinned_refs_frozen_delete :
    PinReach (Env.default fun _ => true) pinReady ∧ pinReady.target "refs/heads/a" = some 7 ∧
      pinTried.refs.find "refs/heads/a" = pinReady.refs.find "refs/heads/a" := by
  have hbegin : ∀ {s : Db} (now : ℤ) (b : BeginDto), PinReach (Env.default fun _ => true) s →
      PinReach (Env.default fun _ => true)
        ((pushBegin (Env.default fun _ => true) now .off b).run s).state := by
    intro s now b hs
    obtain ⟨rate, hstate⟩ := pushBegin_state (Env.default fun _ => true) now .off b s
    rw [hstate]
    dsimp only
    split <;> exact hs.step (.rest rfl rfl)
  have hready : PinReach (Env.default fun _ => true) pinReady :=
    hbegin 4 ⟨2, "admin", "", true, none⟩ (((hbegin 1 ⟨1, "admin", "", true, none⟩ (.boot 0)).step
      (.rest (by rfl) (by rfl))).step (.push 3 _ _))
  exact ⟨hready, by decide, (pinned_refs_frozen hready).2 "refs/heads/a" (.ok 7) rfl _
    (.step (.refl _) (.push 6 _ _) (by simp))⟩

end GitEdge
