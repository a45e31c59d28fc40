import Mathlib.Data.List.Dedup
import GitEdge.Store.Schema

/-!
# Credentials, scopes and protected refs

The pure rules of `repo_do/mod.rs` that a commit applies to each command: which refs a scope
allows, whether the credential that opened a push still stands, and what a protected ref refuses.
-/

namespace GitEdge

/-- `char::is_whitespace`: the `White_Space` property of Unicode. -/
def isWhite (c : Char) : Bool :=
  (9 ≤ c.toNat && c.toNat ≤ 13) || (0x2000 ≤ c.toNat && c.toNat ≤ 0x200a) ||
    [0x20, 0x85, 0xa0, 0x1680, 0x2028, 0x2029, 0x202f, 0x205f, 0x3000].contains c.toNat

/-- `str::trim`. -/
def trim (s : String) : String :=
  String.ofList ((s.toList.dropWhile isWhite).reverse.dropWhile isWhite).reverse

/-- A trimmed text, unless it is empty. -/
def nonempty (s : Option String) : Option String := (s.map trim).filter fun s => s ≠ ""

/-- `ADMIN_AUTH`. -/
def adminAuth : String := "admin"

/-- `TOKEN_INVALID`. -/
def tokenInvalid : String := "token no longer valid"

/-- `token_live`. -/
def tokenLive (expires_at : Option ℤ) (now : ℤ) : Bool := expires_at.all fun e => now < e

/-- `commit_auth`: the current scope of the push's token, `none` for the administrator, or the
reason to reject. `row` is the token as it is now. -/
def commitAuth (auth : Option String) (row : Option (Level × Option String)) :
    Except String (Option String) :=
  match nonempty auth with
  | none => .error tokenInvalid
  | some a =>
    if a = adminAuth then .ok none
    else
      match row with
      | none => .error tokenInvalid
      | some (level, scope) =>
        if level ≠ .write then .error tokenInvalid
        else
          match nonempty scope with
          | some s => .ok (some s)
          | none => .error tokenInvalid

/-- `ALL_REFS`. -/
def allRefs : String := "refs/*"

/-- `push_scope`: the scope that a new push captures. -/
def pushScope (admin : Bool) (key : String) (row : Option (Level × Option String)) :
    Except Error String :=
  if admin then .ok allRefs
  else if key = "" then .error .auth
  else
    match row with
    | none => .error .auth
    | some (level, scope) =>
      if level ≠ .write then .error .forbidden
      else
        match nonempty scope with
        | some s => .ok s
        | none => .error .forbidden

/-- One pattern of a scope: a prefix when it ends in a star, and otherwise the exact name. -/
def patternAllows (p name : String) : Bool :=
  if p.toList.getLast? = some '*' then p.toList.dropLast.isPrefixOf name.toList else name = p

/-- `scope_allows`: some pattern of the comma list covers the ref; an empty scope allows none. -/
def scopeAllows (scope : Option String) (name : String) : Bool :=
  match nonempty scope with
  | none => false
  | some s =>
    (((s.toList.splitOn ',').map fun p => trim (String.ofList p)).filter fun p => p ≠ "").any
      fun p => patternAllows p name

/-- `protected_verdict`: why a command on a protected ref is refused. -/
def protectedVerdict (old_null new_null : Bool) (ff : Option Bool) : Option String :=
  if new_null then some "protected ref: deletion refused"
  else if old_null then none
  else
    match ff with
    | some true => none
    | some false => some "protected ref: non-fast-forward"
    | none => some "protected ref: cannot prove fast-forward"

/-- `is_protected`. -/
def Db.isProtected (db : Db) (name : String) : Bool :=
  db.protected.any fun p => scopeAllows (some p) name

/-- The level and the scope of a token; an expired token counts as missing. -/
def Db.liveToken (db : Db) (hash : String) (now : ℤ) : Option (Level × Option String) :=
  ((db.tokens.rows.find? fun t => t.hash = hash).filter fun t => tokenLive t.expires_at now).map
    fun t => (t.level, t.scope)

/-- The row of the token that opened a push, as the commit reads it: none for the administrator. -/
def Db.tokenRow (db : Db) (auth : Option String) (now : ℤ) : Option (Level × Option String) :=
  match auth with
  | none => none
  | some a => if a = adminAuth ∨ a = "" then none else db.liveToken a now

/-! ## The fast-forward walk -/

/-- `FF_WALK_MAX`. -/
def ffWalkMax : ℕ := 200000

/-- The recorded parents of a commit. -/
def Db.parentsOf (db : Db) (sha : Oid) : List Oid :=
  (db.commit_parents.rows.filter fun r => r.sha = sha && 0 ≤ r.n).filterMap (·.parent)

/-- Whether a commit's parents are recorded. -/
def Db.recorded (db : Db) (sha : Oid) : Bool := db.commit_parents.has (sha, -1)

/-- The rows of the recursive query, with `limit` rows left, from its queue and the rows `anc` that
it has put out. `UNION` queues no row a second time. -/
def ffWalk (db : Db) : ℕ → List Oid → List Oid → List Oid
  | 0, _, anc => anc
  | _, [], anc => anc
  | limit + 1, x :: queue, anc =>
    let new := (db.parentsOf x).dedup.filter fun p => !(x :: queue ++ anc).contains p
    ffWalk db limit (queue ++ new) (anc ++ [x])

/-- The verdict on the rows of the query: unproven when a commit is not recorded, or when the limit
stopped the query. -/
def ffVerdict (anc : List Oid) (recorded : Oid → Bool) (old : Oid) : Option Bool :=
  if anc.contains old then some true
  else if (anc.any fun a => !recorded a) || ffWalkMax ≤ anc.length then none
  else some false

/-- `ff_ancestor`: whether `old` is an ancestor of `new`, where the recorded graph shows it. -/
def Db.ffAncestor (db : Db) (old new : Oid) : Option Bool :=
  ffVerdict (ffWalk db ffWalkMax [new] []) db.recorded old

end GitEdge
