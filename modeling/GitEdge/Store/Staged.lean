import Mathlib.Data.List.Sort
import GitEdge.Store.Io

/-!
# Staged data

What is staged for a push lies in the bucket under `pending/<push>.`: the pack of a push, the parts
of an import. `Yard` is the database with these objects beside it, and `KeyNames` has the texts of
the ids. An id consists of letters, digits, `-` and `_`, so the dot after it ends it: a key lies
under one push at most.
-/

namespace GitEdge

open Sql

/-- The texts of ids in keys. The edge makes random ids, and takes no other characters (`ok_id`). -/
structure KeyNames where
  repo : String
  push : PushId → String
  pack : PackId → String
  push_ok : ∀ p, (push p).toList.all (fun c => c.isAlphanum || c = '-' || c = '_') = true
  push_injective : Function.Injective push

namespace KeyNames

variable (n : KeyNames)

/-- The keys of all that is staged for the repository begin so. -/
def pendingNs : String := "r/" ++ n.repo ++ "/pending/"

/-- The keys of what is staged for a push begin so. -/
def pendingOf (p : PushId) : String := n.pendingNs ++ n.push p ++ "."

/-- `keys::pending`. -/
def pending (p : PushId) : String := n.pendingNs ++ n.push p ++ ".pack"

/-- `keys::pending_part`. -/
def pendingPart (p : PushId) (part : String) : String := n.pendingNs ++ n.push p ++ ".part-" ++ part

/-- `keys::pack`. -/
def packKey (p : PackId) : String := "r/" ++ n.repo ++ "/packs/" ++ n.pack p ++ ".pack"

end KeyNames

/-- Texts for ids: the push `2` is `aaa`. -/
def KeyNames.unary : KeyNames where
  repo := "0"
  push p := String.ofList (List.replicate (p + 1) 'a')
  pack p := String.ofList (List.replicate (p + 1) 'b')
  push_ok p := by
    rw [String.toList_ofList, List.all_eq_true]
    intro c hc
    rw [List.eq_of_mem_replicate hc]
    decide
  push_injective p q h := by
    have := congrArg List.length (String.ofList_injective h)
    simpa using this

/-- `str::starts_with`. -/
def startsWith (key start : String) : Bool := start.toList.isPrefixOf key.toList

/-- The key is one of the push. -/
def KeyNames.Owns (n : KeyNames) (p : PushId) (key : String) : Prop :=
  startsWith key (n.pendingOf p) = true

instance (n : KeyNames) (p : PushId) (key : String) : Decidable (n.Owns p key) :=
  inferInstanceAs (Decidable (_ = true))

theorem KeyNames.dot_not_mem (n : KeyNames) (p : PushId) : '.' ∉ (n.push p).toList := by
  intro h
  have := List.all_eq_true.mp (n.push_ok p) _ h
  simp at this

/-- A key lies under one push at most. -/
theorem KeyNames.owns_unique (n : KeyNames) {p q : PushId} {key : String} (hp : n.Owns p key)
    (hq : n.Owns q key) : p = q := by
  obtain ⟨a, ha⟩ := List.isPrefixOf_iff_prefix.mp hp
  obtain ⟨b, hb⟩ := List.isPrefixOf_iff_prefix.mp hq
  simp only [KeyNames.pendingOf, String.toList_append, List.append_assoc] at ha hb
  have hrest : (n.push p).toList ++ '.' :: a = (n.push q).toList ++ '.' :: b :=
    List.append_cancel_left (ha.trans hb.symm)
  -- The text of the id is what comes before the first dot.
  have htake : ∀ (r : PushId) (l : List Char),
      ((n.push r).toList ++ '.' :: l).takeWhile (fun c => c ≠ '.') = (n.push r).toList := by
    intro r l
    rw [List.takeWhile_append_of_pos]
    · simp
    · intro c hc
      simp only [decide_eq_true_eq]
      rintro rfl
      exact n.dot_not_mem r hc
  have heq : (n.push p).toList = (n.push q).toList := by
    rw [← htake p a, hrest, htake q b]
  exact n.push_injective (String.toList_inj.mp heq)

theorem KeyNames.owns_pendingPart (n : KeyNames) (p : PushId) (part : String) :
    n.Owns p (n.pendingPart p part) := by
  refine List.isPrefixOf_iff_prefix.mpr ⟨"part-".toList ++ part.toList, ?_⟩
  simp [KeyNames.pendingOf, KeyNames.pendingPart, String.toList_append]

/-! ## The yard -/

/-- New bytes under a key. -/
theorem staged_key (bytes : List UInt8) (r : String × List UInt8) : (r.1, bytes).1 = r.1 := rfl

namespace Yard

end Yard

end GitEdge
