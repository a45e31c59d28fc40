import GitEdge.Sql.Process
import GitEdge.Store.Schema

/-!
# Requests that suspend

A request to the bucket suspends the process that makes it. The reply brings the clock, which stands
still until the next request, whether the budget of the slice is spent, a random id for the code
that follows to draw, and the error with which the request failed, if it did.
-/

namespace GitEdge

open Sql

/-- What a process learns when it goes on. -/
structure Reply where
  now : ℤ
  /-- `SliceBudget::spent_80pct`. -/
  spent : Bool
  /-- The next random id. -/
  fresh : ℕ
  /-- The error of the request. -/
  err : Option Error

/-- A process of the repository. -/
abbrev Proc (α : Type) : Type := Process Db Error Reply α

/-- The database, as a query sees it. -/
def Proc.read : Proc Db := Process.ofSpan Span.read

/-- One statement. -/
def Proc.exec (f : Db → Db) : Proc Unit := Process.ofSpan (Span.exec f)

/-- A span of statements. -/
def Proc.span {α : Type} (x : Span Db Error α) : Proc α := Process.ofSpan x

/-- A request whose failure the caller passes on. -/
def request : Proc Reply := do
  let r ← Process.ask
  match r.err with
  | some e => Process.fail e
  | none => pure r

/-! ## Rules -/

section Rules

variable {α : Type} {C : Process.Contract Db Reply} {s₀ s : Db}

@[simp] theorem wp_read {Q : Db → Except Error Db → Db → Prop} :
    Process.wp C Proc.read s₀ s Q ↔ Q s₀ (.ok s) s := by
  rw [Proc.read, Process.wp_ofSpan, Span.wp_read]

@[simp] theorem wp_exec {f : Db → Db} {Q : Db → Except Error Unit → Db → Prop} :
    Process.wp C (Proc.exec f) s₀ s Q ↔ (C.S (f s) → C.J s₀ (f s)) ∧ Q s₀ (.ok ()) (f s) := by
  rw [Proc.exec, Process.wp_ofSpan, Span.wp_exec]

/-- A request that fails ends the process with the error of the reply. -/
theorem wp_request {Q : Db → Except Error Reply → Db → Prop} (hJ : C.J s₀ s)
    (h : ∀ t r, C.R s t → C.I t → C.G t r → Q t (r.err.elim (.ok r) .error) t) :
    Process.wp C request s₀ s Q := by
  rw [request, Process.wp_bind, Process.wp_ask]
  refine ⟨hJ, fun t r hR hI hG => ?_⟩
  have hQ := h t r hR hI hG
  cases herr : r.err with
  | none =>
    rw [herr] at hQ
    simpa [herr] using hQ
  | some e =>
    rw [herr] at hQ
    simpa [herr] using hQ

end Rules

end GitEdge
