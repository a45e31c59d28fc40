import Mathlib.Logic.Basic
import Mathlib.Data.List.Basic

/-!
# Synchronous spans of statements

A span is a program between two suspension points: it reads the state, executes statements one after
another, and ends with a result or an error. Nothing undoes the statements before an error, so a
span leaves a state in every case; and where the process may be stopped between two statements, the
state it leaves is one of `stops`, the states after each statement.

`Keeps` is the rule of invariants: a predicate kept by a span holds after each of its statements, so
it survives a stop anywhere.
-/

namespace Sql

/-- What a span leaves: the states after each of its statements, the state in which it ended, and
its result. -/
structure Outcome (σ ε α : Type) where
  /-- The states after each statement, oldest first. -/
  stops : List σ
  /-- The state at the end. -/
  state : σ
  /-- The value or the error with which the span ended. -/
  res : Except ε α

/-- A span over the state `σ`, with errors in `ε` and a result in `α`. -/
structure Span (σ ε α : Type) where
  /-- The run of the span from a state. -/
  run : σ → Outcome σ ε α

namespace Span

variable {σ ε α β : Type}

instance : Monad (Span σ ε) where
  pure a := ⟨fun s => ⟨[], s, .ok a⟩⟩
  -- An error of the first span is the error of both.
  bind x f := ⟨fun s =>
    match (x.run s).res with
    | .ok a => ⟨(x.run s).stops ++ ((f a).run (x.run s).state).stops,
        ((f a).run (x.run s).state).state, ((f a).run (x.run s).state).res⟩
    | .error e => ⟨(x.run s).stops, (x.run s).state, .error e⟩⟩

/-- The state, as a query sees it. -/
def read : Span σ ε σ := ⟨fun s => ⟨[], s, .ok s⟩⟩

/-- One statement. -/
def exec (f : σ → σ) : Span σ ε Unit := ⟨fun s => ⟨[f s], f s, .ok ()⟩⟩

/-- The end with an error. -/
def fail (e : ε) : Span σ ε α := ⟨fun s => ⟨[], s, .error e⟩⟩

/-- A span whose error, if it has one, the caller ignores. -/
def attempt (x : Span σ ε Unit) : Span σ ε Unit :=
  ⟨fun s => ⟨(x.run s).stops, (x.run s).state, .ok ()⟩⟩

/-- A span whose end the caller takes as a value. -/
def result (x : Span σ ε α) : Span σ ε (Except ε α) :=
  ⟨fun s => ⟨(x.run s).stops, (x.run s).state, .ok (x.run s).res⟩⟩

/-- A span for each element of a list, in order. -/
def each (f : α → Span σ ε Unit) : List α → Span σ ε Unit
  | [] => pure ()
  | a :: l => do
    f a
    each f l

@[simp] theorem run_pure (a : α) (s : σ) : (pure a : Span σ ε α).run s = ⟨[], s, .ok a⟩ := rfl

@[simp] theorem run_read (s : σ) : (read : Span σ ε σ).run s = ⟨[], s, .ok s⟩ := rfl

@[simp] theorem run_exec (f : σ → σ) (s : σ) :
    (exec f : Span σ ε Unit).run s = ⟨[f s], f s, .ok ()⟩ := rfl

@[simp] theorem run_fail (e : ε) (s : σ) : (fail e : Span σ ε α).run s = ⟨[], s, .error e⟩ := rfl

/-- The second span runs from where a first one ended that had a value. -/
theorem run_bind_of_ok {x : Span σ ε α} {f : α → Span σ ε β} {s : σ} {a : α}
    (h : (x.run s).res = .ok a) :
    (x >>= f).run s = ⟨(x.run s).stops ++ ((f a).run (x.run s).state).stops,
      ((f a).run (x.run s).state).state, ((f a).run (x.run s).state).res⟩ := by
  simp only [bind, h]

theorem run_bind_of_error {x : Span σ ε α} {f : α → Span σ ε β} {s : σ} {e : ε}
    (h : (x.run s).res = .error e) :
    (x >>= f).run s = ⟨(x.run s).stops, (x.run s).state, .error e⟩ := by
  simp only [bind, h]

@[simp] theorem run_read_bind (f : σ → Span σ ε β) (s : σ) : (read >>= f).run s = (f s).run s := rfl

@[simp] theorem run_pure_bind (a : α) (f : α → Span σ ε β) (s : σ) :
    (pure a >>= f).run s = (f a).run s := rfl

@[simp] theorem run_fail_bind (e : ε) (f : α → Span σ ε β) (s : σ) :
    (fail e >>= f).run s = ⟨[], s, .error e⟩ := rfl

@[simp] theorem run_exec_bind (g : σ → σ) (f : Unit → Span σ ε β) (s : σ) :
    (exec g >>= f).run s =
      ⟨g s :: ((f ()).run (g s)).stops, ((f ()).run (g s)).state, ((f ()).run (g s)).res⟩ := rfl

@[simp] theorem run_attempt_bind (x : Span σ ε Unit) (f : Unit → Span σ ε β) (s : σ) :
    (attempt x >>= f).run s =
      ⟨(x.run s).stops ++ ((f ()).run (x.run s).state).stops, ((f ()).run (x.run s).state).state,
        ((f ()).run (x.run s).state).res⟩ := rfl

@[simp] theorem run_result_bind (x : Span σ ε α) (f : Except ε α → Span σ ε β) (s : σ) :
    (result x >>= f).run s =
      ⟨(x.run s).stops ++ ((f (x.run s).res).run (x.run s).state).stops,
        ((f (x.run s).res).run (x.run s).state).state,
        ((f (x.run s).res).run (x.run s).state).res⟩ := rfl

@[ext]
theorem ext_run {x y : Span σ ε α} (h : ∀ s, x.run s = y.run s) : x = y := by
  cases x; cases y
  congr
  funext s
  exact h s

protected theorem bind_assoc {γ : Type} (x : Span σ ε α) (f : α → Span σ ε β) (g : β → Span σ ε γ) :
    x >>= f >>= g = x >>= fun a => f a >>= g := by
  ext1 s
  cases h : (x.run s).res with
  | ok a =>
    cases h' : ((f a).run (x.run s).state).res with
    | ok b => simp [bind, h, h']
    | error e => simp [bind, h, h']
  | error e => simp [bind, h]

/-- A result of two spans in a row comes from a result of the first. -/
theorem bind_eq_ok {x : Span σ ε α} {f : α → Span σ ε β} {s : σ} {b : β} :
    ((x >>= f).run s).res = .ok b ↔
      ∃ a, (x.run s).res = .ok a ∧ ((f a).run (x.run s).state).res = .ok b := by
  cases h : (x.run s).res with
  | ok a => simp [run_bind_of_ok h]
  | error e => simp [run_bind_of_error h]

/-! ## A part of the state -/

/-! ## Invariants -/

/-- A predicate that a span keeps: if it holds before, it holds after every statement and at the
end. -/
def Keeps (I : σ → Prop) (x : Span σ ε α) : Prop :=
  ∀ s, I s → (∀ t ∈ (x.run s).stops, I t) ∧ I (x.run s).state

theorem Keeps.state {I : σ → Prop} {x : Span σ ε α} (h : Keeps I x) {s : σ} (hs : I s) :
    I (x.run s).state := (h s hs).2

theorem Keeps.stop {I : σ → Prop} {x : Span σ ε α} (h : Keeps I x) {s t : σ} (hs : I s)
    (ht : t ∈ (x.run s).stops) : I t := (h s hs).1 t ht

theorem Keeps.pure {I : σ → Prop} (a : α) : Keeps I (Pure.pure a : Span σ ε α) :=
  fun s hs => ⟨by simp, hs⟩

theorem Keeps.read {I : σ → Prop} : Keeps I (Span.read : Span σ ε σ) :=
  fun s hs => ⟨by simp, hs⟩

theorem Keeps.fail {I : σ → Prop} (e : ε) : Keeps I (Span.fail e : Span σ ε α) :=
  fun s hs => ⟨by simp, hs⟩

theorem Keeps.exec {I : σ → Prop} {f : σ → σ} (h : ∀ s, I s → I (f s)) :
    Keeps I (Span.exec f : Span σ ε Unit) :=
  fun s hs => ⟨by simpa using h s hs, h s hs⟩

theorem Keeps.attempt {I : σ → Prop} {x : Span σ ε Unit} (h : Keeps I x) :
    Keeps I (Span.attempt x) := h

theorem Keeps.bind {I : σ → Prop} {x : Span σ ε α} {f : α → Span σ ε β} (hx : Keeps I x)
    (hf : ∀ a, Keeps I (f a)) : Keeps I (x >>= f) := by
  intro s hs
  obtain ⟨hstop, hend⟩ := hx s hs
  cases h : (x.run s).res with
  | ok a =>
    rw [run_bind_of_ok h]
    obtain ⟨hstop', hend'⟩ := hf a _ hend
    exact ⟨fun t ht => (List.mem_append.mp ht).elim (hstop t) (hstop' t), hend'⟩
  | error e =>
    rw [run_bind_of_error h]
    exact ⟨hstop, hend⟩

theorem Keeps.each {I : σ → Prop} {f : α → Span σ ε Unit} {l : List α}
    (h : ∀ a ∈ l, Keeps I (f a)) : Keeps I (each f l) := by
  induction l with
  | nil => exact Keeps.pure ()
  | cons a l ih =>
    exact Keeps.bind (h a (by simp)) fun _ => ih fun b hb => h b (by simp [hb])

end Span

end Sql
