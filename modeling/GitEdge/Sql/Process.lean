import Mathlib.Logic.Relation
import GitEdge.Sql.Span

/-!
# Processes

A process is a program that suspends: spans of statements with suspension points between them, at
each of which it waits for a reply. While it waits, others change the state; between two suspension
points nothing does. `advance` runs a process to its next suspension point.

`wp` is the rule of processes, in the rely-guarantee style: `J s t` is what a span that began in `s`
may leave in `t`, at its end and, where the process may be stopped between two statements, after
each of them; `R` is what the others may do to the state while the process waits. A system that runs
one such process at a time, beside the others, keeps what the rule was proved for
(`Sys.Step.sound`).
-/

namespace Sql

namespace Span

variable {σ ε α β : Type}

/-- Every stop of the span satisfies `P`, and its end satisfies `Q`. -/
def wp (P : σ → Prop) (x : Span σ ε α) (s : σ) (Q : Except ε α → σ → Prop) : Prop :=
  (∀ t ∈ (x.run s).stops, P t) ∧ Q (x.run s).res (x.run s).state

variable {P : σ → Prop} {Q Q' : Except ε α → σ → Prop}

@[simp] theorem wp_pure (a : α) (s : σ) : wp P (pure a : Span σ ε α) s Q ↔ Q (.ok a) s := by
  simp [wp]

@[simp] theorem wp_read (s : σ) (Q : Except ε σ → σ → Prop) :
    wp P (read : Span σ ε σ) s Q ↔ Q (.ok s) s := by
  simp [wp]

@[simp] theorem wp_fail (e : ε) (s : σ) : wp P (fail e : Span σ ε α) s Q ↔ Q (.error e) s := by
  simp [wp]

@[simp] theorem wp_exec (f : σ → σ) (s : σ) (Q : Except ε Unit → σ → Prop) :
    wp P (exec f : Span σ ε Unit) s Q ↔ P (f s) ∧ Q (.ok ()) (f s) := by
  simp [wp]

theorem wp.mono {x : Span σ ε α} {s : σ} (h : wp P x s Q) (hQ : ∀ r t, Q r t → Q' r t) :
    wp P x s Q' := ⟨h.1, hQ _ _ h.2⟩

/-- What follows a span: the second one from a value, nothing from an error. -/
def After (f : α → σ → Prop) (Q : Except ε β → σ → Prop) : Except ε α → σ → Prop
  | .ok a, t => f a t
  | .error e, t => Q (.error e) t

@[simp] theorem after_ok (f : α → σ → Prop) (Q : Except ε β → σ → Prop) (a : α) (t : σ) :
    After f Q (.ok a) t ↔ f a t := Iff.rfl

@[simp] theorem after_error (f : α → σ → Prop) (Q : Except ε β → σ → Prop) (e : ε) (t : σ) :
    After f Q (.error e) t ↔ Q (.error e) t := Iff.rfl

theorem wp_bind {x : Span σ ε α} {f : α → Span σ ε β} {s : σ} {Q : Except ε β → σ → Prop} :
    wp P (x >>= f) s Q ↔ wp P x s (After (fun a t => wp P (f a) t Q) Q) := by
  cases h : (x.run s).res with
  | ok a =>
    simp only [wp, run_bind_of_ok h, h, after_ok, List.mem_append]
    constructor
    · rintro ⟨hs, hq⟩
      exact ⟨fun t ht => hs t (.inl ht), fun t ht => hs t (.inr ht), hq⟩
    · rintro ⟨hs, hs', hq⟩
      exact ⟨fun t ht => ht.elim (hs t) (hs' t), hq⟩
  | error e => simp only [wp, run_bind_of_error h, h, after_error]

/-- What a span keeps holds at its stops and at its end. -/
theorem Keeps.wp {I : σ → Prop} {x : Span σ ε α} (h : Keeps I x) {s : σ} (hs : I s)
    (hP : ∀ t, I t → P t) : wp P x s fun _ t => I t :=
  ⟨fun _ ht => hP _ (h.stop hs ht), h.state hs⟩

end Span

/-- A process over the state `σ`, with errors in `ε`, replies in `ρ` and a result in `α`. -/
inductive Process (σ ε ρ α : Type) where
  /-- The end with a value. -/
  | ret (a : α)
  /-- The end with an error. -/
  | fail (e : ε)
  /-- A span: the states after its statements, the state at its end, and what follows. -/
  | sync (stops : σ → List σ) (state : σ → σ) (next : σ → Process σ ε ρ α)
  /-- A suspension point. -/
  | await (k : ρ → Process σ ε ρ α)

namespace Process

variable {σ ε ρ α β : Type}

/-- One process after another; an error of the first is the error of both. -/
protected def bind : Process σ ε ρ α → (α → Process σ ε ρ β) → Process σ ε ρ β
  | .ret a, f => f a
  | .fail e, _ => .fail e
  | .sync stops state next, f => .sync stops state fun s => (next s).bind f
  | .await k, f => .await fun r => (k r).bind f

instance : Monad (Process σ ε ρ) where
  pure := .ret
  bind := Process.bind

/-- What follows a span with a result. -/
def ofExcept : Except ε α → Process σ ε ρ α
  | .ok a => .ret a
  | .error e => .fail e

/-- A span as a process that does not suspend. -/
def ofSpan (x : Span σ ε α) : Process σ ε ρ α :=
  .sync (fun s => (x.run s).stops) (fun s => (x.run s).state) fun s => ofExcept (x.run s).res

instance : MonadLift (Span σ ε) (Process σ ε ρ) where
  monadLift := ofSpan

/-- A suspension point that returns the reply. -/
def ask : Process σ ε ρ ρ := .await .ret

/-- A process whose end the caller takes as a value. -/
def result : Process σ ε ρ α → Process σ ε ρ (Except ε α)
  | .ret a => .ret (.ok a)
  | .fail e => .ret (.error e)
  | .sync stops state next => .sync stops state fun s => (next s).result
  | .await k => .await fun r => (k r).result

/-! ## Execution -/

/-- What a process leaves at its next suspension point, or at its end. -/
structure Pause (σ ε ρ α : Type) where
  /-- The states after each statement, oldest first. -/
  stops : List σ
  /-- The state at the suspension point. -/
  state : σ
  /-- The process that is left: it has ended, or it waits. -/
  rest : Process σ ε ρ α

/-- The run to the next suspension point. -/
def advance : Process σ ε ρ α → σ → Pause σ ε ρ α
  | .sync stops state next, s =>
    let p := (next s).advance (state s)
    ⟨stops s ++ p.stops, p.state, p.rest⟩
  | p, s => ⟨[], s, p⟩

/-- What a process waits with, if it waits. -/
def waiting : Process σ ε ρ α → Option (ρ → Process σ ε ρ α)
  | .await k => some k
  | _ => none

/-- The end of a process to which the replies are given in turn, while nothing else changes the
state; `none` if there are too few. -/
def eval : Process σ ε ρ α → σ → List ρ → Option (Except ε α)
  | .ret a, _, _ => some (.ok a)
  | .fail e, _, _ => some (.error e)
  | .sync _ state next, s, rs => (next s).eval (state s) rs
  | .await k, s, r :: rs => (k r).eval s rs
  | .await _, _, [] => none

/-! ## The rule of processes -/

/-- The conditions on a process: what a span may leave, what a process may assume of a state that it
waited in, and what the others and the replies may be. -/
structure Contract (σ ρ : Type) where
  /-- What a span that began in the first state may leave. -/
  J : σ → σ → Prop
  /-- What holds in every state in which a process waits or begins. -/
  I : σ → Prop
  /-- What the others do while a process waits. -/
  R : σ → σ → Prop
  /-- The replies that a process may get in a state. -/
  G : σ → ρ → Prop
  /-- The states in which a process may be stopped within a span. -/
  S : σ → Prop

variable (C : Contract σ ρ)

/-- Each span of the process, from `s` on in one that began in `s₀`, leaves what the contract says,
and the end satisfies `Q`, which is given the state in which the last span began. -/
def wp : Process σ ε ρ α → σ → σ → (σ → Except ε α → σ → Prop) → Prop
  | .ret a, s₀, s, Q => Q s₀ (.ok a) s
  | .fail e, s₀, s, Q => Q s₀ (.error e) s
  | .sync stops state next, s₀, s, Q =>
    (∀ t ∈ stops s, C.S t → C.J s₀ t) ∧ (next s).wp s₀ (state s) Q
  | .await k, s₀, s, Q =>
    C.J s₀ s ∧ ∀ s' r, C.R s s' → C.I s' → C.G s' r → (k r).wp s' s' Q

variable {C}

@[simp] theorem wp_pure (a : α) (s₀ s : σ) (Q : σ → Except ε α → σ → Prop) :
    wp C (pure a : Process σ ε ρ α) s₀ s Q ↔ Q s₀ (.ok a) s := Iff.rfl

@[simp] theorem wp_fail (e : ε) (s₀ s : σ) (Q : σ → Except ε α → σ → Prop) :
    wp C (.fail e : Process σ ε ρ α) s₀ s Q ↔ Q s₀ (.error e) s := Iff.rfl

theorem wp_ask (s₀ s : σ) (Q : σ → Except ε ρ → σ → Prop) :
    wp C (ask : Process σ ε ρ ρ) s₀ s Q ↔
      C.J s₀ s ∧ ∀ s' r, C.R s s' → C.I s' → C.G s' r → Q s' (.ok r) s' := Iff.rfl

theorem wp_ofSpan (x : Span σ ε α) (s₀ s : σ) (Q : σ → Except ε α → σ → Prop) :
    wp C (ofSpan x : Process σ ε ρ α) s₀ s Q ↔
      x.wp (fun t => C.S t → C.J s₀ t) s (fun r t => Q s₀ r t) := by
  simp only [ofSpan, wp, Span.wp]
  cases (x.run s).res <;> rfl

theorem wp_ofExcept (x : Except ε α) (s₀ s : σ) (Q : σ → Except ε α → σ → Prop) :
    wp C (ofExcept x : Process σ ε ρ α) s₀ s Q ↔ Q s₀ x s := by
  cases x <;> exact Iff.rfl

theorem wp.mono {p : Process σ ε ρ α} {s₀ s : σ} {Q Q' : σ → Except ε α → σ → Prop}
    (h : wp C p s₀ s Q) (hQ : ∀ u r t, Q u r t → Q' u r t) : wp C p s₀ s Q' := by
  induction p generalizing s₀ s with
  | ret a => exact hQ _ _ _ h
  | fail e => exact hQ _ _ _ h
  | sync stops state next ih => exact ⟨h.1, ih _ h.2⟩
  | await k ih => exact ⟨h.1, fun s' r hR hI hG => ih r (h.2 s' r hR hI hG)⟩

/-- What follows a process: the second one from a value, nothing from an error. -/
def After (f : α → σ → σ → Prop) (Q : σ → Except ε β → σ → Prop) : σ → Except ε α → σ → Prop
  | s₀, .ok a, t => f a s₀ t
  | s₀, .error e, t => Q s₀ (.error e) t

@[simp] theorem after_ok (f : α → σ → σ → Prop) (Q : σ → Except ε β → σ → Prop) (s₀ : σ) (a : α)
    (t : σ) : After f Q s₀ (.ok a) t ↔ f a s₀ t := Iff.rfl

theorem wp_bind {p : Process σ ε ρ α} {f : α → Process σ ε ρ β} {s₀ s : σ}
    {Q : σ → Except ε β → σ → Prop} :
    wp C (p >>= f) s₀ s Q ↔ wp C p s₀ s (After (fun a u t => wp C (f a) u t Q) Q) := by
  induction p generalizing s₀ s with
  | ret a => exact Iff.rfl
  | fail e => exact Iff.rfl
  | sync stops state next ih => exact and_congr_right fun _ => ih _
  | await k ih =>
    refine and_congr_right fun _ => forall₂_congr fun s' r => ?_
    exact imp_congr_right fun _ => imp_congr_right fun _ => imp_congr_right fun _ => ih r

theorem wp_result {p : Process σ ε ρ α} {s₀ s : σ} {Q : σ → Except ε (Except ε α) → σ → Prop} :
    wp C p.result s₀ s Q ↔ wp C p s₀ s fun u r t => Q u (.ok r) t := by
  induction p generalizing s₀ s with
  | ret a => exact Iff.rfl
  | fail e => exact Iff.rfl
  | sync stops state next ih => exact and_congr_right fun _ => ih _
  | await k ih =>
    refine and_congr_right fun _ => forall₂_congr fun s' r => ?_
    exact imp_congr_right fun _ => imp_congr_right fun _ => imp_congr_right fun _ => ih r

/-- The run to the next suspension point leaves what the contract says, and what is left of the
process still satisfies the rule. -/
theorem wp.advance {p : Process σ ε ρ α} {s₀ s : σ} {Q : σ → Except ε α → σ → Prop}
    (h : wp C p s₀ s Q) :
    (∀ t ∈ (p.advance s).stops, C.S t → C.J s₀ t) ∧
      wp C (p.advance s).rest s₀ (p.advance s).state Q := by
  induction p generalizing s with
  | ret a => exact ⟨by simp [Process.advance], h⟩
  | fail e => exact ⟨by simp [Process.advance], h⟩
  | await k _ => exact ⟨by simp [Process.advance], h⟩
  | sync stops state next ih =>
    obtain ⟨hstops, hrest⟩ := ih _ h.2
    refine ⟨fun t ht => ?_, hrest⟩
    rcases List.mem_append.mp ht with ht | ht
    · exact h.1 t ht
    · exact hstops t ht

theorem advance_rest_ne_sync (p : Process σ ε ρ α) (s : σ) (stops : σ → List σ) (state : σ → σ)
    (next : σ → Process σ ε ρ α) : (p.advance s).rest ≠ .sync stops state next := by
  induction p generalizing s with
  | ret a => simp [Process.advance]
  | fail e => simp [Process.advance]
  | await k _ => simp [Process.advance]
  | sync stops state next ih => exact ih _ _

end Process

namespace Process

variable {σ ε ρ α β : Type}

/-- Beside nobody, with a supply of replies that the contract allows, a process comes to its end. -/
theorem wp.exists_eval {C : Contract σ ρ} {p : Process σ ε ρ α} {s₀ s : σ}
    {Q : σ → Except ε α → σ → Prop} (h : wp C p s₀ s Q) (hI : ∀ u t, C.J u t → C.I t)
    (hR : ∀ t, C.R t t) (replies : ℕ → ρ) (hG : ∀ n t, C.G t (replies n)) :
    ∃ n x, p.eval s ((List.range n).map replies) = some x ∧ ∃ u t, Q u x t := by
  induction p generalizing s₀ s replies with
  | ret a => exact ⟨0, _, rfl, s₀, s, h⟩
  | fail e => exact ⟨0, _, rfl, s₀, s, h⟩
  | sync stops state next ih => exact ih s h.2 replies hG
  | await k ih =>
    have hnext := h.2 s (replies 0) (hR s) (hI s₀ s h.1) (hG 0 s)
    obtain ⟨n, x, heval, hQ⟩ := ih _ hnext (fun n => replies (n + 1)) fun n => hG (n + 1)
    refine ⟨n + 1, x, ?_, hQ⟩
    rw [List.range_succ_eq_map, List.map_cons, List.map_map]
    exact heval

/-- The process comes from one state to its end in another, while the others do what they may. -/
inductive Runs (R : σ → σ → Prop) : Process σ ε ρ α → σ → Except ε α → σ → Prop
  | ret (a : α) (s : σ) : Runs R (.ret a) s (.ok a) s
  | fail (e : ε) (s : σ) : Runs R (.fail e) s (.error e) s
  | sync {stops : σ → List σ} {state : σ → σ} {next : σ → Process σ ε ρ α} {s t : σ}
      {x : Except ε α} (rest : Runs R (next s) (state s) x t) :
      Runs R (.sync stops state next) s x t
  | await {k : ρ → Process σ ε ρ α} {s s' t : σ} {r : ρ} {x : Except ε α} (others : R s s')
      (rest : Runs R (k r) s' x t) : Runs R (.await k) s x t

/-- The rule holds of the runs that the contract is about. -/
theorem wp.of_runs {C : Contract σ ρ} {p : Process σ ε ρ α} {s₀ s t : σ} {x : Except ε α}
    {Q : σ → Except ε α → σ → Prop} (hI : ∀ t, C.I t) (hG : ∀ t r, C.G t r) (h : wp C p s₀ s Q)
    (hr : Runs C.R p s x t) : ∃ u, Q u x t := by
  induction hr generalizing s₀ with
  | ret a s => exact ⟨s₀, h⟩
  | fail e s => exact ⟨s₀, h⟩
  | sync rest ih => exact ih h.2
  | await others rest ih => exact ih (h.2 _ _ others (hI _) (hG _ _))

/-! ## Others that do anything -/

/-- The contract of a process beside others that may do anything. -/
def free : Contract σ ρ where
  J _ _ := True
  I _ := True
  R _ _ := True
  G _ _ := True
  S _ := True

/-- Whatever the others do and the replies are, a process that begins in `s` ends with a result that
satisfies `P`. -/
def Always (s : σ) (p : Process σ ε ρ α) (P : Except ε α → Prop) : Prop :=
  wp free p s s fun _ r _ => P r

theorem always_of_forall {P : Except ε α → Prop} (h : ∀ r, P r) (p : Process σ ε ρ α) (s : σ) :
    Always s p P := by
  have key : ∀ u t, wp free p u t fun _ r _ => P r := by
    induction p with
    | ret a => exact fun _ _ => h _
    | fail e => exact fun _ _ => h _
    | sync stops state next ih => exact fun u t => ⟨fun _ _ _ => trivial, ih t _ _⟩
    | await k ih => exact fun u t => ⟨trivial, fun s' r _ _ _ => ih r _ _⟩
  exact key s s

/-- A value goes on to the second process; an error is the end of both. -/
theorem always_ofExcept_bind {P : Except ε β → Prop} (x : Except ε α) (f : α → Process σ ε ρ β) :
    Always s (ofExcept x >>= f) P ↔
      match x with
      | .ok a => Always s (f a) P
      | .error e => P (.error e) := by
  cases x <;> exact Iff.rfl

@[simp] theorem always_read_bind {P : Except ε α → Prop} (f : σ → Process σ ε ρ α) :
    Always s (ofSpan Span.read >>= f) P ↔ Always s (f s) P := by
  unfold Always
  rw [wp_bind, wp_ofSpan, Span.wp_read]
  exact Iff.rfl

/-- One process after another, when the first ends with a value in `A` or with an error in `P`. -/
theorem Always.bind {p : Process σ ε ρ α} {f : α → Process σ ε ρ β} {A : α → Prop}
    {P : Except ε β → Prop}
    (hp : Always s p fun r => (∀ a, r = .ok a → A a) ∧ ∀ e, r = .error e → P (.error e))
    (hf : ∀ a, A a → ∀ t, Always t (f a) P) : Always s (p >>= f) P := by
  -- The contract does not look at the state in which the span began.
  have hstart : ∀ {q : Process σ ε ρ β} {u v t : σ}, wp free q u t (fun _ r _ => P r) →
      wp free q v t fun _ r _ => P r := by
    intro q
    induction q with
    | ret b => exact id
    | fail e => exact id
    | sync stops state next ih => exact fun h => ⟨fun _ _ _ => trivial, ih _ h.2⟩
    | await k _ => exact fun h => ⟨trivial, h.2⟩
  unfold Always
  rw [wp_bind]
  refine wp.mono hp fun u r t h => ?_
  cases r with
  | ok a => exact hstart (hf a (h.1 a rfl) t)
  | error e => exact h.2 e rfl

/-! ## States that others leave -/

/-- The end of a process, with the state at its end, when it is resumed at each suspension point in
the next of the states, with the reply beside it; `none` if there are too few. -/
def evalAmong : Process σ ε ρ α → σ → List (σ × ρ) → Option (Except ε α × σ)
  | .ret a, s, _ => some (.ok a, s)
  | .fail e, s, _ => some (.error e, s)
  | .sync _ state next, s, xs => (next s).evalAmong (state s) xs
  | .await k, _, x :: xs => (k x.2).evalAmong x.1 xs
  | .await _, _, [] => none

/-- The contract of a process that waits in states of `V`, and is resumed in such states. -/
def among (V : σ → Prop) : Contract σ ρ where
  J _ := V
  I := V
  R _ _ := True
  G _ _ := True
  S _ := True

/-- A process that goes on from `s`, and is resumed in states of `V`, waits and ends in such states;
its value, if it has one, satisfies `P` there. -/
def Among (V : σ → Prop) (s : σ) (p : Process σ ε ρ α) (P : σ → α → Prop) : Prop :=
  ∀ s₀, wp (among V) p s₀ s fun _ r t => V t ∧ ∀ a, r = .ok a → P t a

section Among

variable {V : σ → Prop} {P P' : σ → α → Prop}

theorem Among.mono {p : Process σ ε ρ α} (h : Among V s p P) (hP : ∀ t a, V t → P t a → P' t a) :
    Among V s p P' := fun s₀ =>
  wp.mono (h s₀) fun _ _ t h => ⟨h.1, fun a ha => hP t a h.1 (h.2 a ha)⟩

theorem among_pure (hs : V s) {a : α} (h : P s a) : Among V s (pure a : Process σ ε ρ α) P :=
  fun _ => ⟨hs, fun _ ha => by cases ha; exact h⟩

theorem among_fail (hs : V s) (e : ε) : Among V s (.fail e : Process σ ε ρ α) P :=
  fun _ => ⟨hs, fun _ ha => nomatch ha⟩

theorem among_ofExcept (hs : V s) {x : Except ε α} (h : ∀ a, x = .ok a → P s a) :
    Among V s (ofExcept x : Process σ ε ρ α) P := by
  cases x with
  | ok a => exact among_pure hs (h a rfl)
  | error e => exact among_fail hs e

theorem among_ask (hs : V s) {P : σ → ρ → Prop} (h : ∀ t r, V t → P t r) :
    Among V s (ask : Process σ ε ρ ρ) P :=
  fun _ => ⟨hs, fun t r _ hI _ => ⟨hI, fun _ ha => by cases ha; exact h t _ hI⟩⟩

theorem Among.bind {p : Process σ ε ρ α} {f : α → Process σ ε ρ β} {Q : σ → β → Prop}
    (hp : Among V s p P) (hf : ∀ t a, V t → P t a → Among V t (f a) Q) : Among V s (p >>= f) Q := by
  intro s₀
  rw [wp_bind]
  refine wp.mono (hp s₀) fun u r t h => ?_
  cases r with
  | ok a => exact hf t a h.1 (h.2 a rfl) u
  | error e => exact ⟨h.1, fun _ hb => nomatch hb⟩

@[simp] theorem among_read_bind {f : σ → Process σ ε ρ α} :
    Among V s (ofSpan Span.read >>= f) P ↔ Among V s (f s) P := by
  unfold Among
  simp only [wp_bind, wp_ofSpan, Span.wp_read]
  exact Iff.rfl

/-- So it is with a run that is given its states. -/
theorem Among.of_evalAmong {p : Process σ ε ρ α} (h : Among V s p P) {xs : List (σ × ρ)}
    (hV : ∀ x ∈ xs, V x.1) {a : α} {t : σ} (he : p.evalAmong s xs = some (.ok a, t)) :
    V t ∧ P t a := by
  have key : ∀ {p : Process σ ε ρ α} {u s : σ} {xs : List (σ × ρ)}, (∀ x ∈ xs, V x.1) →
      wp (among V) p u s (fun _ r t => V t ∧ ∀ a, r = .ok a → P t a) →
      p.evalAmong s xs = some (.ok a, t) → V t ∧ P t a := by
    intro p
    induction p with
    | ret b =>
      intro u s xs _ h he
      simp only [evalAmong, Option.some.injEq, Prod.mk.injEq, Except.ok.injEq] at he
      obtain ⟨rfl, rfl⟩ := he
      exact ⟨h.1, h.2 _ rfl⟩
    | fail e =>
      intro u s xs _ _ he
      simp [evalAmong] at he
    | sync stops state next ih => exact fun hV h he => ih _ hV h.2 he
    | await k ih =>
      intro u s xs hV h he
      cases xs with
      | nil => simp [evalAmong] at he
      | cons x xs =>
        have hx : V x.1 := hV x (by simp)
        exact ih x.2 (fun y hy => hV y (by simp [hy])) (h.2 x.1 x.2 trivial hx trivial) he
  exact key hV (h s) he

/-- So it is with a run that nobody disturbs. -/
theorem Among.of_eval {p : Process σ ε ρ α} (h : Among (· = s) s p P) {rs : List ρ} {a : α}
    (he : p.eval s rs = some (.ok a)) : P s a := by
  have key : ∀ {p : Process σ ε ρ α} {u t : σ} {rs : List ρ},
      wp (among (· = s)) p u t (fun _ r t => t = s ∧ ∀ a, r = .ok a → P t a) →
      p.eval t rs = some (.ok a) → P s a := by
    intro p
    induction p with
    | ret b =>
      rintro u t rs ⟨rfl, hend⟩ he
      exact hend a (by simpa [eval] using he)
    | fail e => exact fun _ he => by simp [eval] at he
    | sync stops state next ih => exact fun h he => ih _ h.2 he
    | await k ih =>
      intro u t rs h he
      cases rs with
      | nil => simp [eval] at he
      | cons r rs => exact ih r (h.2 t r trivial h.1 trivial) he
  exact key (h s) he

end Among

/-! ### Guarantees -/

variable {J : σ → σ → Prop}

end Process

/-! ## A system of one process and the others -/

/-- A state, and the process that waits in it, if there is one. -/
structure Sys (σ ε ρ α : Type) where
  state : σ
  running : Option (ρ → Process σ ε ρ α)

namespace Sys

variable {σ ε ρ α : Type}

/-- The system after a process ran to its next suspension point. -/
def ofPause (p : Process.Pause σ ε ρ α) : Sys σ ε ρ α := ⟨p.state, p.rest.waiting⟩

/-- A step: of the others (`E`), of a process that begins (`B`) or that gets a reply (`G`), with
the process stopped within the span where it may be (`S`), or the end of a process that waits. -/
inductive Step (E : σ → σ → Prop) (B : σ → Process σ ε ρ α → Prop) (G : σ → ρ → Prop)
    (S : σ → Prop) : Sys σ ε ρ α → Sys σ ε ρ α → Prop
  | other {s t k} (h : E s t) : Step E B G S ⟨s, k⟩ ⟨t, k⟩
  | begin {s p} (h : B s p) : Step E B G S ⟨s, none⟩ (ofPause (p.advance s))
  | beginStop {s p t} (h : B s p) (ht : t ∈ (p.advance s).stops) (hS : S t) :
      Step E B G S ⟨s, none⟩ ⟨t, none⟩
  | resume {s k r} (h : G s r) : Step E B G S ⟨s, some k⟩ (ofPause ((k r).advance s))
  | resumeStop {s k r t} (h : G s r) (ht : t ∈ ((k r).advance s).stops) (hS : S t) :
      Step E B G S ⟨s, some k⟩ ⟨t, none⟩
  | kill {s k} : Step E B G S ⟨s, some k⟩ ⟨s, none⟩

/-- What is kept along the steps: the invariant of the states, and the rule of the process that
waits. -/
def Sound (C : Process.Contract σ ρ) (x : Sys σ ε ρ α) : Prop :=
  C.I x.state ∧ ∀ k, x.running = some k → ∀ s' r, C.R x.state s' → C.I s' → C.G s' r →
    (k r).wp C s' s' fun u _ t => C.J u t

/-- What the rule of processes needs of a system. -/
structure Rules (C : Process.Contract σ ρ) (E : σ → σ → Prop) (B : σ → Process σ ε ρ α → Prop) :
    Prop where
  refl : ∀ s, C.R s s
  trans : ∀ s t u, C.R s t → C.R t u → C.R s u
  /-- A span keeps the invariant. -/
  keeps : ∀ s t, C.I s → C.J s t → C.I t
  /-- So do the others, which do no more than a waiting process allows. -/
  other : ∀ s t, C.I s → E s t → C.I t ∧ C.R s t
  /-- A process that begins satisfies the rule. -/
  begins : ∀ s p, C.I s → B s p → p.wp C s s fun u _ t => C.J u t

variable {C : Process.Contract σ ρ} {E : σ → σ → Prop} {B : σ → Process σ ε ρ α → Prop}

theorem ofPause_sound (hC : Rules C E B) {s : σ} (hI : C.I s) {p : Process σ ε ρ α}
    (h : p.wp C s s fun u _ t => C.J u t) :
    Sound C (ofPause (p.advance s)) ∧ C.J s (p.advance s).state := by
  obtain ⟨-, hrest⟩ := h.advance
  cases hp : (p.advance s).rest with
  | ret a =>
    rw [hp] at hrest
    exact ⟨⟨hC.keeps s _ hI hrest, by simp [ofPause, hp, Process.waiting]⟩, hrest⟩
  | fail e =>
    rw [hp] at hrest
    exact ⟨⟨hC.keeps s _ hI hrest, by simp [ofPause, hp, Process.waiting]⟩, hrest⟩
  | sync stops state next => exact absurd hp (Process.advance_rest_ne_sync p s _ _ _)
  | await k =>
    rw [hp] at hrest
    refine ⟨⟨hC.keeps s _ hI hrest.1, fun k' hk => ?_⟩, hrest.1⟩
    simp only [ofPause, hp, Process.waiting, Option.some.injEq] at hk
    exact hk ▸ hrest.2

/-- A step keeps the invariant and the rule of the waiting process; and it is one of the others, a
span, or the end of a process. -/
theorem Step.sound (hC : Rules C E B) {x y : Sys σ ε ρ α} (hx : Sound C x)
    (h : Step E B C.G C.S x y) :
    Sound C y ∧ (E x.state y.state ∨ C.J x.state y.state ∨ x.state = y.state) := by
  obtain ⟨hI, hk⟩ := hx
  cases h with
  | other hE =>
    obtain ⟨hI', hR⟩ := hC.other _ _ hI hE
    exact ⟨⟨hI', fun k hk' s' r hR' => hk k hk' s' r (hC.trans _ _ _ hR hR')⟩, .inl hE⟩
  | begin hB =>
    obtain ⟨hs, hJ⟩ := ofPause_sound hC hI (hC.begins _ _ hI hB)
    exact ⟨hs, .inr (.inl hJ)⟩
  | beginStop hB ht hS =>
    have hJ := (hC.begins _ _ hI hB).advance.1 _ ht hS
    exact ⟨⟨hC.keeps _ _ hI hJ, by simp⟩, .inr (.inl hJ)⟩
  | resume hG =>
    obtain ⟨hs, hJ⟩ := ofPause_sound hC hI (hk _ rfl _ _ (hC.refl _) hI hG)
    exact ⟨hs, .inr (.inl hJ)⟩
  | resumeStop hG ht hS =>
    have hJ := (hk _ rfl _ _ (hC.refl _) hI hG).advance.1 _ ht hS
    exact ⟨⟨hC.keeps _ _ hI hJ, by simp⟩, .inr (.inl hJ)⟩
  | kill => exact ⟨⟨hI, by simp⟩, .inr (.inr rfl)⟩

/-- Along any number of steps. -/
theorem sound_of_steps (hC : Rules C E B) {x y : Sys σ ε ρ α} (hx : Sound C x)
    (h : Relation.ReflTransGen (Step E B C.G C.S) x y) : Sound C y := by
  induction h with
  | refl => exact hx
  | tail _ hstep ih => exact (Step.sound hC ih hstep).1

/-! ### Computed runs -/

/-- The system after the waiting process got a reply. -/
def resumed (x : Sys σ ε ρ α) (r : ρ) : Sys σ ε ρ α :=
  match x.running with
  | none => x
  | some k => ofPause ((k r).advance x.state)

/-- The system after the waiting process got replies in turn. -/
def feed : Sys σ ε ρ α → List ρ → Sys σ ε ρ α
  | x, [] => x
  | x, r :: rs => feed (x.resumed r) rs

/-- There is a process to take each of the replies, and `g` allows them. -/
def feeds (g : σ → ρ → Bool) : Sys σ ε ρ α → List ρ → Bool
  | _, [] => true
  | x, r :: rs => x.running.isSome && g x.state r && feeds g (x.resumed r) rs

variable {G : σ → ρ → Prop} {S : σ → Prop} {x : Sys σ ε ρ α}

end Sys

end Sql
