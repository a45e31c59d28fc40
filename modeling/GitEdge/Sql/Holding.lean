import GitEdge.Sql.Process

/-!
# Invariants of spans and of processes

The rules of spans and of processes where a statement may leave anything that keeps an invariant
`I`. A process that holds `I` may be stopped after any statement and killed at any suspension point,
while the others do `R`; what it found out about the state is `P`, which may speak of the value that
it ended with. A system of such processes keeps the invariant (`Sys.holding_of_steps`).
-/

namespace Sql

namespace Span

variable {σ ε α β : Type} {I : σ → Prop} {s : σ} {P P' : α → σ → Prop}

/-- From `s`, the span keeps `I` at each statement and at its end, and a value that it ends with
satisfies `P` there. -/
def Holds (I : σ → Prop) (s : σ) (x : Span σ ε α) (P : α → σ → Prop) : Prop :=
  x.wp I s fun r t => I t ∧ ∀ a, r = .ok a → P a t

theorem Holds.mono {x : Span σ ε α} (h : Holds I s x P) (hP : ∀ a t, I t → P a t → P' a t) :
    Holds I s x P' :=
  wp.mono h fun _ t h => ⟨h.1, fun a ha => hP a t h.1 (h.2 a ha)⟩

theorem holds_pure {a : α} (hs : I s) (h : P a s) : Holds I s (pure a : Span σ ε α) P :=
  (wp_pure a s).mpr ⟨hs, fun _ ha => by cases ha; exact h⟩

theorem holds_fail {e : ε} (hs : I s) : Holds I s (fail e : Span σ ε α) P :=
  (wp_fail e s).mpr ⟨hs, fun _ ha => nomatch ha⟩

theorem holds_exec {f : σ → σ} {P : Unit → σ → Prop} (hs : I (f s)) (h : P () (f s)) :
    Holds I s (exec f : Span σ ε Unit) P :=
  (wp_exec f s _).mpr ⟨hs, hs, fun _ _ => h⟩

theorem Holds.bind {x : Span σ ε α} {f : α → Span σ ε β} {Q : β → σ → Prop} (hx : Holds I s x P)
    (hf : ∀ a t, I t → P a t → Holds I t (f a) Q) : Holds I s (x >>= f) Q := by
  refine wp_bind.mpr (wp.mono hx fun r t h => ?_)
  cases r with
  | ok a => exact hf a t h.1 (h.2 a rfl)
  | error e => exact ⟨h.1, fun _ hb => nomatch hb⟩

@[simp] theorem holds_read_bind {f : σ → Span σ ε α} :
    Holds I s (read >>= f) P ↔ Holds I s (f s) P := by
  unfold Holds
  rw [wp_bind, wp_read, after_ok]

theorem holds_exec_bind {g : σ → σ} {f : Unit → Span σ ε α} (hs : I (g s))
    (h : Holds I (g s) (f ()) P) : Holds I s (exec g >>= f) P :=
  (holds_exec (P := fun _ t => t = g s) hs rfl).bind fun _ t _ ht => by rw [ht]; exact h

theorem Keeps.holds {x : Span σ ε α} (h : Keeps I x) (hs : I s) : Holds I s x fun _ t => I t :=
  (h.wp hs fun _ ht => ht).mono fun _ _ ht => ⟨ht, fun _ _ => ht⟩

theorem keeps_of_holds {x : Span σ ε α} (h : ∀ s, I s → Holds I s x fun _ _ => True) :
    Keeps I x := fun s hs => ⟨(h s hs).1, (h s hs).2.1⟩

/-- The state at the end is that of the run. -/
theorem Holds.run {x : Span σ ε α} (h : Holds I s x P) :
    Holds I s x fun a t => P a t ∧ t = (x.run s).state :=
  ⟨h.1, h.2.1, fun a ha => ⟨h.2.2 a ha, rfl⟩⟩

/-- A weaker invariant holds too. -/
theorem Holds.weaken {I' : σ → Prop} {x : Span σ ε α} (h : Holds I s x P) (hI : ∀ t, I t → I' t) :
    Holds I' s x P :=
  ⟨fun t ht => hI t (h.1 t ht), hI _ h.2.1, h.2.2⟩

/-- As `Holds`, for a span that is stopped in states of `S` only: in the others `I` may be broken
between two statements. -/
def HoldsAt (S I : σ → Prop) (s : σ) (x : Span σ ε α) (P : α → σ → Prop) : Prop :=
  x.wp (fun t => S t → I t) s fun r t => I t ∧ ∀ a, r = .ok a → P a t

variable {S : σ → Prop}

theorem Holds.holdsAt {x : Span σ ε α} (h : Holds I s x P) : HoldsAt S I s x P :=
  ⟨fun t ht _ => h.1 t ht, h.2⟩

theorem HoldsAt.mono {x : Span σ ε α} (h : HoldsAt S I s x P) (hP : ∀ a t, I t → P a t → P' a t) :
    HoldsAt S I s x P' :=
  wp.mono h fun _ t h => ⟨h.1, fun a ha => hP a t h.1 (h.2 a ha)⟩

theorem HoldsAt.bind {x : Span σ ε α} {f : α → Span σ ε β} {Q : β → σ → Prop}
    (hx : HoldsAt S I s x P) (hf : ∀ a t, I t → P a t → HoldsAt S I t (f a) Q) :
    HoldsAt S I s (x >>= f) Q := by
  refine wp_bind.mpr (wp.mono hx fun r t h => ?_)
  cases r with
  | ok a => exact hf a t h.1 (h.2 a rfl)
  | error e => exact ⟨h.1, fun _ hb => nomatch hb⟩

@[simp] theorem holdsAt_read_bind {f : σ → Span σ ε α} :
    HoldsAt S I s (read >>= f) P ↔ HoldsAt S I s (f s) P := by
  unfold HoldsAt
  rw [wp_bind, wp_read, after_ok]

theorem holdsAt_exec_bind {g : σ → σ} {f : Unit → Span σ ε α} (hs : S (g s) → I (g s))
    (h : HoldsAt S I (g s) (f ()) P) : HoldsAt S I s (exec g >>= f) P := by
  unfold HoldsAt
  rw [wp_bind, wp_exec]
  exact ⟨hs, h⟩

/-- A statement for each element of a list, where the span is not stopped. -/
theorem holdsAt_each_bind {g : β → σ → σ} {l : List β} {f : Unit → Span σ ε α} (hS : ∀ t, ¬ S t)
    (h : HoldsAt S I (l.foldl (fun t b => g b t) s) (f ()) P) :
    HoldsAt S I s (each (fun b => exec (g b)) l >>= f) P := by
  induction l generalizing s with
  | nil => exact h
  | cons b l ih =>
    rw [each, Span.bind_assoc]
    exact holdsAt_exec_bind (fun hs => absurd hs (hS _)) (ih h)

end Span

namespace Process

variable {σ ε ρ α β : Type} {I : σ → Prop} {R : σ → σ → Prop} {s : σ} {P P' : α → σ → Prop}

/-- The contract of a process that keeps `I` while the others do `R`, whatever the replies are, and
that may be stopped after any statement. -/
def holding (I : σ → Prop) (R : σ → σ → Prop) : Contract σ ρ where
  J _ t := I t
  I := I
  R := R
  G _ _ := True
  S _ := True

/-- From `s` on, the process keeps `I` at each statement and at each suspension point, and a value
that it ends with satisfies `P` there. -/
def Holds (I : σ → Prop) (R : σ → σ → Prop) (s : σ) (p : Process σ ε ρ α) (P : α → σ → Prop) :
    Prop :=
  ∀ s₀, wp (holding I R) p s₀ s fun _ r t => I t ∧ ∀ a, r = .ok a → P a t

theorem holds_pure {a : α} (hs : I s) (h : P a s) : Holds I R s (pure a : Process σ ε ρ α) P :=
  fun _ => ⟨hs, fun _ ha => by cases ha; exact h⟩

theorem holds_fail {e : ε} (hs : I s) : Holds I R s (.fail e : Process σ ε ρ α) P :=
  fun _ => ⟨hs, fun _ ha => nomatch ha⟩

theorem Holds.bind {p : Process σ ε ρ α} {f : α → Process σ ε ρ β} {Q : β → σ → Prop}
    (hp : Holds I R s p P) (hf : ∀ a t, I t → P a t → Holds I R t (f a) Q) :
    Holds I R s (p >>= f) Q := by
  intro s₀
  rw [wp_bind]
  refine wp.mono (hp s₀) fun u r t h => ?_
  cases r with
  | ok a => exact hf a t h.1 (h.2 a rfl) u
  | error e => exact ⟨h.1, fun _ hb => nomatch hb⟩

@[simp] theorem holds_read_bind {f : σ → Process σ ε ρ α} :
    Holds I R s (ofSpan Span.read >>= f) P ↔ Holds I R s (f s) P := by
  unfold Holds
  simp only [wp_bind, wp_ofSpan, Span.wp_read]
  exact Iff.rfl

/-- The contract of a process that keeps `I`, whatever the others do that keeps it too, and that is
stopped in states of `S` only. -/
def holdingAt (S I : σ → Prop) : Contract σ ρ where
  J _ t := I t
  I := I
  R _ _ := True
  G _ _ := True
  S := S

/-- From `s` on, the process keeps `I` where it waits, where it ends and where it may be stopped. -/
def HoldsAt (S I : σ → Prop) (s : σ) (p : Process σ ε ρ α) (P : α → σ → Prop) : Prop :=
  ∀ s₀, wp (holdingAt S I) p s₀ s fun _ r t => I t ∧ ∀ a, r = .ok a → P a t

variable {S : σ → Prop}

theorem holdsAt_pure {a : α} (hs : I s) (h : P a s) : HoldsAt S I s (pure a : Process σ ε ρ α) P :=
  fun _ => ⟨hs, fun _ ha => by cases ha; exact h⟩

theorem holdsAt_fail {e : ε} (hs : I s) : HoldsAt S I s (.fail e : Process σ ε ρ α) P :=
  fun _ => ⟨hs, fun _ ha => nomatch ha⟩

theorem holdsAt_ask (hs : I s) : HoldsAt S I s (ask : Process σ ε ρ ρ) fun _ _ => True :=
  fun _ => ⟨hs, fun _ _ _ hI _ => ⟨hI, fun _ _ => trivial⟩⟩

theorem holdsAt_ofSpan {x : Span σ ε α} (h : x.HoldsAt S I s P) :
    HoldsAt S I s (ofSpan x : Process σ ε ρ α) P := fun s₀ => (wp_ofSpan x s₀ s _).mpr h

theorem holdsAt_keeps {x : Span σ ε α} (hx : x.Keeps I) (hs : I s) :
    HoldsAt S I s (ofSpan x : Process σ ε ρ α) fun _ _ => True :=
  holdsAt_ofSpan ((hx.holds hs).holdsAt.mono fun _ _ _ _ => trivial)

theorem HoldsAt.bind {p : Process σ ε ρ α} {f : α → Process σ ε ρ β} {Q : β → σ → Prop}
    (hp : HoldsAt S I s p P) (hf : ∀ a t, I t → P a t → HoldsAt S I t (f a) Q) :
    HoldsAt S I s (p >>= f) Q := by
  intro s₀
  rw [wp_bind]
  refine wp.mono (hp s₀) fun u r t h => ?_
  cases r with
  | ok a => exact hf a t h.1 (h.2 a rfl) u
  | error e => exact ⟨h.1, fun _ hb => nomatch hb⟩

@[simp] theorem holdsAt_read_bind {f : σ → Process σ ε ρ α} :
    HoldsAt S I s (ofSpan Span.read >>= f) P ↔ HoldsAt S I s (f s) P := by
  unfold HoldsAt
  simp only [wp_bind, wp_ofSpan, Span.wp_read]
  exact Iff.rfl

end Process

namespace Sys

variable {σ ε ρ α : Type} {I : σ → Prop} {R E : σ → σ → Prop} {B : σ → Process σ ε ρ α → Prop}

/-- So does one whose processes are stopped in states of `S` only. -/
theorem holdingAt_of_steps {S : σ → Prop} (hother : ∀ s t, I s → E s t → I t)
    (hbegin : ∀ s p, I s → B s p → p.HoldsAt S I s fun _ _ => True) {s : σ} (hs : I s)
    {y : Sys σ ε ρ α}
    (h : Relation.ReflTransGen (Step E B (fun _ _ => True) S) ⟨s, none⟩ y) : I y.state := by
  have hrules : Rules (Process.holdingAt S I) E B :=
    { refl := fun _ => trivial
      trans := fun _ _ _ _ _ => trivial
      keeps := fun _ _ _ hJ => hJ
      other := fun s t hI hE => ⟨hother s t hI hE, trivial⟩
      begins := fun s p hI hB => ((hbegin s p hI hB) s).mono fun _ _ _ h => h.1 }
  have hstart : Sound (Process.holdingAt S I) (⟨s, none⟩ : Sys σ ε ρ α) :=
    ⟨hs, fun k hk => nomatch hk⟩
  exact (sound_of_steps hrules hstart h).1

end Sys

end Sql
