import Mathlib.Logic.Basic

/-!
# Programs over a state that may fail

A program `StateT σ (Except ε) α` reads and writes a state and ends with a value or an error; an
error forgets the state. `Ends E m Q s` says how the program `m` ends from the state `s`: with a
value and a state in `Q`, or with an error in `E`. The rules take a program apart along its binds,
so a function of the model has one lemma of this form, and its callers use that lemma.
-/

namespace Fallible

variable {σ ε α β : Type} {E : ε → Prop} {Q : α → σ → Prop} {R : β → σ → Prop} {s s' : σ}

/-- From `s` the program ends with a value and a state in `Q`, or with an error in `E`. -/
def Ends (E : ε → Prop) (m : StateT σ (Except ε) α) (Q : α → σ → Prop) (s : σ) : Prop :=
  match m s with
  | .ok (a, s') => Q a s'
  | .error e => E e

/-- A result of the libraries, with their errors made errors of the program. -/
def ofExcept {δ : Type} (f : δ → ε) (x : Except δ α) : StateT σ (Except ε) α := fun s =>
  match x with
  | .ok a => .ok (a, s)
  | .error e => .error (f e)

@[simp] theorem ends_pure {a : α} : Ends E (pure a : StateT σ (Except ε) α) Q s ↔ Q a s := Iff.rfl

@[simp] theorem ends_get {Q : σ → σ → Prop} : Ends E (get : StateT σ (Except ε) σ) Q s ↔
    Q s s := Iff.rfl

@[simp] theorem ends_set {Q : PUnit → σ → Prop} :
    Ends E (set s' : StateT σ (Except ε) PUnit) Q s ↔ Q ⟨⟩ s' := Iff.rfl

@[simp] theorem ends_modify {f : σ → σ} {Q : PUnit → σ → Prop} :
    Ends E (modify f : StateT σ (Except ε) PUnit) Q s ↔ Q ⟨⟩ (f s) := Iff.rfl

@[simp] theorem ends_bind {m : StateT σ (Except ε) α} {f : α → StateT σ (Except ε) β} :
    Ends E (m >>= f) R s ↔ Ends E m (fun a => Ends E (f a) R) s := by
  unfold Ends
  simp only [bind, StateT.bind, Except.bind]
  cases m s with
  | ok r => rfl
  | error e => rfl

/-- A result of the libraries is given in the same state. -/
theorem ends_ofExcept {δ : Type} {f : δ → ε} {x : Except δ α} (hok : ∀ a, x = .ok a → Q a s)
    (herr : ∀ e, x = .error e → E (f e)) : Ends E (ofExcept f x) Q s := by
  cases x with
  | ok a => exact hok a rfl
  | error e => exact herr e rfl

/-- How a program ends, said less exactly. -/
theorem Ends.mono {m : StateT σ (Except ε) α} {Q' : α → σ → Prop} (h : Ends E m Q s)
    (hQ : ∀ a s', Q a s' → Q' a s') : Ends E m Q' s := by
  unfold Ends at h ⊢
  cases hm : m s with
  | ok r =>
    rw [hm] at h
    exact hQ _ _ h
  | error e =>
    rw [hm] at h
    exact h

/-- The rule of a call: the caller goes on from how the callee ends. -/
theorem Ends.bind {m : StateT σ (Except ε) α} {f : α → StateT σ (Except ε) β} (h : Ends E m Q s)
    (hf : ∀ a s', Q a s' → Ends E (f a) R s') : Ends E (m >>= f) R s :=
  ends_bind.mpr (h.mono hf)

theorem Ends.of_ok {m : StateT σ (Except ε) α} {a : α} (h : Ends E m Q s) (hm : m s = .ok (a, s')) :
    Q a s' := by
  unfold Ends at h
  rw [hm] at h
  exact h

theorem Ends.of_error {m : StateT σ (Except ε) α} {e : ε} (h : Ends E m Q s) (hm : m s = .error e) :
    E e := by
  unfold Ends at h
  rw [hm] at h
  exact h

end Fallible
