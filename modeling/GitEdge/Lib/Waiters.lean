import Mathlib.Data.List.Perm.Basic
import Mathlib.Data.List.Basic
import Mathlib.Tactic.Ring

/-!
# Work lists with waiters

A work list hands its elements to a step, one after another. The step finishes an element, which
gives a key, or it reports the key of something that must be finished first. In the second case the
element waits for the key, and when the key is given, all its waiters go to the end of the list.

`run` is the loop with fuel; `run_isSome` bounds the fuel by the number of elements alone, whatever
the step does. `Keeps` is the rule of invariants: the invariant speaks of the elements finished so
far with the keys they gave, and `Keeps.run_ok` says where each element is at the end.
-/

namespace Waiters

variable {ι κ σ ε : Type}

/-- What a step did with an element. -/
inductive Step (κ : Type) where
  | done (k : κ)
  | await (k : κ)
deriving DecidableEq, Repr

variable [DecidableEq κ]

/-- The elements that wait for a key, in the order in which they began to. -/
def woken (k : κ) (waiting : List (κ × ι)) : List ι :=
  (waiting.filter fun w => w.1 = k).map (·.2)

/-- Those that wait for another key. -/
def asleep (k : κ) (waiting : List (κ × ι)) : List (κ × ι) := waiting.filter fun w => ¬w.1 = k

/-- The loop: what waits at the end, and the state; `none` when the fuel is spent. -/
def run (step : ι → σ → Except ε (Step κ × σ)) :
    ℕ → List ι → List (κ × ι) → σ → Option (Except ε (List (κ × ι) × σ))
  | 0, _, _, _ => none
  | _ + 1, [], waiting, s => some (.ok (waiting, s))
  | fuel + 1, i :: todo, waiting, s =>
    match step i s with
    | .error e => some (.error e)
    | .ok (.done k, s') => run step fuel (todo ++ woken k waiting) (asleep k waiting) s'
    | .ok (.await k, s') => run step fuel todo (waiting ++ [(k, i)]) s'

/-- The waiters of a key and the others are all that wait. -/
theorem woken_perm (k : κ) (waiting : List (κ × ι)) :
    (woken k waiting ++ (asleep k waiting).map (·.2)).Perm (waiting.map (·.2)) := by
  unfold woken asleep
  rw [← List.map_append]
  apply List.Perm.map
  have h := List.filter_append_perm (fun w : κ × ι => decide (w.1 = k)) waiting
  simpa only [decide_not] using h

theorem woken_length (k : κ) (waiting : List (κ × ι)) :
    (woken k waiting).length + (asleep k waiting).length = waiting.length := by
  have h := (woken_perm k waiting).length_eq
  simpa only [List.length_append, List.length_map] using h

variable {step : ι → σ → Except ε (Step κ × σ)}

/-! ## The fuel -/

/-- The loop ends, whatever the step does: an element that is finished never comes back, and between
two that are finished each of the others can begin to wait only once. -/
theorem run_isSome {fuel : ℕ} {todo : List ι} {waiting : List (κ × ι)} {s : σ}
    (h : (todo.length + waiting.length) ^ 2 + todo.length < fuel) :
    (run step fuel todo waiting s).isSome := by
  induction fuel generalizing todo waiting s with
  | zero => omega
  | succ fuel ih =>
    cases todo with
    | nil => rfl
    | cons i todo =>
      unfold run
      rw [List.length_cons] at h
      split
      · rfl
      · next k s' _ =>
        apply ih
        have hlen := woken_length k waiting
        rw [List.length_append]
        have hall : todo.length + (woken k waiting).length + (asleep k waiting).length =
            todo.length + waiting.length := by omega
        rw [hall]
        have hexp : (todo.length + 1 + waiting.length) ^ 2 = (todo.length + waiting.length) ^ 2 +
            2 * (todo.length + waiting.length) + 1 := by ring
        omega
      · next k s' _ =>
        apply ih
        rw [List.length_append, List.length_singleton]
        have hall : todo.length + (waiting.length + 1) = todo.length + 1 +
          waiting.length := by omega
        rw [hall]
        omega

/-- More fuel changes nothing. -/
theorem run_succ {fuel : ℕ} {todo : List ι} {waiting : List (κ × ι)} {s : σ}
    {r : Except ε (List (κ × ι) × σ)} (h : run step fuel todo waiting s = some r) :
    run step (fuel + 1) todo waiting s = some r := by
  induction fuel generalizing todo waiting s with
  | zero => cases h
  | succ fuel ih =>
    cases todo with
    | nil => exact h
    | cons i todo =>
      unfold run at h ⊢
      split
      · next e he =>
        rw [he] at h
        exact h
      · next k s' he =>
        rw [he] at h
        exact ih h
      · next k s' he =>
        rw [he] at h
        exact ih h

theorem run_mono {fuel fuel' : ℕ} {todo : List ι} {waiting : List (κ × ι)} {s : σ}
    {r : Except ε (List (κ × ι) × σ)} (h : run step fuel todo waiting s = some r)
    (hle : fuel ≤ fuel') : run step fuel' todo waiting s = some r := by
  induction hle with
  | refl => exact h
  | step _ ih => exact run_succ ih

/-! ## Invariants -/

/-- The step keeps `I`, of the elements that are finished, with their keys, and the state; an
element that begins to wait is in `W` with its key, which is not given yet; and errors are in
`E`. -/
structure Keeps (step : ι → σ → Except ε (Step κ × σ)) (I : List (ι × κ) → σ → Prop)
    (W : ι → κ → Prop) (E : ε → Prop) : Prop where
  done : ∀ i fin s k s', I fin s → step i s = .ok (.done k, s') → I (fin ++ [(i, k)]) s'
  await : ∀ i fin s k s', I fin s → step i s = .ok (.await k, s') →
    I fin s' ∧ W i k ∧ k ∉ fin.map (·.2)
  error : ∀ i fin s e, I fin s → step i s = .error e → E e

variable {I : List (ι × κ) → σ → Prop} {W : ι → κ → Prop} {E : ε → Prop}

/-- What is known of those that wait: the key of each is not given. -/
def Wait (W : ι → κ → Prop) (fin : List (ι × κ)) (waiting : List (κ × ι)) : Prop :=
  ∀ w ∈ waiting, W w.2 w.1 ∧ w.1 ∉ fin.map (·.2)

theorem Wait.asleep {fin : List (ι × κ)} {waiting : List (κ × ι)} (h : Wait W fin waiting) (i : ι)
    (k : κ) : Wait W (fin ++ [(i, k)]) (asleep k waiting) := by
  intro w hw
  obtain ⟨hw, hne⟩ := List.mem_filter.mp hw
  obtain ⟨hW, hfin⟩ := h w hw
  have hk : w.1 ≠ k := by simpa using hne
  refine ⟨hW, fun hmem => ?_⟩
  rw [List.map_append, List.mem_append] at hmem
  rcases hmem with hmem | hmem
  · exact hfin hmem
  · exact hk (List.mem_singleton.mp hmem)

omit [DecidableEq κ] in
theorem Wait.snoc {fin : List (ι × κ)} {waiting : List (κ × ι)} (h : Wait W fin waiting) {i : ι}
    {k : κ} (hW : W i k) (hk : k ∉ fin.map (·.2)) : Wait W fin (waiting ++ [(k, i)]) := by
  intro w hw
  rcases List.mem_append.mp hw with hw | hw
  · exact h w hw
  · rw [List.mem_singleton.mp hw]
    exact ⟨hW, hk⟩

/-- At the end of a loop each element is finished once or waits once, and no key for which an
element waits was given. -/
theorem Keeps.run_ok (hstep : Keeps step I W E) {fuel : ℕ} {todo : List ι}
    {waiting waiting' : List (κ × ι)} {fin : List (ι × κ)} {s s' : σ} (hI : I fin s)
    (hwait : Wait W fin waiting) (h : run step fuel todo waiting s = some (.ok (waiting', s'))) :
    ∃ fin', I fin' s' ∧ Wait W fin' waiting' ∧
      (fin'.map (·.1) ++ waiting'.map (·.2)).Perm (fin.map (·.1) ++ todo ++ waiting.map (·.2)) := by
  induction fuel generalizing todo waiting fin s with
  | zero => cases h
  | succ fuel ih =>
    cases todo with
    | nil =>
      cases h
      refine ⟨fin, hI, hwait, ?_⟩
      rw [List.append_nil]
    | cons i todo =>
      unfold run at h
      split at h
      · cases h
      · next k s₁ hs =>
        obtain ⟨fin', hI', hwait', hperm⟩ := ih (hstep.done i fin s k s₁ hI hs) (hwait.asleep i k) h
        refine ⟨fin', hI', hwait', hperm.trans ?_⟩
        -- The element leaves the list for the finished ones, its waiters come to the list.
        have hmid : ([i] ++ todo ++ (woken k waiting ++ (asleep k waiting).map (·.2))).Perm
            ([i] ++ todo ++ waiting.map (·.2)) := (woken_perm k waiting).append_left _
        simpa only [List.map_append, List.map_cons, List.map_nil, List.append_assoc,
          List.nil_append, List.cons_append] using hmid.append_left (fin.map (·.1))
      · next k s₁ hs =>
        obtain ⟨hI₁, hW, hk⟩ := hstep.await i fin s k s₁ hI hs
        obtain ⟨fin', hI', hwait', hperm⟩ := ih hI₁ (hwait.snoc hW hk) h
        refine ⟨fin', hI', hwait', hperm.trans ?_⟩
        rw [List.map_append, List.append_assoc, List.append_assoc]
        apply List.Perm.append_left
        rw [← List.append_assoc, List.cons_append]
        exact (List.perm_append_singleton i _)

/-- An error of a loop is one of a step. -/
theorem Keeps.run_error (hstep : Keeps step I W E) {fuel : ℕ} {todo : List ι}
    {waiting : List (κ × ι)} {fin : List (ι × κ)} {s : σ} {e : ε} (hI : I fin s)
    (h : run step fuel todo waiting s = some (.error e)) : E e := by
  induction fuel generalizing todo waiting fin s with
  | zero => cases h
  | succ fuel ih =>
    cases todo with
    | nil => cases h
    | cons i todo =>
      unfold run at h
      split at h
      · next e' he =>
        cases h
        exact hstep.error i fin s e hI he
      · next k s₁ hs => exact ih (hstep.done i fin s k s₁ hI hs) h
      · next k s₁ hs => exact ih (hstep.await i fin s k s₁ hI hs).1 h

end Waiters
