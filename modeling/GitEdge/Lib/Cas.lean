import Mathlib.Logic.Function.Basic
import Mathlib.Data.List.Pairwise
import Mathlib.Data.List.Chain

/-!
# Batches of compare-and-set commands

A command on a map names a key, the value that it expects there and the value that it puts. A batch
lands when its commands, applied one after another, each find the value that they expect. Judging
every command against the map before the batch is weaker, and `lands_iff` says by how much: a batch
whose commands all pass that test lands exactly when no command changes a key that a later one
names.

A history is a sequence of commands with what was reported of each: done or refused. `Run` is the
sequential meaning of a history, and `Run.chain` reads off it how the value of one key went from
command to command.
-/

namespace Cas

variable {κ ν : Type} [DecidableEq κ]

/-- A compare-and-set command. -/
structure Swap (κ ν : Type) where
  /-- The key. -/
  key : κ
  /-- The value that the command expects. -/
  old : ν
  /-- The value that it puts. -/
  new : ν

/-- The command finds the value that it expects. -/
def Swap.Ok (T : κ → ν) (c : Swap κ ν) : Prop := T c.key = c.old

/-- The map after the command. -/
def Swap.apply (T : κ → ν) (c : Swap κ ν) : κ → ν := Function.update T c.key c.new

/-- The commands, one after another, all find the values that they expect. -/
def Lands : (κ → ν) → List (Swap κ ν) → Prop
  | _, [] => True
  | T, c :: cs => c.Ok T ∧ Lands (c.apply T) cs

/-- A command changes no other key, and none at all when it puts the value that was there. -/
theorem Swap.apply_eq {T : κ → ν} {c : Swap κ ν} {k : κ} (hc : c.Ok T)
    (h : c.key = k → c.old = c.new) : c.apply T k = T k := by
  by_cases hk : k = c.key
  · subst hk
    rw [Swap.apply, Function.update_self, ← h rfl]
    exact hc.symm
  · exact Function.update_of_ne hk _ _

/-- A key whose value is not the one that all its commands expect stops a batch that names it. -/
theorem not_lands_of_ne {T : κ → ν} {cs : List (Swap κ ν)} {d : Swap κ ν} (hd : d ∈ cs)
    (hne : T d.key ≠ d.old) (h : ∀ e ∈ cs, e.key = d.key → e.old = d.old) : ¬ Lands T cs := by
  induction cs generalizing T with
  | nil => simp at hd
  | cons e cs ih =>
    rintro ⟨he, hl⟩
    by_cases hk : e.key = d.key
    · exact hne (by rw [← hk, he, h e (by simp) hk])
    · have hd' : d ∈ cs := by
        rcases List.mem_cons.mp hd with rfl | hd'
        · exact absurd rfl hk
        · exact hd'
      refine ih hd' ?_ (fun f hf => h f (by simp [hf])) hl
      rwa [Swap.apply, Function.update_of_ne (Ne.symm hk)]

/-- A batch whose commands all pass against the map before it lands exactly when no command changes
a key that a later one names. -/
theorem lands_iff {T : κ → ν} {cs : List (Swap κ ν)} (h : ∀ c ∈ cs, c.Ok T) :
    Lands T cs ↔ cs.Pairwise fun c d => c.key = d.key → c.old = c.new := by
  induction cs generalizing T with
  | nil => simp [Lands]
  | cons c cs ih =>
    have hc : c.Ok T := h c (by simp)
    rw [List.pairwise_cons]
    by_cases hnoop : ∀ d ∈ cs, c.key = d.key → c.old = c.new
    · have h' : ∀ d ∈ cs, d.Ok (c.apply T) := fun d hd => by
        rw [Swap.Ok, Swap.apply_eq hc (hnoop d hd)]
        exact h d (by simp [hd])
      simp only [Lands, hc, true_and, ih h']
      exact ⟨fun hp => ⟨hnoop, hp⟩, fun hp => hp.2⟩
    · -- A later command names the key that `c` changed, and expects the value before `c`.
      refine iff_of_false ?_ fun hp => hnoop hp.1
      simp only [not_forall] at hnoop
      obtain ⟨d, hd, hk, hne⟩ := hnoop
      rintro ⟨-, hl⟩
      have hold : ∀ e ∈ cs, e.key = d.key → e.old = c.old := fun e he hek => by
        rw [← h e (by simp [he]), ← hc, hek, hk]
      refine not_lands_of_ne hd ?_ (fun e he hek => ?_) hl
      · rw [Swap.apply, ← hk, Function.update_self, hold d hd rfl]
        exact Ne.symm hne
      · rw [hold e he hek, hold d hd rfl]

/-! ## Histories -/

/-- The map goes through a history: a command that is reported as done finds the value that it
expects at its place of the history and puts its own, and one that is refused does nothing. -/
inductive Run : (κ → ν) → List (Swap κ ν × Bool) → (κ → ν) → Prop
  | nil (T : κ → ν) : Run T [] T
  | done {T U : κ → ν} {c : Swap κ ν} {h : List (Swap κ ν × Bool)} (hc : c.Ok T)
      (hr : Run (c.apply T) h U) : Run T ((c, true) :: h) U
  | refused {T U : κ → ν} {c : Swap κ ν} {h : List (Swap κ ν × Bool)} (hr : Run T h U) :
      Run T ((c, false) :: h) U

theorem Run.append {T U V : κ → ν} {h h' : List (Swap κ ν × Bool)} (hr : Run T h U)
    (hr' : Run U h' V) : Run T (h ++ h') V := by
  induction hr with
  | nil T => exact hr'
  | done hc _ ih => exact .done hc (ih hr')
  | refused _ ih => exact .refused (ih hr')

/-- A history can be cut anywhere. -/
theorem Run.split {T V : κ → ν} {h h' : List (Swap κ ν × Bool)} (hr : Run T (h ++ h') V) :
    ∃ U, Run T h U ∧ Run U h' V := by
  induction h generalizing T with
  | nil => exact ⟨T, .nil T, hr⟩
  | cons e h ih =>
    cases hr with
    | done hc hr =>
      obtain ⟨U, hU, hV⟩ := ih hr
      exact ⟨U, .done hc hU, hV⟩
    | refused hr =>
      obtain ⟨U, hU, hV⟩ := ih hr
      exact ⟨U, .refused hU, hV⟩

/-- The commands on a key that a history reports as done. -/
def doneAt (k : κ) (h : List (Swap κ ν × Bool)) : List (Swap κ ν) :=
  (h.filter fun e => e.2 && e.1.key = k).map (·.1)

/-- The commands done on a key form a chain: each expects what the one before it put, the first
expects what the map had, and the map has what the last one put. -/
theorem Run.chain {T U : κ → ν} {h : List (Swap κ ν × Bool)} (hr : Run T h U) (k : κ) :
    (doneAt k h).IsChain (fun a b => b.old = a.new) ∧ (∀ a ∈ (doneAt k h).head?, a.old = T k) ∧
      U k = ((doneAt k h).getLast?.map (·.new)).getD (T k) := by
  induction hr with
  | nil T => simp [doneAt]
  | @done T U c h hc _ ih =>
    obtain ⟨hchain, hhead, hlast⟩ := ih
    by_cases hk : c.key = k
    · have hT : c.apply T k = c.new := by rw [Swap.apply, ← hk, Function.update_self]
      have hcons : doneAt k ((c, true) :: h) = c :: doneAt k h := by simp [doneAt, hk]
      rw [hT] at hhead hlast
      rw [hcons]
      refine ⟨List.isChain_cons.mpr ⟨hhead, hchain⟩, ?_, ?_⟩
      · rintro a ⟨⟩
        rw [← hk]
        exact hc.symm
      · rw [hlast, List.getLast?_cons]
        cases (doneAt k h).getLast? <;> rfl
    · have hT : c.apply T k = T k := Function.update_of_ne (Ne.symm hk) _ _
      have hcons : doneAt k ((c, true) :: h) = doneAt k h := by simp [doneAt, hk]
      rw [hT] at hhead hlast
      rw [hcons]
      exact ⟨hchain, hhead, hlast⟩
  | @refused T U c h _ ih =>
    have hcons : doneAt k ((c, false) :: h) = doneAt k h := by simp [doneAt]
    rw [hcons]
    exact ih

/-- A value that a key comes to have was put there. -/
theorem Run.returns {T U : κ → ν} {h : List (Swap κ ν × Bool)} (hr : Run T h U) {k : κ}
    (hne : T k ≠ U k) : ∃ c, (c, true) ∈ h ∧ c.key = k ∧ c.new = U k := by
  obtain ⟨-, -, hlast⟩ := hr.chain k
  cases hl : (doneAt k h).getLast? with
  | none =>
    rw [hl] at hlast
    exact absurd hlast.symm hne
  | some c =>
    rw [hl] at hlast
    have hmem : c ∈ doneAt k h := List.mem_of_getLast? hl
    simp only [doneAt, List.mem_map, List.mem_filter, Bool.and_eq_true, decide_eq_true_eq] at hmem
    obtain ⟨⟨c', b⟩, ⟨hin, rfl, hk⟩, rfl⟩ := hmem
    exact ⟨c', hin, hk, hlast.symm⟩

end Cas
