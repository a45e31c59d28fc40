import Mathlib.Logic.Relation
import Mathlib.Data.Nat.Find

/-!
# Reachability from a set

`Reach.From r A x`: some element of `A` leads to `x` along `r`. The rule is induction along the way
(`From.induction`).

`Reach.In r A k x` counts the steps on the way, and `Reach.Dist r A k x` says that no way is
shorter.
-/

namespace Reach

variable {α : Type} {r r' : α → α → Prop} {A B G : α → Prop} {x y : α}

/-- `x` is reached from `A` along `r`. -/
def From (r : α → α → Prop) (A : α → Prop) (x : α) : Prop := ∃ a, A a ∧ Relation.ReflTransGen r a x

theorem From.start (h : A x) : From r A x := ⟨x, h, .refl⟩

theorem From.tail (h : From r A x) (hxy : r x y) : From r A y := by
  obtain ⟨a, ha, hax⟩ := h
  exact ⟨a, ha, hax.tail hxy⟩

theorem From.induction {P : α → Prop} (h : From r A x) (hA : ∀ a, A a → P a)
    (hr : ∀ a b, P a → r a b → P b) : P x := by
  obtain ⟨a, ha, hax⟩ := h
  induction hax with
  | refl => exact hA a ha
  | tail _ hbc ih => exact hr _ _ ih hbc

theorem From.mono (h : From r A x) (hA : ∀ a, A a → B a) (hr : ∀ a b, r a b → r' a b) :
    From r' B x := by
  obtain ⟨a, ha, hax⟩ := h
  exact ⟨a, hA a ha, Relation.ReflTransGen.mono hr _ _ hax⟩

theorem From.of_from (h : From r A x) (hA : ∀ a, A a → From r B a) : From r B x :=
  h.induction hA fun _ _ => From.tail

/-! ## The number of steps -/

/-- `x` is reached from `A` in `k` steps. -/
def In (r : α → α → Prop) (A : α → Prop) : ℕ → α → Prop
  | 0, x => A x
  | k + 1, x => ∃ y, In r A k y ∧ r y x

theorem In.from {k : ℕ} (h : In r A k x) : From r A x := by
  induction k generalizing x with
  | zero => exact .start h
  | succ k ih =>
    obtain ⟨y, hy, hyx⟩ := h
    exact (ih hy).tail hyx

/-- The shortest way from `A` to `x` has `k` steps. -/
def Dist (r : α → α → Prop) (A : α → Prop) (k : ℕ) (x : α) : Prop :=
  In r A k x ∧ ∀ j, In r A j x → k ≤ j

theorem exists_dist_lt {n : ℕ} : (∃ k < n, Dist r A k x) ↔ ∃ k < n, In r A k x := by
  classical
  constructor
  · rintro ⟨k, hk, hin, -⟩
    exact ⟨k, hk, hin⟩
  · rintro ⟨k, hk, hin⟩
    have hex : ∃ j, In r A j x := ⟨k, hin⟩
    refine ⟨Nat.find hex, Nat.lt_of_le_of_lt (Nat.find_min' hex hin) hk, Nat.find_spec hex, ?_⟩
    exact fun j hj => Nat.find_min' hex hj

end Reach
