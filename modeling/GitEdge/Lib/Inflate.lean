import Mathlib.Data.List.Basic
import Mathlib.Data.Nat.Notation

/-!
# Machines that read a stream, and zlib streams of stored blocks

A machine reads one symbol after another, gives out symbols, and may end. `Machine.run` is a call
with some input, as stream decoders have it: the machine reads until it ends or the input does. What
a sequence of calls reads does not depend on where the input is cut, since every call is a `Path`,
and paths are unique and can be put together and split.

`Zlib.step` is the machine of RFC 1950 for streams whose blocks are stored (RFC 1951, §3.2.4), with
the messages of zlib. `Zlib.deflate` makes such streams.
-/

namespace Machine

variable {σ α β : Type}

/-- What a call does. -/
structure Ran (σ β : Type) where
  state : σ
  used : ℕ
  made : List β
  ended : Bool

variable (step : σ → α → Except String (σ × List β × Bool))

/-- Reads until the machine ends or the input does. -/
def run : σ → List α → Except String (Ran σ β)
  | s, [] => .ok ⟨s, 0, [], false⟩
  | s, a :: l =>
    match step s a with
    | .error e => .error e
    | .ok (t, out, true) => .ok ⟨t, 1, out, true⟩
    | .ok (t, out, false) =>
      (run t l).map fun r => ⟨r.state, r.used + 1, out ++ r.made, r.ended⟩

/-- The machine reads `x` from the first state to the second, gives out `o`, and has ended or not. -/
inductive Path : σ → List α → List β → σ → Bool → Prop
  | nil (s : σ) : Path s [] [] s false
  | last {s t : σ} {a : α} {out : List β} (h : step s a = .ok (t, out, true)) : Path s [a] out t true
  | cons {s t u : σ} {a : α} {x : List α} {out o : List β} {e : Bool}
      (h : step s a = .ok (t, out, false)) (hx : Path t x o u e) : Path s (a :: x) (out ++ o) u e

variable {step} {s t u : σ} {x y l : List α} {o o' : List β} {e e' : Bool}

theorem map_eq_ok {ε γ δ : Type} {f : γ → δ} {v : Except ε γ} {d : δ} (h : v.map f = .ok d) :
    ∃ c, v = .ok c ∧ f c = d := by
  cases v with
  | error e => cases h
  | ok c => exact ⟨c, rfl, Except.ok.inj h⟩

/-- A call reads a path, to the end of its input if the machine does not end. -/
theorem run_ok {r : Ran σ β} (h : run step s l = .ok r) :
    Path step s (l.take r.used) r.made r.state r.ended ∧ r.used ≤ l.length ∧
      (r.ended = false → r.used = l.length) := by
  induction l generalizing s r with
  | nil =>
    cases h
    exact ⟨.nil s, Nat.le_refl 0, fun _ => rfl⟩
  | cons a l ih =>
    rw [run] at h
    split at h
    · cases h
    · next hstep =>
      cases h
      exact ⟨.last hstep, Nat.le_add_left 1 _, fun hend => nomatch hend⟩
    · next hstep =>
      obtain ⟨r', hr', rfl⟩ := map_eq_ok h
      obtain ⟨hpath, hle, hall⟩ := ih hr'
      exact ⟨.cons hstep hpath, Nat.succ_le_succ hle, fun hend => congrArg (· + 1) (hall hend)⟩

/-- A call with a path at the front of its input reads the path, if it ends or is all of the
input. -/
theorem Path.run (h : Path step s x o t e) (hall : e = false → y = []) :
    Machine.run step s (x ++ y) = .ok ⟨t, x.length, o, e⟩ := by
  induction h with
  | nil s =>
    rw [hall rfl]
    rfl
  | last h => simp [Machine.run, h]
  | cons h _ ih => simp [Machine.run, h, ih hall, Except.map]

theorem Path.append (h : Path step s x o t false) (h' : Path step t y o' u e) :
    Path step s (x ++ y) (o ++ o') u e := by
  generalize hend : false = e' at h
  induction h with
  | nil s => exact h'
  | last _ => cases hend
  | cons h _ ih =>
    rw [List.cons_append, List.append_assoc]
    exact .cons h (ih h' hend)

/-- A path is split where the machine has not ended. -/
theorem Path.split (h : Path step s (x ++ y) o u e) (hy : y ≠ []) :
    ∃ t o₁ o₂, Path step s x o₁ t false ∧ Path step t y o₂ u e ∧ o = o₁ ++ o₂ := by
  induction x generalizing s o with
  | nil => exact ⟨s, [], o, .nil s, h, rfl⟩
  | cons a x ih =>
    rw [List.cons_append] at h
    generalize hl : a :: (x ++ y) = l at h
    cases h with
    | nil => cases hl
    | last _ =>
      have hnil : x ++ y = [] := (List.cons.inj hl).2
      exact absurd (List.append_eq_nil_iff.mp hnil).2 hy
    | cons hstep hx =>
      cases hl
      obtain ⟨t, o₁, o₂, hfront, hback, rfl⟩ := ih hx
      exact ⟨t, _, o₂, .cons hstep hfront, hback, (List.append_assoc _ _ _).symm⟩

theorem Path.unique (h : Path step s x o t e) (h' : Path step s x o' u e') :
    o = o' ∧ t = u ∧ e = e' := by
  have hrun := h.run (y := []) fun _ => rfl
  rw [h'.run fun _ => rfl, Except.ok.injEq, Ran.mk.injEq] at hrun
  exact ⟨hrun.2.2.1.symm, hrun.1.symm, hrun.2.2.2.symm⟩

/-- What comes after a path from its state on. -/
theorem Path.rest (h : Path step s x o t false) (h' : Path step s (x ++ y) o' u e) (hy : y ≠ []) :
    ∃ o₂, Path step t y o₂ u e ∧ o' = o ++ o₂ := by
  obtain ⟨t', o₁, o₂, hfront, hback, rfl⟩ := h'.split hy
  obtain ⟨rfl, rfl, -⟩ := h.unique hfront
  exact ⟨o₂, hback, rfl⟩

/-- No path goes on after the end. -/
theorem Path.alone (h : Path step s x o t true) (h' : Path step s (x ++ y) o' u e) : y = [] := by
  by_contra hy
  obtain ⟨t', o₁, o₂, hfront, -, -⟩ := h'.split hy
  cases (h.unique hfront).2.2

/-- A call inside a path to the end reads what it is given of it. -/
theorem Path.call {rest : List α} (h : Path step s y o u true) (hl : l <+: y ++ rest) :
    ∃ r, Machine.run step s l = .ok r ∧ r.used = min l.length y.length ∧
      (r.ended = true ↔ y.length ≤ l.length) ∧ (r.ended = true → r.made = o) := by
  rcases Nat.lt_or_ge l.length y.length with hlt | hle
  · obtain ⟨w, rfl⟩ : l <+: y :=
      List.prefix_of_prefix_length_le hl (List.prefix_append y rest) (Nat.le_of_lt hlt)
    have hw : w ≠ [] := by
      rintro rfl
      simp at hlt
    obtain ⟨t, o₁, o₂, hfront, -, -⟩ := h.split hw
    have hrun := hfront.run (y := []) fun _ => rfl
    rw [List.append_nil] at hrun
    refine ⟨_, hrun, (Nat.min_eq_left (Nat.le_of_lt hlt)).symm, ?_, fun hend => nomatch hend⟩
    exact ⟨fun hend => (nomatch hend), fun hle => absurd hlt (Nat.not_lt.mpr hle)⟩
  · obtain ⟨w, rfl⟩ : y <+: l := List.prefix_of_prefix_length_le (List.prefix_append y rest) hl hle
    have hrun := h.run (y := w) fun hend => nomatch hend
    exact ⟨_, hrun, (Nat.min_eq_right hle).symm, ⟨fun _ => hle, fun _ => rfl⟩, fun _ => rfl⟩

/-- A machine that gives out at most one symbol for each that it reads. -/
theorem Path.length_le (hone : ∀ s a t out e, step s a = .ok (t, out, e) → out.length ≤ 1)
    (h : Path step s x o t e) : o.length ≤ x.length := by
  induction h with
  | nil => exact Nat.le_refl 0
  | last h => exact hone _ _ _ _ _ h
  | cons h _ ih =>
    have := hone _ _ _ _ _ h
    rw [List.length_append, List.length_cons]
    omega

end Machine

namespace Zlib

/-- Where a stream is: in its header, at a block, in the lengths or in the bytes of a block (the last
one or not), or in the checksum. -/
inductive Phase where
  | cmf
  | flg (cmf : ℕ)
  | block
  | lengths (last : Bool) (read : List ℕ)
  | copy (last : Bool) (left : ℕ)
  | check (read : List ℕ)
deriving DecidableEq, Repr

/-- The phase, and the two sums of Adler-32. -/
structure State where
  phase : Phase
  a : ℕ
  b : ℕ
deriving DecidableEq, Repr

def start : State := ⟨.cmf, 1, 0⟩

/-- Adler-32 takes a byte. -/
def State.add (s : State) (c : UInt8) : State :=
  let a := (s.a + c.toNat) % 65521
  { s with a := a, b := (s.b + a) % 65521 }

/-- After so many bytes of a block are left. -/
def after (last : Bool) : ℕ → Phase
  | 0 => if last then .check [] else .block
  | left + 1 => .copy last (left + 1)

/-- Reads a byte. -/
def step (s : State) (c : UInt8) : Except String (State × List UInt8 × Bool) :=
  let go (phase : Phase) : Except String (State × List UInt8 × Bool) :=
    .ok ({ s with phase := phase }, [], false)
  match s.phase with
  | .cmf => if c.toNat % 16 = 8 ∧ c.toNat / 16 ≤ 7 then go (.flg c.toNat) else
    .error "incorrect header check"
  | .flg cmf => if (256 * cmf + c.toNat) % 31 = 0 ∧ c.toNat / 32 % 2 = 0 then go .block else
    .error "incorrect header check"
  | .block => if c.toNat / 2 % 4 = 0 then go (.lengths (c.toNat % 2 == 1) []) else
    .error "invalid block type"
  | .lengths last [l, h, l'] => if l + l' = 255 ∧ h + c.toNat = 255 then go (after last (l + 256 * h))
    else .error "invalid stored block lengths"
  | .lengths last read => go (.lengths last (read ++ [c.toNat]))
  | .copy last left => .ok ({ s.add c with phase := after last (left - 1) }, [c], false)
  | .check [x, y, z] => if 65536 * s.b + s.a = 256 * (256 * (256 * x + y) + z) + c.toNat then
      .ok (s, [], true)
    else .error "incorrect data check"
  | .check read => go (.check (read ++ [c.toNat]))

/-- At most one byte is given out for each that is read. -/
theorem length_step (s : State) (c : UInt8) (t : State) (out : List UInt8) (e : Bool)
    (h : step s c = .ok (t, out, e)) : out.length ≤ 1 := by
  unfold step at h
  dsimp only at h
  split at h <;> first | (split_ifs at h; cases h; simp) | (cases h; simp)

/-- The bytes of a stream. -/
def inflate (y : List UInt8) : Option (List UInt8) :=
  match Machine.run step start y with
  | .ok ⟨_, n, d, true⟩ => if n = y.length then some d else none
  | _ => none

/-- A stream is a path to the end. -/
theorem inflate_of_path {y d : List UInt8} {s : State} (h : Machine.Path step start y d s true) :
    inflate y = some d := by
  have hrun := h.run (y := []) fun hend => nomatch hend
  rw [List.append_nil] at hrun
  rw [inflate, hrun]
  exact if_pos rfl

/-- A stored block. -/
def block (last : Bool) (d : List UInt8) : List UInt8 :=
  let l := UInt8.ofNat d.length
  let h := UInt8.ofNat (d.length / 256)
  [if last then 1 else 0, l, h, 255 - l, 255 - h] ++ d

/-- The blocks for some bytes, each of at most 65535. -/
def blocks : ℕ → List UInt8 → List UInt8
  | 0, d => block true d
  | n + 1, d =>
    if d.length ≤ 65535 then block true d else block false (d.take 65535) ++ blocks n (d.drop 65535)

/-- A stream for some bytes. -/
def deflate (d : List UInt8) : List UInt8 :=
  let s := d.foldl State.add start
  [0x78, 0x01] ++ blocks d.length d ++ [UInt8.ofNat (s.b / 256), UInt8.ofNat s.b,
    UInt8.ofNat (s.a / 256), UInt8.ofNat s.a]

example : inflate (deflate [1, 2, 3]) = some [1, 2, 3] := by decide

end Zlib
