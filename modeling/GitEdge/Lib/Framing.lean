import Mathlib.Data.List.Basic
import Mathlib.Order.Nat

/-!
# Frames in a stream of bytes

A decoder takes the first frame off some bytes, or says that it needs more of them. What it says of
some bytes stays so when more follow. A loop over the frames (`scan`) goes on until it has a result,
or until the decoder needs more bytes; it may then be resumed with what is left and the bytes that
followed, and comes to the same end as the loop over all of the bytes (`scan_append`). How a stream
is cut into pieces therefore does not matter.
-/

/-- A decoder of frames `π` in lists of `β`. -/
structure Decoder (β ε π : Type) where
  /-- The first frame and its length; `none` when more bytes are needed. -/
  decode : List β → Except ε (Option (π × ℕ))
  pos : ∀ {b p n}, decode b = .ok (some (p, n)) → 0 < n ∧ n ≤ b.length
  stable : ∀ {b p n} (c), decode b = .ok (some (p, n)) → decode (b ++ c) = .ok (some (p, n))
  fails : ∀ {b e} (c), decode b = .error e → decode (b ++ c) = .error e
  /-- The decoder does not look past the frame. -/
  enough : ∀ {b c p n}, decode (b ++ c) = .ok (some (p, n)) → n ≤ b.length →
    decode b = .ok (some (p, n))

namespace Decoder

variable {β ε π σ ρ : Type}

/-- How a loop over frames ends: it needs more bytes, it has a result, or it failed. -/
inductive Scan (β ε σ ρ : Type) where
  | more (s : σ) (rest : List β)
  | done (r : ρ) (rest : List β)
  | failed (e : ε)
deriving DecidableEq

/-- The loop, with a bound on its rounds: `f` says for each frame whether the loop goes on. -/
def scanFrom (d : Decoder β ε π) (f : σ → π → Except ε (σ ⊕ ρ)) : ℕ → σ → List β → Scan β ε σ ρ
  | 0, s, b => .more s b
  | n + 1, s, b =>
    match d.decode b with
    | .error e => .failed e
    | .ok none => .more s b
    | .ok (some (p, k)) =>
      match f s p with
      | .error e => .failed e
      | .ok (.inr r) => .done r (b.drop k)
      | .ok (.inl s) => scanFrom d f n s (b.drop k)

/-- The loop over the frames of some bytes; there are no more frames than bytes. -/
def scan (d : Decoder β ε π) (f : σ → π → Except ε (σ ⊕ ρ)) (s : σ) (b : List β) : Scan β ε σ ρ :=
  d.scanFrom f (b.length + 1) s b

/-- The loop goes on with more bytes. -/
def Scan.append (d : Decoder β ε π) (f : σ → π → Except ε (σ ⊕ ρ)) (c : List β) :
    Scan β ε σ ρ → Scan β ε σ ρ
  | .more s rest => d.scan f s (rest ++ c)
  | .done r rest => .done r (rest ++ c)
  | .failed e => .failed e

variable {d : Decoder β ε π} {f : σ → π → Except ε (σ ⊕ ρ)}

/-- More rounds than bytes make no difference. -/
theorem scanFrom_eq {n m : ℕ} {b : List β} (hn : b.length < n) (hm : b.length < m) (s : σ) :
    d.scanFrom f n s b = d.scanFrom f m s b := by
  induction n generalizing m s b with
  | zero => omega
  | succ n ih =>
    cases m with
    | zero => omega
    | succ m =>
      unfold scanFrom
      cases hd : d.decode b with
      | error e => rfl
      | ok o =>
        cases o with
        | none => rfl
        | some pk =>
          obtain ⟨hpos, hle⟩ := d.pos hd
          have hlt : (b.drop pk.2).length < n ∧ (b.drop pk.2).length < m := by
            rw [List.length_drop]
            omega
          dsimp only
          cases f s pk.1 with
          | error e => rfl
          | ok x =>
            cases x with
            | inr r => rfl
            | inl s' => exact ih hlt.1 hlt.2 s'

/-- One round of the loop. -/
theorem scan_eq (s : σ) (b : List β) : d.scan f s b =
    match d.decode b with
    | .error e => .failed e
    | .ok none => .more s b
    | .ok (some (p, k)) =>
      match f s p with
      | .error e => .failed e
      | .ok (.inr r) => .done r (b.drop k)
      | .ok (.inl s) => d.scan f s (b.drop k) := by
  unfold scan
  rw [scanFrom]
  cases hd : d.decode b with
  | error e => rfl
  | ok o =>
    cases o with
    | none => rfl
    | some pk =>
      dsimp only
      cases f s pk.1 with
      | error e => rfl
      | ok x =>
        cases x with
        | inr r => rfl
        | inl s' =>
          obtain ⟨hpos, hle⟩ := d.pos hd
          refine scanFrom_eq ?_ (Nat.lt_succ_self _) s'
          rw [List.length_drop]
          omega

/-- The loop over some bytes and then over what follows is the loop over all of them. -/
theorem scan_append (s : σ) (b c : List β) :
    d.scan f s (b ++ c) = (d.scan f s b).append d f c := by
  induction h : b.length using Nat.strongRecOn generalizing b s with
  | _ n ih =>
    rw [scan_eq s b]
    cases hd : d.decode b with
    | error e =>
      rw [scan_eq, d.fails c hd]
      rfl
    | ok o =>
      cases o with
      | none => rfl
      | some pk =>
        obtain ⟨p, k⟩ := pk
        obtain ⟨hpos, hle⟩ := d.pos hd
        have hdrop : (b ++ c).drop k = b.drop k ++ c := List.drop_append_of_le_length hle
        rw [scan_eq, d.stable c hd]
        dsimp only
        rw [hdrop]
        cases f s p with
        | error e => rfl
        | ok x =>
          cases x with
          | inr r => rfl
          | inl s' =>
            refine ih (b.drop k).length ?_ s' (b.drop k) rfl
            rw [List.length_drop]
            omega

/-- A loop that needs more bytes has taken all the frames that there are. -/
theorem decode_of_more {s s' : σ} {b rest : List β} (h : d.scan f s b = .more s' rest) :
    d.decode rest = .ok none := by
  induction hlen : b.length using Nat.strongRecOn generalizing b s with
  | _ n ih =>
    rw [scan_eq] at h
    cases hd : d.decode b with
    | error e =>
      rw [hd] at h
      cases h
    | ok o =>
      rw [hd] at h
      cases o with
      | none =>
        cases h
        exact hd
      | some pk =>
        obtain ⟨p, k⟩ := pk
        obtain ⟨hpos, hle⟩ := d.pos hd
        dsimp only at h
        cases hf : f s p with
        | error e =>
          rw [hf] at h
          cases h
        | ok x =>
          rw [hf] at h
          cases x with
          | inr r => cases h
          | inl s₁ =>
            refine ih (b.drop k).length ?_ h rfl
            rw [List.length_drop]
            omega

/-- What is left after a result is an end of the bytes. -/
theorem suffix_of_done {s : σ} {r : ρ} {b rest : List β} (h : d.scan f s b = .done r rest) :
    rest <:+ b := by
  induction hlen : b.length using Nat.strongRecOn generalizing b s with
  | _ n ih =>
    rw [scan_eq] at h
    cases hd : d.decode b with
    | error e =>
      rw [hd] at h
      cases h
    | ok o =>
      rw [hd] at h
      cases o with
      | none => cases h
      | some pk =>
        obtain ⟨p, k⟩ := pk
        obtain ⟨hpos, hle⟩ := d.pos hd
        dsimp only at h
        cases hf : f s p with
        | error e =>
          rw [hf] at h
          cases h
        | ok x =>
          rw [hf] at h
          cases x with
          | inr r =>
            cases h
            exact List.drop_suffix k b
          | inl s₁ =>
            refine (ih (b.drop k).length ?_ h rfl).trans (List.drop_suffix k b)
            rw [List.length_drop]
            omega

/-- A result that came only with more bytes leaves fewer than those. -/
theorem length_of_more_done {s s' : σ} {r : ρ} {b c left rest : List β}
    (hmore : d.scan f s b = .more s' left) (hdone : d.scan f s' (left ++ c) = .done r rest) :
    rest.length < c.length := by
  have hnone := decode_of_more hmore
  rw [scan_eq] at hdone
  cases hd : d.decode (left ++ c) with
  | error e =>
    rw [hd] at hdone
    cases hdone
  | ok o =>
    rw [hd] at hdone
    cases o with
    | none => cases hdone
    | some pk =>
      obtain ⟨p, k⟩ := pk
      obtain ⟨hpos, hle⟩ := d.pos hd
      -- The frame ends past what was there before.
      have hk : left.length < k := by
        by_contra hk
        rw [d.enough hd (not_lt.mp hk)] at hnone
        cases hnone
      have hlen : ((left ++ c).drop k).length < c.length := by
        rw [List.length_drop, List.length_append] at *
        omega
      dsimp only at hdone
      cases hf : f s' p with
      | error e =>
        rw [hf] at hdone
        cases hdone
      | ok x =>
        rw [hf] at hdone
        cases x with
        | inr r' =>
          cases hdone
          exact hlen
        | inl s₁ => exact (suffix_of_done hdone).length_le.trans_lt hlen

/-! ## Frames -/

/-- The frames of some bytes, with a bound on their number; an error is the last one. -/
def framesFrom (d : Decoder β ε π) : ℕ → List β → List (Except ε π)
  | 0, _ => []
  | n + 1, b =>
    match d.decode b with
    | .error e => [.error e]
    | .ok none => []
    | .ok (some (p, k)) => .ok p :: framesFrom d n (b.drop k)

/-- The frames of some bytes. -/
def frames (d : Decoder β ε π) (b : List β) : List (Except ε π) := d.framesFrom (b.length + 1) b

theorem framesFrom_eq {n m : ℕ} {b : List β} (hn : b.length < n) (hm : b.length < m) :
    d.framesFrom n b = d.framesFrom m b := by
  induction n generalizing m b with
  | zero => omega
  | succ n ih =>
    cases m with
    | zero => omega
    | succ m =>
      unfold framesFrom
      cases hd : d.decode b with
      | error e => rfl
      | ok o =>
        cases o with
        | none => rfl
        | some pk =>
          obtain ⟨hpos, hle⟩ := d.pos hd
          have hlt : (b.drop pk.2).length < n ∧ (b.drop pk.2).length < m := by
            rw [List.length_drop]
            omega
          dsimp only
          rw [ih hlt.1 hlt.2]

/-- The first frame, and the others. -/
theorem frames_eq (b : List β) : d.frames b =
    match d.decode b with
    | .error e => [.error e]
    | .ok none => []
    | .ok (some (p, k)) => .ok p :: d.frames (b.drop k) := by
  unfold frames
  rw [framesFrom]
  cases hd : d.decode b with
  | error e => rfl
  | ok o =>
    cases o with
    | none => rfl
    | some pk =>
      obtain ⟨hpos, hle⟩ := d.pos hd
      dsimp only
      rw [framesFrom_eq _ (Nat.lt_succ_self _)]
      rw [List.length_drop]
      omega

/-- The frames of what follows some frame. -/
theorem frames_of_decode {b : List β} {p : π} (h : d.decode b = .ok (some (p, b.length)))
    (c : List β) : d.frames (b ++ c) = .ok p :: d.frames c := by
  rw [frames_eq, d.stable c h]
  dsimp only
  rw [List.drop_left]

/-- The loop over frames that are given. -/
def runFrames (f : σ → π → Except ε (σ ⊕ ρ)) : σ → List (Except ε π) → Except ε (σ ⊕ ρ)
  | s, [] => .ok (.inl s)
  | _, .error e :: _ => .error e
  | s, .ok p :: l =>
    match f s p with
    | .error e => .error e
    | .ok (.inr r) => .ok (.inr r)
    | .ok (.inl s) => runFrames f s l

/-- The end of a loop, without the bytes that are left. -/
def Scan.result : Scan β ε σ ρ → Except ε (σ ⊕ ρ)
  | .more s _ => .ok (.inl s)
  | .done r _ => .ok (.inr r)
  | .failed e => .error e

/-- The loop over some bytes is the loop over their frames. -/
theorem result_scan (s : σ) (b : List β) : (d.scan f s b).result = runFrames f s (d.frames b) := by
  induction hlen : b.length using Nat.strongRecOn generalizing b s with
  | _ n ih =>
    rw [scan_eq, frames_eq]
    cases hd : d.decode b with
    | error e => rfl
    | ok o =>
      cases o with
      | none => rfl
      | some pk =>
        obtain ⟨p, k⟩ := pk
        obtain ⟨hpos, hle⟩ := d.pos hd
        dsimp only
        rw [runFrames]
        cases f s p with
        | error e => rfl
        | ok x =>
          cases x with
          | inr r => rfl
          | inl s' =>
            refine ih (b.drop k).length ?_ s' (b.drop k) rfl
            rw [List.length_drop]
            omega

end Decoder
