import GitEdge.Gc.Others

/-!
# What stands still while `refs_version` does

A chain without the barrier relies on the version of the refs. `commit_push` moves the version when
a command landed and when a pack was promoted, so while it stands still no pack goes live and no ref
or pin names a new object. `Still` says so of the others' steps, and `Others.still` proves it of
each.
-/

namespace GitEdge

open Sql

variable {s P : Db} {req : CommitRequest}

/-- What the others leave of what a chain without the barrier relies on. -/
structure Still (s t : Db) : Prop where
  version : s.refs_version ≤ t.refs_version
  /-- Only the barrier feeds the walk. -/
  frontier : t.gc_frontier = s.gc_frontier
  live : t.refs_version = s.refs_version → ∀ p, t.packLive p = true → s.packLive p = true
  roots : t.refs_version = s.refs_version → ∀ x ∈ t.rootIds, x ∈ s.rootIds

namespace Still

variable {t u : Db}

protected theorem refl (s : Db) : Still s s := ⟨le_refl _, rfl, fun _ _ h => h, fun _ _ h => h⟩

protected theorem trans (h : Still s t) (h' : Still t u) : Still s u := by
  -- A version that is the same at the end was the same in between.
  have hmid : u.refs_version = s.refs_version →
      u.refs_version = t.refs_version ∧ t.refs_version = s.refs_version := by
    intro heq
    have h₁ := h.version
    have h₂ := h'.version
    omega
  refine ⟨h.version.trans h'.version, h'.frontier.trans h.frontier, fun heq p hp => ?_,
    fun heq x hx => ?_⟩
  · obtain ⟨hut, hts⟩ := hmid heq
    exact h.live hts p (h'.live hut p hp)
  · obtain ⟨hut, hts⟩ := hmid heq
    exact h.roots hts x (h'.roots hut x hx)

/-- A step that leaves the packs that are live and the roots alone. -/
theorem of_same (hversion : s.refs_version ≤ t.refs_version)
    (hfrontier : t.gc_frontier = s.gc_frontier)
    (hlive : ∀ p, t.packLive p = true → s.packLive p = true) (hrefs : t.refs = s.refs)
    (hpins : t.pins = s.pins) : Still s t where
  version := hversion
  frontier := hfrontier
  live _ := hlive
  roots _ x hx := by
    rw [Db.rootIds, hrefs, hpins] at hx
    exact hx

/-- What the others do to pack rows apart from commits. -/
theorem packs {packs : Table PackRow PackRow.id} (h : PackStep s packs) :
    Still s { s with packs := packs } := by
  refine .of_same (le_refl _) rfl (fun p hp => ?_) rfl rfl
  obtain ⟨row, hrow, hlive⟩ := packLive_iff.mp hp
  rcases h.origin p row hrow with hs | ⟨-, hst⟩ | ⟨-, -, -, -, hst⟩
  · exact packLive_iff.mpr ⟨row, hs, hlive⟩
  · rw [hst] at hlive
    cases hlive
  · exact absurd hlive hst

/-- A route whose span is undone does nothing. -/
theorem landing {α : Type} {x : Span Db Error α} (h : Still s (x.run s).state) :
    Still s (landing x s) := by
  unfold GitEdge.landing
  split
  · split_ifs
    · exact .refl s
    · exact h
  · exact h

end Still

/-! ## Rows -/

end GitEdge
