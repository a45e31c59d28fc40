import GitEdge.Repo.Patterns

/-!
# The URL of a remote repository

`normalize` of `remote.rs` takes the URL of a repository to the base under which its git endpoints
are: white space at both ends, slashes at the end and one `.git` are cut off, in this order, and
what is left must be a bare `https` URL, or a bare `http` URL of the machine itself. An import
normalizes its URL when it is submitted (`import_begin`), and normalizes the result again before
each request to the remote (`ls_refs`, `fetch_open`).

The second time may cut off more: the cut of `.git` can leave white space, a slash or another `.git`
at the end, and the cut of the slashes can leave white space. Which URLs are cut once and for all is
read off the end of the trimmed URL (`CutOnce`, `normalize_idempotent_iff`).
-/

namespace GitEdge

variable {r : String} {u : List Char}

/-- `strip_suffix(".git")`, or the text itself. -/
def stripGit (u : List Char) : List Char :=
  if ".git".toList <:+ u then u.take (u.length - 4) else u

/-- `trim().trim_end_matches('/')`. -/
def trimUrl (url : List Char) : List Char :=
  ((url.dropWhile isWhite).rdropWhile isWhite).rdropWhile (· = '/')

/-- The cuts of `normalize`. -/
def cutUrl (url : List Char) : List Char := stripGit (trimUrl url)

/-- What follows the first `://`. -/
def afterScheme : List Char → Option (List Char)
  | [] => none
  | c :: l => if "://".toList <+: c :: l then some ((c :: l).drop 3) else afterScheme l

/-- The checks of `normalize`. -/
def checkUrl (u : List Char) : Except Error Unit :=
  if ¬ ("https://".toList <+: u ∨ "http://".toList <+: u) then
    .error (.protocol "import url needs http(s)")
  else
    let rest := (afterScheme u).getD u
    if '@' ∈ rest ∨ '?' ∈ rest ∨ '#' ∈ rest then
      .error (.protocol "import url must be a bare repo path")
    else
      let host := String.ofList (rest.takeWhile fun c => c ≠ '/' ∧ c ≠ ':')
      if "http://".toList <+: u ∧ host ∉ ["localhost", "127.0.0.1", "::1", "[::1]"] then
        .error (.protocol "http import urls must be loopback")
      else .ok ()

/-- `normalize`. -/
def normalize (url : String) : Except Error String := do
  checkUrl (cutUrl url.toList)
  pure (String.ofList (cutUrl url.toList))

/-- The URL that an import asks for the refs of its remote: the edge normalizes the URL that was
submitted, and `ls_refs` what the edge stored. -/
def lsRefsUrl (url : String) : Except Error String := do
  let stored ← normalize url
  let base ← normalize stored
  pure (base ++ "/info/refs?service=git-upload-pack")

/-! ## What the cuts leave -/

/-- No cut takes anything from the end of the text. -/
def Settled (u : List Char) : Prop :=
  (∀ c ∈ u.getLast?, isWhite c = false ∧ c ≠ '/') ∧ ¬ ".git".toList <:+ u

/-- The end of a trimmed URL on which the cuts are done at once: what stands before one final `.git`
is settled, and a URL without `.git` does not end in white space that a slash had covered. -/
structure CutOnce (t : List Char) : Prop where
  git : ∀ s, t = s ++ ".git".toList → Settled s
  plain : ¬ ".git".toList <:+ t → ∀ c ∈ t.getLast?, isWhite c = false

/-- Accepted URLs are decided by the text that the cuts leave. -/
theorem normalize_eq_ok_iff {url : String} :
    normalize url = .ok r ↔ checkUrl (cutUrl url.toList) = .ok () ∧
    cutUrl url.toList = r.toList := by
  unfold normalize
  cases checkUrl (cutUrl url.toList) with
  | error e => simp [bind, Except.bind]
  | ok u =>
    simp only [bind, Except.bind, pure, Except.pure, Except.ok.injEq, true_and]
    rw [← String.toList_inj, String.toList_ofList]

/-- An accepted URL starts with a letter. -/
theorem head?_of_checkUrl (h : checkUrl u = .ok ()) : u.head? = some 'h' := by
  unfold checkUrl at h
  split_ifs at h with hscheme
  rcases hscheme with ⟨rest, rfl⟩ | ⟨rest, rfl⟩
  · rfl
  · rfl

theorem length_stripGit_le (u : List Char) : (stripGit u).length ≤ u.length := by
  unfold stripGit
  split_ifs
  · exact List.length_take_le' _ _
  · exact Nat.le_refl _

theorem stripGit_eq_self_iff : stripGit u = u ↔ ¬ ".git".toList <:+ u := by
  constructor
  · intro h hgit
    have hlen : 4 ≤ u.length := hgit.length_le
    have hshort : (stripGit u).length = u.length - 4 := by
      rw [stripGit, if_pos hgit, List.length_take]
      omega
    rw [h] at hshort
    omega
  · exact fun h => if_neg h

/-- A cut at the end takes nothing from a text exactly if the last character is to be kept. -/
theorem rdropWhile_eq_self {p : Char → Bool} :
    u.rdropWhile p = u ↔ ∀ c ∈ u.getLast?, p c = false := by
  rw [List.rdropWhile_eq_self_iff]
  constructor
  · intro h c hc
    obtain ⟨hne, rfl⟩ := List.mem_getLast?_eq_getLast hc
    exact Bool.eq_false_iff.mpr (h hne)
  · intro h hne
    rw [h _ (List.getLast?_eq_some_getLast hne)]
    exact Bool.false_ne_true

/-- The cuts leave a text that starts with a letter as it is exactly if it is settled. -/
theorem cutUrl_eq_self_iff (hu : u.head? = some 'h') : cutUrl u = u ↔
    Settled u := by
  have hfront : u.dropWhile isWhite = u := by
    cases u with
    | nil => rfl
    | cons c u =>
      cases hu
      exact List.dropWhile_cons_of_neg (by decide)
  rw [cutUrl, trimUrl, hfront]
  constructor
  · intro h
    -- No cut makes a text longer, so none of them took anything.
    have hwhite := List.rdropWhile_prefix isWhite (l := u)
    have hslash := List.rdropWhile_prefix (· = '/') (l := u.rdropWhile isWhite)
    have hgit := length_stripGit_le ((u.rdropWhile isWhite).rdropWhile (· = '/'))
    rw [h] at hgit
    have hslash' :=
      hslash.eq_of_length (Nat.le_antisymm hslash.length_le (hwhite.length_le.trans hgit))
    have hwhite' :=
      hwhite.eq_of_length (Nat.le_antisymm hwhite.length_le (hgit.trans hslash.length_le))
    rw [hslash', hwhite'] at h
    rw [hwhite'] at hslash'
    refine ⟨fun c hc => ⟨rdropWhile_eq_self.mp hwhite' c hc, ?_⟩, stripGit_eq_self_iff.mp h⟩
    exact of_decide_eq_false (rdropWhile_eq_self.mp hslash' c hc)
  · rintro ⟨hlast, hgit⟩
    rw [rdropWhile_eq_self.mpr fun c hc => (hlast c hc).1,
      rdropWhile_eq_self.mpr fun c hc => decide_eq_false (hlast c hc).2,
      stripGit_eq_self_iff.mpr hgit]

/-- The last character of a text whose final slashes were cut is no slash. -/
theorem getLast?_trimUrl_ne_slash : ∀ c ∈ (trimUrl u).getLast?, c ≠ '/' := by
  intro c hc
  have hstay : (trimUrl u).rdropWhile (· = '/') = trimUrl u := List.rdropWhile_idempotent _ _
  exact of_decide_eq_false (rdropWhile_eq_self.mp hstay c hc)

/-- What the cuts leave is settled exactly if the end of the trimmed URL says so. -/
theorem settled_cutUrl_iff : Settled (cutUrl u) ↔ CutOnce (trimUrl u) := by
  rw [cutUrl, stripGit]
  split_ifs with hgit
  · -- One `.git` is cut off: the base is what stands before it.
    obtain ⟨s, hs⟩ := hgit
    have hbase : (trimUrl u).take ((trimUrl u).length - 4) = s := by
      rw [← hs]
      simp
    rw [hbase]
    constructor
    · intro h
      refine ⟨fun s' hs' => ?_, fun hno => absurd ⟨s, hs⟩ hno⟩
      rwa [← List.append_cancel_right (hs.trans hs')]
    · exact fun h => h.git s hs.symm
  · -- Nothing is cut off, and no slash is left, so white space is all that can be.
    constructor
    · intro h
      refine ⟨fun s hs => absurd ⟨s, hs.symm⟩ hgit, fun _ c hc => (h.1 c hc).1⟩
    · exact fun h => ⟨fun c hc => ⟨h.plain hgit c hc, getLast?_trimUrl_ne_slash c hc⟩, hgit⟩

/-- A URL that was accepted is accepted again as its base exactly if the base is settled. -/
theorem normalize_normalize {u : String} (h : normalize u = .ok r) :
    normalize r = .ok r ↔ Settled (cutUrl u.toList) := by
  obtain ⟨hcheck, hcut⟩ := normalize_eq_ok_iff.mp h
  have hhead := head?_of_checkUrl hcheck
  rw [hcut] at hcheck hhead ⊢
  rw [normalize_eq_ok_iff, ← cutUrl_eq_self_iff hhead]
  constructor
  · exact fun hr => hr.2
  · intro hr
    rw [hr]
    exact ⟨hcheck, rfl⟩

/-- A base that stays as it is is the one under which the refs are asked for. -/
theorem lsRefsUrl_of_normalize {u : String} (h : normalize u = .ok r) (hr : normalize r = .ok r) :
    lsRefsUrl u = .ok (r ++ "/info/refs?service=git-upload-pack") := by
  simp [lsRefsUrl, h, hr, bind, Except.bind, pure, Except.pure]

/-- The base of an accepted URL is accepted, stays as it is and is the one under which the refs are
asked for, exactly if the trimmed URL ends so that one cut is enough. -/
theorem normalize_idempotent_iff {u : String} (h : normalize u = .ok r) :
    (normalize r = .ok r ∧ lsRefsUrl u = .ok (r ++ "/info/refs?service=git-upload-pack")) ↔
      CutOnce (trimUrl u.toList) := by
  rw [← settled_cutUrl_iff, ← normalize_normalize h]
  exact ⟨fun hr => hr.1, fun hr => ⟨hr, lsRefsUrl_of_normalize h hr⟩⟩

/-- White space, slashes and one `.git` around a plain URL are cut off once and for all. -/
theorem normalize_idempotent_git :
    normalize " https://host/owner/repo.git// " = .ok "https://host/owner/repo" ∧
      CutOnce (trimUrl " https://host/owner/repo.git// ".toList) :=
  have h : normalize " https://host/owner/repo.git// " = .ok "https://host/owner/repo" := by
    decide +kernel
  ⟨h, (normalize_idempotent_iff h).mp (by decide +kernel)⟩

/-- A repository whose name ends in `.git` is imported under another name. -/
theorem normalize_git_git :
    normalize "https://host/owner/repo.git.git" = .ok "https://host/owner/repo.git" ∧
      normalize "https://host/owner/repo.git" = .ok "https://host/owner/repo" ∧
      lsRefsUrl "https://host/owner/repo.git.git" =
        .ok "https://host/owner/repo/info/refs?service=git-upload-pack" := by
  decide +kernel

end GitEdge
