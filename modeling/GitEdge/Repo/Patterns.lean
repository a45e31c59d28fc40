import Mathlib.Data.List.Infix
import GitEdge.Repo.Access
import GitEdge.Repo.Pin
import GitEdge.Repo.Protect

/-!
# What a protection pattern covers

`protect` reads its text as one ref name, with a star at the end or not: `scope_pattern_ok` lets the
validator see the whole of it, commas and all. `is_protected` reads the stored text as a comma list
of patterns and trims each of them. The two readings agree on a text without commas and without
white space at its ends. They may also agree on a star pattern with commas, when the name happens to
start with its last piece. Everywhere else the pattern is accepted and does not cover what it names
(`protects_named_iff`).

The proof compares the pieces of the list with the name. A valid name has no star, so a piece that
covers it by being equal to it must have no comma either; and a star stands at the end of the text
only, so a piece that covers it as a prefix is the last one.
-/

namespace GitEdge

open Sql

variable {s : Db} {l : List Char} {p name pattern : String}

/-! ## `protect` and `unprotect` -/

/-- `str::strip_suffix` with one character, or the text as it is. -/
def stripLast (c : Char) (l : List Char) : List Char :=
  if l.getLast? = some c then l.dropLast else l

/-- `scope_pattern_ok`: a text under `refs/` with a star at its end only, and a name that the
validator of partial names takes. -/
def scopePatternOk (partial_name : String → Bool) (p : String) : Bool :=
  let p := stripLast '*' p.toList
  if !("refs/".toList.isPrefixOf p) || p.contains '*' then false
  else
    let name := stripLast '/' p
    name ≠ [] && partial_name (String.ofList name)

/-- The number of patterns that a repository may protect. -/
def maxProtected : ℕ := 64

/-- `protect`. -/
def protect (partial_name : String → Bool) (pattern : String) : Span Db Error Unit := do
  let db ← Span.read
  let p := trim pattern
  if 256 < p.utf8ByteSize || !scopePatternOk partial_name p then
    Span.fail (.protocol "ref must be a refs/… pattern (trailing * only)")
  else if maxProtected ≤ (db.protected.filter fun q => q ≠ p).length then
    Span.fail (.limit "too many protected patterns (64 max)")
  else Span.exec (protectRef p)

/-- `unprotect`: the result says whether there was such a pattern. -/
def unprotect (pattern : String) : Span Db Error Bool := do
  let db ← Span.read
  Span.exec (unprotectRef (trim pattern))
  pure (db.protected.contains (trim pattern))

/-- The text names the ref: it is the name, or it ends in a star and the name starts with what is
before it. -/
def Names (pattern name : String) : Prop :=
  name = pattern ∨
    (pattern.toList.getLast? = some '*' ∧ pattern.toList.dropLast <+: name.toList)

/-- What follows the last comma of a pattern that ends in a star, without the white space before it
and without the star. -/
def lastStem (pattern : String) : List Char :=
  (pattern.toList.dropLast.rtakeWhile fun c => c ≠ ',').dropWhile isWhite

/-- When a text protects a ref that it names. -/
def Protects (pattern name : String) : Prop :=
  (',' ∉ pattern.toList ∧ trim pattern = pattern) ∨
    (pattern.toList.getLast? = some '*' ∧ lastStem pattern <+: name.toList)

instance (pattern name : String) : Decidable (Names pattern name) :=
  inferInstanceAs (Decidable (_ ∨ _))

instance (pattern name : String) : Decidable (Protects pattern name) :=
  inferInstanceAs (Decidable (_ ∨ _))

/-! ## Texts and their pieces -/

/-- Trimming a text that ends in a star cuts at the start only. -/
theorem toList_trim_star {s : String} (h : s.toList = l ++ ['*']) :
    (trim s).toList = l.dropWhile isWhite ++ ['*'] := by
  have hstar : isWhite '*' = false := by decide
  have hfront : (l ++ ['*']).dropWhile isWhite = l.dropWhile isWhite ++ ['*'] := by
    rw [List.dropWhile_append]
    split_ifs with hnil
    · rw [List.isEmpty_iff.mp hnil]
      simp [hstar]
    · rfl
  rw [toList_trim, h, hfront]
  exact List.rdropWhile_concat_neg _ _ _ (by simp [hstar])

/-- A text that starts and ends with other characters than white space is trimmed. -/
theorem trim_eq_self {s : String} (hfirst : ∀ c, s.toList.head? = some c → isWhite c = false)
    (hlast : ∀ c, s.toList.getLast? = some c → isWhite c = false) : trim s = s := by
  have hfront : s.toList.dropWhile isWhite = s.toList := by
    cases hs : s.toList with
    | nil => rfl
    | cons c l => exact List.dropWhile_cons_of_neg (by simp [hfirst c (by rw [hs]; rfl)])
  have hback : s.toList.rdropWhile isWhite = s.toList := by
    rw [List.rdropWhile_eq_self_iff]
    intro hne
    simp [hlast _ (List.getLast?_eq_some_getLast hne)]
  apply String.ext
  rw [toList_trim, hfront, hback]

/-- The characters of a piece are characters of the list, and none is the separator. -/
theorem mem_piece {α : Type} [DecidableEq α] {sep : α} :
    ∀ {l q : List α}, q ∈ l.splitOn sep → ∀ c ∈ q, c ∈ l ∧ c ≠ sep := by
  intro l
  unfold List.splitOn
  induction l with
  | nil =>
    intro q hq c hc
    rw [List.splitOnP_nil, List.mem_singleton] at hq
    rw [hq] at hc
    cases hc
  | cons x l ih =>
    intro q hq c hc
    rw [List.splitOnP_cons_eq_if_modifyHead] at hq
    by_cases hx : x = sep
    · rw [if_pos (by simpa using hx)] at hq
      rcases List.mem_cons.mp hq with rfl | hq
      · cases hc
      · exact ⟨List.mem_cons_of_mem _ (ih hq c hc).1, (ih hq c hc).2⟩
    · rw [if_neg (by simpa using hx)] at hq
      cases hsplit : l.splitOnP (fun y => y == sep) with
      | nil => exact absurd hsplit (List.splitOnP_ne_nil _ _)
      | cons first rest =>
        rw [hsplit, List.modifyHead_cons] at hq
        -- Only the first piece grows by the character.
        rcases List.mem_cons.mp hq with rfl | hq
        · rcases List.mem_cons.mp hc with rfl | hc
          · exact ⟨List.mem_cons_self, hx⟩
          · obtain ⟨hl, hne⟩ := ih (hsplit ▸ List.mem_cons_self) c hc
            exact ⟨List.mem_cons_of_mem _ hl, hne⟩
        · obtain ⟨hl, hne⟩ := ih (hsplit ▸ List.mem_cons_of_mem _ hq) c hc
          exact ⟨List.mem_cons_of_mem _ hl, hne⟩

/-- A text that ends in a star and has no other one: its pieces are some without a star, and what
follows the last comma. -/
theorem pieces_star (hstar : '*' ∉ l) :
    ∃ front, (l ++ ['*']).splitOn ',' = front ++ [(l.rtakeWhile fun c => c ≠ ',') ++ ['*']] ∧
      ∀ q ∈ front, '*' ∉ q := by
  have hnone : ∀ q : List Char, ',' ∉ q → ((q ++ ['*']).splitOn ',') = [q ++ ['*']] := by
    intro q hq
    refine List.splitOnP_eq_singleton fun c hc => ?_
    rcases List.mem_append.mp hc with hc | hc
    · simpa using fun h : c = ',' => hq (h ▸ hc)
    · rw [List.mem_singleton.mp hc]
      decide
  have hlast : ',' ∉ l.rtakeWhile fun c => c ≠ ',' := fun h => by
    simpa using List.mem_rtakeWhile_imp h
  by_cases hcomma : ',' ∈ l
  · -- Up to the last comma, and from there on.
    obtain ⟨pre, hl⟩ : ∃ pre, l = pre ++ ',' :: l.rtakeWhile fun c => c ≠ ',' := by
      induction l using List.reverseRecOn with
      | nil => cases hcomma
      | append_singleton l c ih =>
        by_cases hc : c = ','
        · subst hc
          exact ⟨l, by rw [List.rtakeWhile_concat_neg _ _ _ (by simp)]⟩
        · have hmem : ',' ∈ l := by
            rcases List.mem_append.mp hcomma with h | h
            · exact h
            · exact absurd (List.mem_singleton.mp h).symm hc
          obtain ⟨pre, hpre⟩ := ih (fun h => hstar (by simp [h])) (fun h => by
            simpa using List.mem_rtakeWhile_imp h) hmem
          refine ⟨pre, ?_⟩
          rw [List.rtakeWhile_concat_pos _ _ _ (by simpa using hc)]
          conv_lhs => rw [hpre]
          simp
    generalize (l.rtakeWhile fun c => c ≠ ',') = last at hl hlast
    subst hl
    refine ⟨pre.splitOn ',', ?_, fun q hq hmem => hstar ?_⟩
    · rw [List.append_assoc, List.cons_append]
      exact (List.splitOnP_append_cons _ _ (by simp)).trans (congrArg _ (hnone last hlast))
    · simp [(mem_piece hq '*' hmem).1]
  · have hall : (l.rtakeWhile fun c => c ≠ ',') = l :=
      List.rtakeWhile_eq_self_iff.mpr fun c hc => by
        simpa using fun h : c = ',' => hcomma (h ▸ hc)
    exact ⟨[], by rw [hall, hnone l hcomma, List.nil_append], fun q hq => by cases hq⟩

/-! ## One pattern -/

/-- Some piece of a trimmed text that is not empty covers the name. -/
theorem scopeAllows_some (htrim : trim p = p) (hne : p ≠ "") :
    scopeAllows (some p) name = true ↔
      ∃ q ∈ p.toList.splitOn ',', trim (String.ofList q) ≠ "" ∧
        patternAllows (trim (String.ofList q)) name = true := by
  have hsome : nonempty (some p) = some p := by
    simp [nonempty, htrim, hne]
  unfold scopeAllows
  rw [hsome]
  simp only [List.any_eq_true, List.mem_filter, List.mem_map, decide_eq_true_eq]
  constructor
  · rintro ⟨_, ⟨⟨q, hq, rfl⟩, hempty⟩, hallow⟩
    exact ⟨q, hq, hempty, hallow⟩
  · rintro ⟨q, hq, hempty, hallow⟩
    exact ⟨_, ⟨⟨q, hq, rfl⟩, hempty⟩, hallow⟩

/-- A pattern without a star covers the name that it is. -/
theorem patternAllows_exact (h : '*' ∉ p.toList) : patternAllows p name = true ↔ name = p := by
  have hlast : p.toList.getLast? ≠ some '*' := fun hl => h (List.mem_of_getLast? hl)
  rw [patternAllows, if_neg hlast, decide_eq_true_eq]

theorem patternAllows_star (h : p.toList = l ++ ['*']) :
    patternAllows p name = true ↔ l <+: name.toList := by
  rw [patternAllows, h, List.getLast?_concat, if_pos rfl, List.dropLast_concat,
    List.isPrefixOf_iff_prefix]

section

/-- A name without a star that a text covers by being its name. -/
theorem scopeAllows_exact (hrefs : "refs/".toList <+: pattern.toList)
    (hstar : '*' ∉ pattern.toList) :
    scopeAllows (some (trim pattern)) pattern = true ↔
      ',' ∉ pattern.toList ∧ trim pattern = pattern := by
  have hmem : ∀ {q}, q ∈ (trim pattern).toList.splitOn ',' → ∀ {c},
      c ∈ (trim (String.ofList q)).toList → c ∈ pattern.toList ∧ c ≠ ',' := by
    intro q hq c hc
    have hcq : c ∈ q := String.toList_ofList (l := q) ▸ mem_trim hc
    exact ⟨mem_trim (mem_piece hq c hcq).1, (mem_piece hq c hcq).2⟩
  have hne : trim pattern ≠ "" := by
    intro hempty
    obtain ⟨rest, hrest⟩ := hrefs
    have hr : pattern.toList.head? = some 'r' := by rw [← hrest]; rfl
    have hnil : (trim pattern).toList = [] := by rw [hempty]; rfl
    rw [toList_trim, List.rdropWhile_eq_nil_iff] at hnil
    cases hp : pattern.toList with
    | nil => rw [hp] at hr; cases hr
    | cons c l =>
      rw [hp] at hr hnil
      obtain rfl : c = 'r' := Option.some.inj hr
      rw [List.dropWhile_cons_of_neg (by decide)] at hnil
      exact absurd (hnil 'r' List.mem_cons_self) (by decide)
  rw [scopeAllows_some (trim_trim pattern) hne]
  constructor
  · rintro ⟨q, hq, -, hallow⟩
    rw [patternAllows_exact fun h => hstar (hmem hq h).1] at hallow
    -- The name is a piece, so it has no comma, and there is one piece only.
    have hcomma : ',' ∉ pattern.toList := by
      intro h
      rw [hallow] at h
      exact (hmem hq h).2 rfl
    have hsingle : (trim pattern).toList.splitOn ',' = [(trim pattern).toList] :=
      List.splitOnP_eq_singleton fun c hc => by
        simpa using fun h : c = ',' => hcomma (h ▸ mem_trim hc)
    rw [hsingle, List.mem_singleton] at hq
    rw [hq, String.ofList_toList, trim_trim] at hallow
    exact ⟨hcomma, hallow.symm⟩
  · rintro ⟨hcomma, htrim⟩
    rw [htrim]
    refine ⟨pattern.toList, ?_, ?_, ?_⟩
    · rw [show pattern.toList.splitOn ',' = [pattern.toList] from
        List.splitOnP_eq_singleton fun c hc => by simpa using fun h : c = ',' => hcomma (h ▸ hc)]
      exact List.mem_singleton_self _
    · rw [String.ofList_toList, htrim]
      exact htrim ▸ hne
    · rw [String.ofList_toList, htrim]
      exact (patternAllows_exact hstar).mpr rfl

/-- A name that a text names by its star. -/
theorem scopeAllows_star (hpattern : pattern.toList = l ++ ['*']) (hstar : '*' ∉ l)
    (htrim : trim pattern = pattern) (hname : l <+: name.toList) :
    scopeAllows (some pattern) name = true ↔
      ',' ∉ pattern.toList ∨ lastStem pattern <+: name.toList := by
  obtain ⟨front, hpieces, hfront⟩ := pieces_star hstar
  have hne : pattern ≠ "" := fun h => by simp [h] at hpattern
  have hlast : (trim (String.ofList ((l.rtakeWhile fun c => c ≠ ',') ++ ['*']))).toList =
      lastStem pattern ++ ['*'] := by
    rw [toList_trim_star String.toList_ofList, lastStem, hpattern, List.dropLast_concat]
  rw [scopeAllows_some htrim hne, hpattern, hpieces]
  constructor
  · rintro ⟨q, hq, -, hallow⟩
    rcases List.mem_append.mp hq with hq | hq
    · -- A piece before the last one is a whole name, and has no comma.
      left
      have hnostar : '*' ∉ (trim (String.ofList q)).toList := fun h =>
        hfront q hq (String.toList_ofList (l := q) ▸ mem_trim h)
      rw [patternAllows_exact hnostar] at hallow
      intro hcomma
      have hcl : ',' ∈ l := by simpa using hcomma
      have hcq : ',' ∈ (trim (String.ofList q)).toList := hallow ▸ hname.subset hcl
      have hpiece : q ∈ (l ++ ['*']).splitOn ',' := by simp [hpieces, hq]
      exact (mem_piece hpiece ',' (String.toList_ofList (l := q) ▸ mem_trim hcq)).2 rfl
    · rw [List.mem_singleton.mp hq] at hallow
      exact .inr ((patternAllows_star hlast).mp hallow)
  · intro h
    refine ⟨_, List.mem_append_right _ (List.mem_singleton_self _), ?_,
      (patternAllows_star hlast).mpr ?_⟩
    · intro hempty
      rw [hempty] at hlast
      simp at hlast
    · rcases h with hcomma | hstem
      · -- Without a comma the last piece is the whole text.
        have hall : (l.rtakeWhile fun c => c ≠ ',') = l :=
          List.rtakeWhile_eq_self_iff.mpr fun c hc => by
            simpa using fun h : c = ',' => hcomma (h ▸ List.mem_append_left _ hc)
        have hwhite : l ++ ['*'] = l.dropWhile isWhite ++ ['*'] := by
          rw [← toList_trim_star hpattern, htrim, hpattern]
        rw [lastStem, hpattern, List.dropLast_concat, hall, ← List.append_cancel_right hwhite]
        exact hname
      · exact hstem

end

/-! ## Patterns over time -/

/-- A step of the repository, as far as the protected patterns are concerned, with the pattern that
it removes. -/
inductive GuardStep (partial_name : String → Bool) : Db → Option String → Db → Prop
  | protect (pattern : String) (s : Db) :
      GuardStep partial_name s none ((protect partial_name pattern).run s).state
  | unprotect (pattern : String) (s : Db) :
      GuardStep partial_name s (some (trim pattern)) ((unprotect pattern).run s).state
  | rest {s t : Db} (h : t.protected = s.protected) : GuardStep partial_name s none t

/-- A period in which the pattern is not removed. -/
inductive GuardPeriod (partial_name : String → Bool) (p : String) : Db → Db → Prop
  | refl (s : Db) : GuardPeriod partial_name p s s
  | step {s t u : Db} {removes : Option String} (hp : GuardPeriod partial_name p s t)
      (ht : GuardStep partial_name t removes u) (hne : removes ≠ some p) :
      GuardPeriod partial_name p s u

section

variable {partial_name : String → Bool}

/-- What `protect` checks, and what it writes. -/
theorem protect_cases (partial_name : String → Bool) (pattern : String) (s : Db) :
    let o := (protect partial_name pattern).run s
    (o.state = s ∧ ∃ e, o.res = .error e) ∨
      (scopePatternOk partial_name (trim pattern) = true ∧ (trim pattern).utf8ByteSize ≤ 256 ∧
        o.res = .ok () ∧ o.state = protectRef (trim pattern) s) := by
  intro o
  have ho : o = (protect partial_name pattern).run s := rfl
  unfold protect at ho
  rw [Span.run_read_bind] at ho
  dsimp only at ho
  split at ho
  · exact .inl (by rw [ho]; exact ⟨rfl, _, rfl⟩)
  rename_i hok
  split at ho
  · exact .inl (by rw [ho]; exact ⟨rfl, _, rfl⟩)
  · simp only [Bool.or_eq_true, decide_eq_true_eq, Bool.not_eq_true', not_or, not_lt,
      Bool.not_eq_false] at hok
    exact .inr ⟨hok.2, hok.1, by rw [ho]; rfl, by rw [ho]; rfl⟩

theorem mem_protectRef {q : String} : q ∈ (protectRef p s).protected ↔ q ∈ s.protected ∨ q = p := by
  unfold protectRef
  split_ifs with h
  · exact ⟨.inl, fun hq => hq.elim id fun hq => hq ▸ h⟩
  · simp

/-- A text that some state accepts is accepted by a new repository. -/
theorem protect_boot (h : ((protect partial_name pattern).run s).res = .ok ()) :
    ((protect partial_name pattern).run (boot 0)).res = .ok () ∧
      ((protect partial_name pattern).run (boot 0)).state.protected = [trim pattern] := by
  rcases protect_cases partial_name pattern s with ⟨-, e, he⟩ | ⟨hok, hlen, -⟩
  · rw [he] at h
    cases h
  · obtain ⟨jobs, seq, hboot⟩ := boot_eq 0
    have hempty : (boot 0).protected = [] := by rw [hboot]; rfl
    have hrun : (protect partial_name pattern).run (boot 0) =
        (Span.exec (protectRef (trim pattern))).run (boot 0) := by
      unfold protect
      rw [Span.run_read_bind]
      simp [hok, hempty, maxProtected, not_lt.mpr hlen]
    rw [hrun]
    refine ⟨rfl, ?_⟩
    show (protectRef (trim pattern) (boot 0)).protected = _
    simp [protectRef, hempty]

/-- A pattern stays until it is removed. -/
theorem GuardPeriod.stays {t : Db} (h : GuardPeriod partial_name p s t) (hs : p ∈ s.protected) :
    p ∈ t.protected := by
  induction h with
  | refl => exact hs
  | @step t u removes _ ht hne ih =>
    cases ht with
    | protect pattern =>
      rcases protect_cases partial_name pattern t with ⟨hst, -⟩ | ⟨-, -, -, hst⟩
      · rw [hst]
        exact ih
      · rw [hst]
        exact mem_protectRef.mpr (.inl ih)
    | unprotect pattern =>
      have hkeep : p ≠ trim pattern := fun h => hne (by rw [h])
      show p ∈ (unprotectRef (trim pattern) t).protected
      simp [unprotectRef, ih, hkeep]
    | rest h => rwa [h]

/-- A text that `protect` accepts, and a valid name that it names: the stored pattern covers the
name exactly in the cases of `Protects`. -/
theorem scopeAllows_named {env : Env} (hok : scopePatternOk partial_name (trim pattern) = true)
    (hvalid : validRef env name = true) (hstar : '*' ∉ name.toList) (hnames : Names pattern name) :
    scopeAllows (some (trim pattern)) name = true ↔ Protects pattern name := by
  have hrefs : "refs/".toList <+: name.toList := by
    unfold validRef at hvalid
    rw [Bool.and_eq_true, List.isPrefixOf_iff_prefix] at hvalid
    exact hvalid.1
  rcases hnames with rfl | ⟨hlast, hprefixed⟩
  · rw [scopeAllows_exact hrefs hstar, Protects]
    exact ⟨.inl, fun h => h.elim id fun h => absurd (List.mem_of_getLast? h.1) hstar⟩
  · obtain ⟨l, hl⟩ := List.getLast?_eq_some_iff.mp hlast
    rw [hl, List.dropLast_concat] at hprefixed
    have hstarl : '*' ∉ l := fun h => hstar (hprefixed.subset h)
    -- The text starts as the name does, so nothing is trimmed.
    have htrim : trim pattern = pattern := by
      cases l with
      | nil =>
        have hp : (trim pattern).toList = ['*'] := toList_trim_star hl
        simp [scopePatternOk, hp, stripLast] at hok
      | cons c l =>
        have hc : c = 'r' := by
          obtain ⟨a, ha⟩ := hrefs
          obtain ⟨b, hb⟩ := hprefixed
          rw [← ha] at hb
          exact (List.cons.inj hb).1
        refine trim_eq_self (fun d hd => ?_) fun d hd => ?_
        · rw [hl, hc] at hd
          obtain rfl : 'r' = d := Option.some.inj hd
          decide
        · rw [hlast] at hd
          obtain rfl : '*' = d := Option.some.inj hd
          decide
    rw [htrim, scopeAllows_star hl hstarl htrim hprefixed, Protects]
    simp [htrim, hlast]

/-- A text that `protect` accepts protects a valid name that it names, in every state until it is
removed and against every delete and every update that is no fast-forward, exactly if the text is
trimmed and has no comma, or ends in a star and the name starts with what follows the last comma.
Valid names have no star. -/
theorem protects_named_iff (env : Env) (objs : Objects)
    (hstars : ∀ name, env.valid_name name = true → '*' ∉ name.toList) (pattern name : String)
    (hacc : ∃ s, ((protect partial_name pattern).run s).res = .ok ())
    (hvalid : validRef env name = true) (hnames : Names pattern name) :
    (∀ s t, ((protect partial_name pattern).run s).res = .ok () →
      GuardPeriod partial_name (trim pattern) ((protect partial_name pattern).run s).state t →
        t.isProtected name = true ∧ ∀ rs u, ProtectStep env objs t rs u → ∀ r ∈ rs,
          r.cmd.name = name → r.verdict = none → t.Forward r.cmd) ↔ Protects pattern name := by
  obtain ⟨s₀, hs₀⟩ := hacc
  have hok : scopePatternOk partial_name (trim pattern) = true := by
    rcases protect_cases partial_name pattern s₀ with ⟨-, e, he⟩ | ⟨hok, -⟩
    · rw [he] at hs₀
      cases hs₀
    · exact hok
  have hstar : '*' ∉ name.toList := by
    unfold validRef at hvalid
    rw [Bool.and_eq_true] at hvalid
    exact hstars name hvalid.2
  rw [← scopeAllows_named hok hvalid hstar hnames]
  constructor
  · -- In a new repository the pattern is the only one.
    intro h
    obtain ⟨hres, hprotected⟩ := protect_boot hs₀
    have hboot := (h (boot 0) _ hres (.refl _)).1
    rw [Db.isProtected, hprotected, List.any_cons, List.any_nil, Bool.or_false] at hboot
    exact hboot
  · intro hallow s t hs ht
    have hmem : trim pattern ∈ t.protected := by
      refine ht.stays ?_
      rcases protect_cases partial_name pattern s with ⟨-, e, he⟩ | ⟨-, -, -, hst⟩
      · rw [he] at hs
        cases hs
      · rw [hst]
        exact mem_protectRef.mpr (.inr rfl)
    have hprot : t.isProtected name = true := List.any_eq_true.mpr ⟨_, hmem, hallow⟩
    refine ⟨hprot, fun rs u hu r hr hname hdone => ?_⟩
    exact hu.effect.2 r hr hdone (hname ▸ hprot)

end

/-- The rules of git for the names of refs. -/
def checkRefFormat (name : String) : Bool :=
  (name.toList.all fun c => 0x20 < c.toNat && c.toNat ≠ 0x7f &&
      !(['~', '^', ':', '?', '*', '[', '\\'].contains c)) &&
    !(decide (['.', '.'] <:+: name.toList)) && !(decide (['@', '\x7b'] <:+: name.toList)) &&
    ((name.toList.splitOn '/').all fun q =>
      q ≠ [] && q.head? ≠ some '.' && !(".lock".toList.isSuffixOf q)) &&
    name.toList.getLast? ≠ some '.'

theorem checkRefFormat_star (h : checkRefFormat name = true) : '*' ∉ name.toList := by
  intro hmem
  simp only [checkRefFormat, Bool.and_eq_true, List.all_eq_true] at h
  have := (h.1.1.1.1 '*' hmem).2
  simp at this

/-- A star pattern protects the branches that it names. -/
theorem protects_named_iff_heads :
    Protects "refs/heads/*" "refs/heads/a" ∧
      ((protect checkRefFormat "refs/heads/*").run (boot 0)).state.isProtected "refs/heads/a" =
        true := by
  have hcovers : Protects "refs/heads/*" "refs/heads/a" := by decide
  have hacc : ((protect checkRefFormat "refs/heads/*").run (boot 0)).res = .ok () := by
    decide +kernel
  exact ⟨hcovers, (((protects_named_iff (Env.default checkRefFormat) twoCommits
    (fun _ => checkRefFormat_star) "refs/heads/*" "refs/heads/a" ⟨boot 0, hacc⟩ (by decide +kernel)
    (by decide)).mpr hcovers) (boot 0) _ hacc (.refl _)).1⟩

/-- A branch whose name has a comma, which is protected by its name, and a push that is open. -/
def commaReady : Db :=
  let env := Env.default checkRefFormat
  let db := ((pushBegin env 1 .off ⟨1, "admin", "", true, none⟩).run (boot 0)).state
  let db := ((pushIndex 2 ⟨10, 1, 1, 100⟩
    [⟨⟨7, 10, 0, 12, 30, .commit, 40⟩, some []⟩]).run db).state
  let db := ((commitPush env 3 ⟨1, some 10, "admin",
    [⟨0, 7, "refs/heads/main", none⟩, ⟨0, 7, "refs/heads/a,b", none⟩], true⟩).run db).state
  let db := ((pushBegin env 4 .off ⟨2, "admin", "", true, none⟩).run db).state
  ((protect checkRefFormat "refs/heads/a,b").run db).state

/-- The name is accepted as a pattern and stored, it is not protected, and a push deletes the
branch. -/
theorem protect_misses_comma :
    ((protect checkRefFormat "refs/heads/a,b").run (boot 0)).res = .ok () ∧
      validRef (Env.default checkRefFormat) "refs/heads/a,b" = true ∧
      commaReady.protected = ["refs/heads/a,b"] ∧
      commaReady.isProtected "refs/heads/a,b" = false ∧
      commaReady.target "refs/heads/a,b" = some 7 ∧
      ((commitPush (Env.default checkRefFormat) 5
        ⟨2, none, "admin", [⟨7, 0, "refs/heads/a,b", none⟩], false⟩).run commaReady).state.target
          "refs/heads/a,b" = none := by
  decide +kernel

end GitEdge
