import GitEdge.Repo.History

/-!
# `HEAD` and the branches

`meta.head` is written in two places: a commit that lands a command adopts the first branch by name
when the head names no ref, and the commit of an import adopts the remote's head when there is a ref
of that name. The first takes the branches from a `LIKE` pattern, which ignores the case of letters,
and the second asks nothing of the name, so the head can name a ref that is not a branch while
branches exist (`head_leaves_branches`). Where every name that the pattern takes is spelled with the
exact prefix, and every remote head is a branch, the head names a branch after each commit that
changes a ref and leaves one (`head_names_branch`).
-/

namespace GitEdge

open Sql

variable {s : Db} {env : Env}

/-- The name starts with the bytes `refs/heads/`. -/
def isBranch (name : String) : Bool := "refs/heads/".toList.isPrefixOf name.toList

/-- The name is `LIKE 'refs/heads/%'`. -/
def likeBranch (name : String) : Bool :=
  "refs/heads/".toList.isPrefixOf (name.toList.map Char.toLower)

/-- A name with the exact prefix is taken by the pattern. -/
theorem likeBranch_of_isBranch {name : String} (h : isBranch name = true) :
    likeBranch name = true := by
  obtain ⟨rest, hrest⟩ := List.isPrefixOf_iff_prefix.mp h
  rw [likeBranch, ← hrest, List.map_append]
  exact List.isPrefixOf_iff_prefix.mpr ⟨rest.map Char.toLower, rfl⟩

/-! ## The adoption of a branch -/

/-- A head that is adopted is the name of a ref that the pattern takes. -/
theorem adoptHead_spec (s : Db) :
    (adoptHead s).refs = s.refs ∧
      ((adoptHead s).head = s.head ∨
        ∃ r ∈ s.refs, r.name = (adoptHead s).head ∧ likeBranch r.name = true) ∧
      ((∃ r ∈ s.refs, likeBranch r.name = true) → s.refs.has (adoptHead s).head = true) := by
  unfold adoptHead
  split_ifs with hhas
  · exact ⟨rfl, .inl rfl, fun _ => hhas⟩
  · have hperm := List.perm_insertionSort (· ≤ ·) (s.branches.map (·.name))
    cases hsort : (s.branches.map (·.name)).insertionSort (· ≤ ·) with
    | nil =>
      refine ⟨rfl, .inl rfl, ?_⟩
      rintro ⟨r, hr, hlike⟩
      -- No branch is sorted, so there is none.
      rw [hsort] at hperm
      have hmem : r.name ∈ s.branches.map (·.name) :=
        List.mem_map_of_mem (Table.mem_select.mpr ⟨hr, hlike⟩)
      rw [List.nil_perm.mp hperm] at hmem
      cases hmem
    | cons name names =>
      have hmem : name ∈ s.branches.map (·.name) := by
        rw [← hperm.mem_iff, hsort]
        exact List.mem_cons_self
      obtain ⟨r, hr, rfl⟩ := List.mem_map.mp hmem
      obtain ⟨hr, hlike⟩ := Table.mem_select.mp hr
      exact ⟨rfl, .inr ⟨r, hr, rfl, hlike⟩, fun _ => Table.has_iff.mpr ⟨r, hr, rfl⟩⟩

/-! ## The names of the refs -/

/-- A name that a command writes is its own, or was there. -/
theorem Cmd.mem_write {c : Cmd} {now : ℤ} {refs : Table RefRow RefRow.name} {r : RefRow}
    (h : r ∈ c.write now refs) : r.name = c.name ∨ ∃ q ∈ refs, q.name = r.name := by
  unfold Cmd.write at h
  split_ifs at h
  · rcases Table.mem_insertIgnore.mp h with h | ⟨rfl, -⟩
    · exact .inr ⟨r, h, rfl⟩
    · exact .inl rfl
  · exact .inr ⟨r, (Table.mem_deleteWhere.mp h).1, rfl⟩
  · obtain ⟨q, hq, rfl⟩ := Table.mem_updateWhere.mp h
    right
    refine ⟨q, hq, ?_⟩
    split_ifs <;> rfl

/-- The names of the refs after the writes are those from before and those of the commands. -/
theorem landCommands_refNames (env : Env) (head : String) (push : PushId) (who : String) (now : ℤ)
    (barrier : Bool) (scopes : List (Option String)) (cs : List Cmd) (s : Db) :
    ∀ r ∈ (landCommands env head push who now barrier scopes cs s).2.refs,
      (∃ c ∈ cs, c.name = r.name) ∨ ∃ q ∈ s.refs, q.name = r.name := by
  induction cs generalizing s with
  | nil => exact fun r hr => .inr ⟨r, hr, rfl⟩
  | cons c cs ih =>
    intro r hr
    simp only [landCommands] at hr
    rcases ih _ r hr with ⟨d, hd, hname⟩ | ⟨q, hq, hname⟩
    · exact .inl ⟨d, by simp [hd], hname⟩
    · split_ifs at hq
      · rw [landed_refs] at hq
        rcases Cmd.mem_write hq with hc | ⟨q', hq', hname'⟩
        · exact .inl ⟨c, by simp, hc.symm.trans hname⟩
        · exact .inr ⟨q', hq', hname'.trans hname⟩
      · exact .inr ⟨q, hq, hname⟩

/-! ## Runs -/

/-- The head is a branch by its name, and so is every ref that the pattern takes. -/
structure PlainDb (db : Db) : Prop where
  head : isBranch db.head = true
  refs : ∀ r ∈ db.refs, likeBranch r.name = true → isBranch r.name = true

/-- The head names a branch, if there is one. -/
def HeadOk (db : Db) : Prop :=
  (∃ r ∈ db.refs, isBranch r.name = true) → db.refs.has db.head = true ∧ isBranch db.head = true

/-- The names of the commands that the pattern takes have the exact prefix. -/
def PlainCommands (cs : List Cmd) : Prop :=
  ∀ c ∈ cs, likeBranch c.name = true → isBranch c.name = true

/-- A commit with plain commands, up to the end of `commit_push`: the names stay plain, and a change
of the refs leaves a head that is a branch. -/
theorem commitPush_head (env : Env) (now : ℤ) (req : CommitRequest) (hs : PlainDb s)
    (hcs : PlainCommands req.commands) : let t := ((commitPush env now req).run s).state
    PlainDb t ∧ (t.refs ≠ s.refs → HeadOk t) := by
  intro t
  rcases commitPush_effect env now req s with ⟨hrefs, -, hhead, -⟩ |
    ⟨scopes, P, -, h3, -, hrefs, -, hhead⟩
  · refine ⟨⟨?_, ?_⟩, fun h => absurd hrefs h⟩
    · rw [show t.head = _ from hhead]
      exact hs.head
    · rw [show t.refs = _ from hrefs]
      exact hs.refs
  · obtain ⟨-, hP, hPhead⟩ := h3.judged
    have hnames := landCommands_refNames env P.head req.push_id req.principal now
      s.barrierActive scopes
      req.commands P
    have hsame := landCommands_none env P.head req.push_id req.principal now s.barrierActive scopes
      req.commands P
    have hframe := landCommands_frame env P.head req.push_id req.principal now
      s.barrierActive scopes
      req.commands P
    rw [hP] at hnames
    generalize landCommands env P.head req.push_id req.principal now s.barrierActive scopes
      req.commands P = L at hrefs hhead hnames hsame hframe
    have htrefs : t.refs = L.2.refs := hrefs
    have hthead : t.head = _ := hhead
    have hplain : ∀ r ∈ t.refs, likeBranch r.name = true → isBranch r.name = true := by
      intro r hr hlike
      rw [htrefs] at hr
      rcases hnames r hr with ⟨c, hc, hname⟩ | ⟨q, hq, hname⟩
      · rw [← hname] at hlike ⊢
        exact hcs c hc hlike
      · rw [← hname] at hlike ⊢
        exact hs.refs q hq hlike
    have hLhead : L.2.head = s.head := hframe.2.2.trans hPhead
    cases hany : L.1.any fun r => r.2.isNone with
    | false =>
      -- No command landed.
      rw [hany, (settled_frame false req L.2).2.2 rfl, hLhead] at hthead
      refine ⟨⟨hthead ▸ hs.head, hplain⟩, fun h => absurd ?_ h⟩
      rw [htrefs, hsame hany, hP]
    | true =>
      rw [hany] at hthead
      obtain ⟨hrefs', hadopted, hhas⟩ := adoptHead_spec (bumpRefsVersion L.2)
      have hset : (settled true req L.2).head = (adoptHead (bumpRefsVersion L.2)).head := rfl
      rw [hset] at hthead
      have hbranch : isBranch t.head = true := by
        rcases hadopted with h | ⟨r, hr, hname, hlike⟩
        · rw [hthead, h]
          exact hLhead ▸ hs.head
        · rw [hthead, ← hname]
          exact hplain r (htrefs ▸ hr) hlike
      refine ⟨⟨hbranch, hplain⟩, fun _ ⟨r, hr, hrb⟩ => ⟨?_, hbranch⟩⟩
      rw [hthead, htrefs]
      exact hhas ⟨r, htrefs ▸ hr, likeBranch_of_isBranch hrb⟩

/-- A step of the repository, as far as the head is concerned, with the commands and the remote head
that it takes. All other code writes neither the refs nor the head. -/
inductive HeadStep (env : Env) : Db → List Cmd → Option String → Db → Prop
  | push (now : ℤ) (req : CommitRequest) (s : Db) :
      HeadStep env s req.commands none ((commitPush env now req).run s).state
  | importPack (now : ℤ) (id : ℕ) (lease : Lease) (p : ImportPayload) (c : ImportCursor)
      (m : PackMeta) (s : Db) :
      HeadStep env s p.commands p.head ((commitMeta env now id lease p c m).run s).state
  | rest {s t : Db} (refs : t.refs = s.refs) (head : t.head = s.head) : HeadStep env s [] none t

/-- The states of runs from a new repository whose steps all meet a condition. -/
inductive HeadReach (env : Env) (meets : List Cmd → Option String → Prop) : Db → Prop
  | boot (now : ℤ) : HeadReach env meets (boot now)
  | step {s t : Db} {cs : List Cmd} {head : Option String} (hs : HeadReach env meets s)
      (ht : HeadStep env s cs head t) (hm : meets cs head) : HeadReach env meets t

/-- The commands are plain, and the remote head is a branch. -/
def PlainStep (cs : List Cmd) (head : Option String) : Prop :=
  PlainCommands cs ∧ ∀ h ∈ head, isBranch h = true

/-- A plain step keeps the names plain, and one that changes the refs leaves a head that is a
branch. -/
theorem HeadStep.plain {t : Db} {cs : List Cmd} {head : Option String}
    (ht : HeadStep env s cs head t) (hs : PlainDb s) (hm : PlainStep cs head) :
    PlainDb t ∧ (t.refs ≠ s.refs → HeadOk t) := by
  cases ht with
  | push now req s => exact commitPush_head env now req hs hm.1
  | rest refs head =>
    refine ⟨⟨by rw [head]; exact hs.head, by rw [refs]; exact hs.refs⟩, fun h => absurd refs h⟩
  | importPack now id lease p c m s =>
    rcases commitMeta_cases env now id lease p c m s with ⟨-, ht⟩ |
      ⟨-, links, toc, parts, opens, tail, ht⟩
    · rcases ht with ht | ht <;> rw [ht] <;> exact ⟨⟨hs.head, hs.refs⟩, fun h => absurd rfl h⟩
    · have hprep : PlainDb (prepared now id lease p m s) := ⟨hs.head, hs.refs⟩
      obtain ⟨hplain, hok⟩ := commitPush_head env now p.request hprep hm.1
      rw [ht]
      generalize (commitPush env now p.request).run (prepared now id lease p m s) = o at hplain hok
      -- The remote's head is adopted when it names a ref.
      have hremote : o.state.remoteHead p o.res = o.state.head ∨
          isBranch (o.state.remoteHead p o.res) = true ∧
            o.state.refs.has (o.state.remoteHead p o.res) = true := by
        unfold Db.remoteHead
        cases o.res with
        | error e => exact .inl rfl
        | ok results =>
          cases hp : p.head with
          | none => exact .inl rfl
          | some h =>
            dsimp only
            split_ifs with hhas
            · exact .inr ⟨hm.2 h hp, hhas⟩
            · exact .inl rfl
      rcases hremote with h | ⟨hb, hhas⟩
      · rw [h]
        exact ⟨⟨hplain.head, hplain.refs⟩, hok⟩
      · exact ⟨⟨hb, hplain.refs⟩, fun _ _ => ⟨hhas, hb⟩⟩

theorem HeadReach.plain (hs : HeadReach env PlainStep s) : PlainDb s := by
  induction hs with
  | boot now =>
    obtain ⟨jobs, seq, he⟩ := boot_eq now
    have hmain : isBranch "refs/heads/main" = true := by decide
    rw [he]
    exact ⟨hmain, fun r hr => absurd hr (Table.not_mem_empty r)⟩
  | step _ ht hm ih => exact (ht.plain ih hm).1

/-- In every run of plain steps, after each commit that changes a ref the head names an existing
branch, if there is one. -/
theorem head_names_branch {t : Db} {cs : List Cmd} {head : Option String}
    (hs : HeadReach env PlainStep s) (ht : HeadStep env s cs head t) (hm : PlainStep cs head)
    (hchanged : t.refs ≠ s.refs) : HeadOk t :=
  (ht.plain hs.plain hm).2 hchanged

theorem raceReady_headReach (meets : List Cmd → Option String → Prop) (hm : meets [] none) :
    HeadReach (Env.default fun _ => true) meets raceReady :=
  .step (.boot 0) (.rest rfl rfl) hm

/-- After the first push of the race the head is its branch. -/
theorem head_names_branch_race :
    HeadReach (Env.default fun _ => true) PlainStep raceReady ∧ raceWon.refs ≠ raceReady.refs ∧
      HeadOk raceWon := by
  have hreach :=
    raceReady_headReach PlainStep ⟨fun c hc => (by cases hc), fun h hh => (by cases hh)⟩
  have hchanged : raceWon.refs ≠ raceReady.refs := fun h =>
    absurd (congrArg Table.size h) (by decide)
  refine ⟨hreach, hchanged, head_names_branch hreach (.push 4 ⟨1, some 10, "admin",
    [⟨0, 7, "refs/heads/a", none⟩], true⟩ raceReady) ⟨fun c hc _ => ?_, fun h hh => by cases hh⟩
    hchanged⟩
  rw [List.mem_singleton.mp hc]
  decide

/-- The first push creates a branch, and a ref that only the pattern takes for one. -/
def mixedCase : Db :=
  ((commitPush (Env.default fun _ => true) 4 ⟨1, some 10, "admin",
    [⟨0, 7, "refs/Heads/a", none⟩, ⟨0, 8, "refs/heads/b", none⟩], true⟩).run raceReady).state

/-- A branch and a tag, and an import in its last slice. -/
def tagReady : Db :=
  let env := Env.default fun _ => true
  let db := ((commitPush env 4 ⟨1, some 10, "admin",
    [⟨0, 7, "refs/heads/a", none⟩, ⟨0, 8, "refs/tags/v", none⟩], true⟩).run raceReady).state
  let db := ((pushIndex 5 ⟨20, 2, 1, 100⟩ [⟨⟨7, 20, 0, 12, 50, .commit, 40⟩, some []⟩]).run
    db).state
  { db with
    jobs := db.jobs.insertIgnore
      { Job.fresh 9 .importPack 6 .none with state := .running, lease := some 77 } }

/-- The remote's head is the tag. -/
def tagPayload : ImportPayload :=
  ⟨2, 20, "admin", [⟨0, 7, "refs/heads/c", none⟩], some "https://remote", some "refs/tags/v"⟩

/-- The import when it has ended. -/
def tagDone : Db :=
  ((commitMeta (Env.default fun _ => true) 8 9 77 tagPayload lateImportCursor ⟨1, 100⟩).run
    tagReady).state

/-- The head names a ref that is not a branch while there are branches: after a push of a name that
differs from a branch in the case of a letter, and after an import from a remote whose head is a
tag. -/
theorem head_leaves_branches :
    (HeadReach (Env.default fun _ => true) (fun _ _ => True) mixedCase ∧
        mixedCase.head = "refs/Heads/a" ∧ mixedCase.target "refs/heads/b" = some 8 ∧
        ¬ HeadOk mixedCase) ∧
      HeadReach (Env.default fun _ => true) (fun _ _ => True) tagDone ∧
        tagDone.head = "refs/tags/v" ∧ tagDone.target "refs/heads/c" = some 7 ∧
        ¬ HeadOk tagDone := by
  have hready := raceReady_headReach (fun _ _ => True) trivial
  have hleaves : ∀ db : Db, (∃ r ∈ db.refs, isBranch r.name = true) → isBranch db.head = false →
      ¬ HeadOk db := fun db hb hh hok => by simp [(hok hb).2] at hh
  have hmixed := HeadReach.step hready (.push 4 ⟨1, some 10, "admin",
    [⟨0, 7, "refs/Heads/a", none⟩, ⟨0, 8, "refs/heads/b", none⟩], true⟩ raceReady) trivial
  have htag : HeadReach (Env.default fun _ => true) (fun _ _ => True) tagReady :=
    .step (.step hready (.push 4 ⟨1, some 10, "admin",
      [⟨0, 7, "refs/heads/a", none⟩, ⟨0, 8, "refs/tags/v", none⟩], true⟩ raceReady) trivial)
      (.rest rfl rfl) trivial
  have hdone :=
    HeadReach.step htag (.importPack 8 9 77 tagPayload lateImportCursor ⟨1, 100⟩ tagReady)
    trivial
  refine ⟨⟨hmixed, by decide, by decide, hleaves _ ?_ (by decide)⟩, hdone, by decide, by decide,
    hleaves _ ?_ (by decide)⟩
  · exact ⟨⟨"refs/heads/b", 8, none, 4⟩, Table.mem_def.mpr (by decide), by decide⟩
  · exact ⟨⟨"refs/heads/a", 7, none, 4⟩, Table.mem_def.mpr (by decide), by decide⟩

end GitEdge
