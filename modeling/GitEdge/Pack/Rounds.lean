import GitEdge.Lib.Levels
import GitEdge.Pack.Emit

/-!
# The walk over the commits by rounds

The third loop of `send_set` with all its arguments: the haves, the client's shallow commits, and
the ways to deepen. Each round sorts its queue, keeps the best entry of each commit, and drops what
an earlier round has visited. So the walk is a search by levels, whose labels are the depth and
whether it counts (`walkRules`).

From what a visit does follow what a round does (`Round`) and what the whole walk comes to
(`Walked`), in whatever states the walk is resumed: the commits visited are those that the search
takes, and which of them are sent, descended below or recorded depends on the label only.
-/

namespace GitEdge

open Sql Process

variable {q : QueueItem} {w : CommitWalk} {P : QueueItem → Prop} {w₀ : WantWalk}

/-! ## The queue -/

section Queue

variable {p r : QueueItem}

theorem QueueItem.le_iff : QueueItem.le q p = true ↔ q.id < p.id ∨
    (q.id = p.id ∧ ((q.counted = true ∧ p.counted = false) ∨
      (q.counted = p.counted ∧ q.depth ≤ p.depth))) := by
  unfold QueueItem.le
  simp

theorem QueueItem.le_refl (q : QueueItem) : QueueItem.le q q = true :=
  QueueItem.le_iff.mpr (.inr ⟨rfl, .inr ⟨rfl, Nat.le_refl _⟩⟩)

theorem QueueItem.eq_of_le (h : QueueItem.le q p = true) (h' : QueueItem.le p q = true)
    (hid : q.id = p.id) : q = p := by
  obtain ⟨x, d, c⟩ := q
  obtain ⟨y, e, b⟩ := p
  rw [QueueItem.le_iff] at h h'
  simp only at hid
  subst hid
  simp only [Nat.lt_irrefl, false_or, true_and] at h h'
  cases c <;> cases b <;> simp at h h' ⊢
  · omega
  · omega

instance : Std.Total fun a b : QueueItem => QueueItem.le a b = true where
  total a b := by
    simp only [QueueItem.le_iff]
    rcases Nat.lt_trichotomy a.id b.id with h | h | h
    · exact .inl (.inl h)
    · rcases Nat.le_total a.depth b.depth with hd | hd <;> cases a.counted <;> cases b.counted <;>
        simp [h, hd]
    · exact .inr (.inl h)

instance : IsTrans QueueItem fun a b => QueueItem.le a b = true where
  trans a b c hab hbc := by
    rw [QueueItem.le_iff] at *
    rcases hab with hab | ⟨hid, hab⟩
    · rcases hbc with hbc | ⟨hid, -⟩
      · exact .inl (Nat.lt_trans hab hbc)
      · exact .inl (hid ▸ hab)
    · rcases hbc with hbc | ⟨hid', hbc⟩
      · exact .inl (hid ▸ hbc)
      · refine .inr ⟨hid.trans hid', ?_⟩
        rcases hab with ⟨ha, hb⟩ | ⟨heq, hd⟩
        · rcases hbc with ⟨hb', -⟩ | ⟨heq, -⟩
          · rw [hb] at hb'
            cases hb'
          · exact .inl ⟨ha, heq ▸ hb⟩
        · rcases hbc with ⟨hb, hc⟩ | ⟨heq', hd'⟩
          · exact .inl ⟨heq ▸ hb, hc⟩
          · exact .inr ⟨heq.trans heq', Nat.le_trans hd hd'⟩

/-- Of a sorted queue, the first entry of each commit is its best one. -/
theorem mem_firstOfEach_sorted {l : List QueueItem}
    (h : l.Pairwise fun a b => QueueItem.le a b = true) :
    q ∈ firstOfEach l ↔ q ∈ l ∧ ∀ p ∈ l, p.id = q.id → QueueItem.le q p = true := by
  induction l with
  | nil => simp [firstOfEach]
  | cons p ps ih =>
    obtain ⟨hp, hps⟩ := List.pairwise_cons.mp h
    rw [firstOfEach, List.mem_cons, List.mem_filter, ih hps]
    simp only [List.mem_cons, forall_eq_or_imp, ne_eq, decide_eq_true_eq]
    constructor
    · rintro (rfl | ⟨⟨hq, hbest⟩, hne⟩)
      · exact ⟨.inl rfl, fun _ => QueueItem.le_refl q, fun r hr _ => hp r hr⟩
      · exact ⟨.inr hq, fun hid => absurd hid.symm hne, hbest⟩
    · rintro ⟨hq, hqp, hbest⟩
      rcases hq with rfl | hq
      · exact .inl rfl
      · by_cases hid : q.id = p.id
        · exact .inl (QueueItem.eq_of_le (hqp hid.symm) (hp q hq) hid)
        · exact .inr ⟨⟨hq, hbest⟩, hid⟩

theorem mem_queue : q ∈ w.queue ↔
    q ∈ w.next ∧ q.id ∉ w.visited ∧ ∀ p ∈ w.next, p.id = q.id → QueueItem.le q p = true := by
  unfold CommitWalk.queue CommitWalk.visited
  rw [List.mem_filter, mem_firstOfEach_sorted (List.pairwise_insertionSort _ _)]
  simp only [List.mem_insertionSort, decide_eq_true_eq]
  tauto

end Queue

/-! ## A round -/

section Rounds

variable (V : Db → Prop) (objs : Objects) (a : FetchArgs) (acks nots : List Oid)

/-- What visits to the entries of `Q` do to a walk, one after another. -/
structure Visits (Q : List QueueItem) (w w' : CommitWalk) : Prop where
  live : ∀ q ∈ Q, (∃ s, V s ∧ s.Live q.id) ∧ ∃ c, objs.commit q.id = some c
  visited : ∀ x, x ∈ w'.visited ↔ x ∈ w.visited ∨ ∃ q ∈ Q, q.id = x
  parents_of : ∀ p, p ∈ w'.parents_of ↔ p ∈ w.parents_of ∨ a.shallowMode = true ∧
    ∃ q ∈ Q, ∃ c, objs.commit q.id = some c ∧ p = (q.id, c.parents)
  visited_cs : ∀ x, x ∈ w'.visited_cs ↔ x ∈ w.visited_cs ∨
    ∃ q ∈ Q, q.id = x ∧ a.descends q = true
  sent : ∀ x, x ∈ w'.sent ↔ x ∈ w.sent ∨
    ∃ q ∈ Q, q.id = x ∧ ∃ c, objs.commit q.id = some c ∧ a.sends acks nots q c = true
  next : ∀ p, p ∈ w'.next ↔ p ∈ w.next ∨
    ∃ q ∈ Q, ∃ c, objs.commit q.id = some c ∧ p ∈ a.pushes acks nots q c
  trees : ∀ t ∈ w'.trees, t ∈ w.trees ∨ ∃ q ∈ Q, ∃ c, objs.commit q.id = some c ∧ t = c.tree
  walk : w.set.shas.isSome = true → w'.set.shas.isSome = true ∧
    w'.set.shallow = w.set.shallow ∧ w'.set.unshallow = w.set.unshallow
  ids : w.set.shas.isSome = true → ∀ x, x ∈ w'.set.ids ↔ x ∈ w.set.ids ∨
    ∃ q ∈ Q, q.id = x ∧ ∃ c, objs.commit q.id = some c ∧ a.sends acks nots q c = true

/-- A round of the walk. -/
def Round (w w' : CommitWalk) : Prop :=
  Visits V objs a acks nots w.queue { w with next := [] } w'

variable {V objs a acks nots}

theorem Visits.nil (w : CommitWalk) : Visits V objs a acks nots [] w w := by
  constructor <;> simp +contextual

theorem exists_mem_snoc {Q : List QueueItem} : (∃ r ∈ Q ++ [q], P r) ↔ (∃ r ∈ Q, P r) ∨ P q := by
  simp only [List.mem_append, List.mem_singleton, or_and_right, exists_or, exists_eq_left]

/-- One more visit. -/
theorem Visits.snoc {Q : List QueueItem} {w' w'' : CommitWalk} {db : Db} {loc : ObjRow}
    (h : Visits V objs a acks nots Q w w') (hlive : ∃ s, V s ∧ s.Live q.id)
    (hv : visitCommit objs db a acks nots w' q loc = .ok w'') :
    Visits V objs a acks nots (Q ++ [q]) w w'' := by
  obtain ⟨c, hc, hv⟩ := visitCommit_visit hv
  -- The commit of the entry is the one that was read.
  have hone : ∀ {P : CommitData → Prop}, (∃ d, objs.commit q.id = some d ∧ P d) ↔ P c := by
    intro P
    simp [hc]
  refine
    { live := ?_, visited := fun x => ?_, parents_of := fun p => ?_, visited_cs := fun x => ?_
      sent := fun x => ?_, next := fun p => ?_, trees := fun t ht => ?_, walk := fun hw => ?_
      ids := fun hw x => ?_ }
  · intro r hr
    rcases List.mem_append.mp hr with hr | hr
    · exact h.live r hr
    · rw [List.mem_singleton.mp hr]
      exact ⟨hlive, c, hc⟩
  · rw [hv.mem_visited, h.visited, exists_mem_snoc, or_assoc]
  · rw [hv.mem_parents_of, h.parents_of, exists_mem_snoc, hone, and_or_left, or_assoc]
  · rw [hv.mem_visited_cs, h.visited_cs, exists_mem_snoc, or_assoc]
  · rw [hv.mem_sent, h.sent, exists_mem_snoc, hone, or_assoc]
  · rw [hv.next, List.mem_append, h.next, exists_mem_snoc, hone, or_assoc]
  · rcases hv.trees t ht with ht | rfl
    · rcases h.trees t ht with ht | ⟨r, hr, hrt⟩
      · exact .inl ht
      · exact .inr ⟨r, by simp [hr], hrt⟩
    · exact .inr ⟨q, by simp, c, hc, rfl⟩
  · obtain ⟨hwalk, hsh, hun⟩ := h.walk hw
    obtain ⟨hwalk', hsh', hun'⟩ := (hv.marks hwalk).1
    exact ⟨hwalk', hsh'.trans hsh, hun'.trans hun⟩
  · rw [(hv.marks (h.walk hw).1).2, h.ids hw, exists_mem_snoc, hone, or_assoc]

/-- What every round keeps, the walk keeps, in whatever states it is resumed; and it ends with an
empty queue. -/
theorem walkCommits_rounds {pick : Pick} {I : CommitWalk → Prop}
    (hround : ∀ w w', I w → Round V objs a acks nots w w' → I w') {s : Db} (hs : V s) (n : ℕ)
    (h : I w) : Among V s (walkCommits objs pick a acks nots n w) fun _ w => I w ∧ w.next = [] := by
  have hend : ∀ v, (([] : List QueueItem) = [] ∧ I v) ∨ (∃ w Q, I w ∧ Q ++ [] = w.queue ∧
      Visits V objs a acks nots Q { w with next := [] } v) → I v := by
    rintro v (⟨-, hv⟩ | ⟨w, Q, hw, hQ, hv⟩)
    · exact hv
    · rw [List.append_nil] at hQ
      subst hQ
      exact hround w v hw hv
  -- Within a round the walk has visited the entries of the queue that came first.
  refine (walkCommits_among (I := fun rest v => (rest = [] ∧ I v) ∨ ∃ w Q, I w ∧
    Q ++ rest = w.queue ∧ Visits V objs a acks nots Q { w with next := [] } v) ?_ ?_ hs n
    (.inl ⟨rfl, h⟩)).mono fun t v _ hv => ⟨?_, hv.2⟩
  · exact fun v hv => .inr ⟨v, [], hend v hv, rfl, Visits.nil _⟩
  · rintro u q rest loc v v' - hloc (⟨hnil, -⟩ | ⟨w, Q, hw, hQ, hv⟩) hv'
    · cases hnil
    · exact .inr ⟨w, Q ++ [q], hw, by simpa using hQ, hv.snoc hloc.met hv'⟩
  · exact hend v hv.1

end Rounds

/-! ## The search -/

section Search

variable (V : Db → Prop) (objs : Objects) (a : FetchArgs) (acks nots : List Oid)
  (starts : Oid → Prop)

/-- A counted label is better than one that is not, and then a smaller depth. -/
def BetterLabel (l m : ℕ × Bool) : Prop := (l.2 = true ∧ m.2 = false) ∨ (l.2 = m.2 ∧ l.1 ≤ m.1)

theorem exists_best_label {P : ℕ × Bool → Prop} (h : ∃ l, P l) :
    ∃ l, P l ∧ ∀ m, P m → BetterLabel l m := by
  classical
  by_cases hcounted : ∃ d, P (d, true)
  · refine ⟨(Nat.find hcounted, true), Nat.find_spec hcounted, ?_⟩
    rintro ⟨d, c⟩ hm
    cases c with
    | false => exact .inl ⟨rfl, rfl⟩
    | true => exact .inr ⟨rfl, Nat.find_min' hcounted hm⟩
  · have huncounted : ∃ d, P (d, false) := by
      obtain ⟨⟨d, c⟩, hl⟩ := h
      cases c with
      | false => exact ⟨d, hl⟩
      | true => exact absurd ⟨d, hl⟩ hcounted
    refine ⟨(Nat.find huncounted, false), Nat.find_spec huncounted, ?_⟩
    rintro ⟨d, c⟩ hm
    cases c with
    | false => exact .inr ⟨rfl, Nat.find_min' huncounted hm⟩
    | true => exact absurd ⟨d, hm⟩ hcounted

/-- The walk from the commits of `starts` as a search by levels. -/
def walkRules : Levels.Rules Oid (ℕ × Bool) where
  start x l := starts x ∧ l = (1, !a.deepen_relative)
  better := BetterLabel
  offers x l y m := ∃ c, objs.commit x = some c ∧ ⟨y, m.1, m.2⟩ ∈ a.pushes acks nots ⟨x, l.1, l.2⟩ c
  best _ := exists_best_label
  antisymm := by
    rintro ⟨d, b⟩ ⟨e, c⟩ h h'
    unfold BetterLabel at h h'
    cases b <;> cases c <;> simp at h h' ⊢
    · omega
    · omega

/-- The walk has come to round `k` of the search. -/
structure Follows (k : ℕ) (w : CommitWalk) : Prop where
  seen : ∀ x, x ∈ w.visited ↔ ((walkRules objs a acks nots starts).stage k).seen x
  offered : ∀ q : QueueItem, q ∈ w.next ↔
    ((walkRules objs a acks nots starts).stage k).offered q.id (q.depth, q.counted)

/-- What the walk has collected, when it has taken the commits of `T` with their labels. -/
structure Walked (T : Oid → ℕ × Bool → Prop) (w₀ : WantWalk) (w : CommitWalk) : Prop where
  live : ∀ x l, T x l → (∃ s, V s ∧ s.Live x) ∧ ∃ c, objs.commit x = some c
  parents_of : ∀ p, p ∈ w.parents_of ↔ a.shallowMode = true ∧
    ∃ x l c, T x l ∧ objs.commit x = some c ∧ p = (x, c.parents)
  visited_cs : ∀ x, x ∈ w.visited_cs ↔ ∃ l, T x l ∧ a.descends ⟨x, l.1, l.2⟩ = true
  sent : ∀ x, x ∈ w.sent ↔ x ∈ w₀.sent ∨
    ∃ l c, T x l ∧ objs.commit x = some c ∧ a.sends acks nots ⟨x, l.1, l.2⟩ c = true
  trees : ∀ t ∈ w.trees, t ∈ w₀.trees ∨ ∃ x l c, T x l ∧ objs.commit x = some c ∧ t = c.tree
  walk : w.set.shas.isSome = true
  shallow : w.set.shallow = w₀.set.shallow ∧ w.set.unshallow = w₀.set.unshallow
  ids : ∀ x, x ∈ w.set.ids ↔ x ∈ w₀.set.ids ∨
    ∃ l c, T x l ∧ objs.commit x = some c ∧ a.sends acks nots ⟨x, l.1, l.2⟩ c = true

variable {V objs a acks nots starts} {k : ℕ} {w' : CommitWalk}

theorem Follows.mem_queue (h : Follows objs a acks nots starts k w) :
    q ∈ w.queue ↔ (walkRules objs a acks nots starts).takes
      ((walkRules objs a acks nots starts).stage k) q.id (q.depth, q.counted) := by
  rw [GitEdge.mem_queue]
  unfold Levels.Rules.takes
  rw [h.seen, ← h.offered]
  refine and_congr_right fun hq => and_congr_right fun hnew => ?_
  have hle : ∀ (d : ℕ) (c : Bool), QueueItem.le q ⟨q.id, d, c⟩ = true ↔
      BetterLabel (q.depth, q.counted) (d, c) := by
    intro d c
    rw [QueueItem.le_iff]
    simp [BetterLabel]
  constructor
  · rintro hbest ⟨d, c⟩ hm
    exact (hle d c).mp (hbest ⟨q.id, d, c⟩ ((h.offered ⟨q.id, d, c⟩).mpr hm) rfl)
  · rintro hbest ⟨x, d, c⟩ hp hid
    simp only at hid
    subst hid
    exact (hle d c).mpr (hbest (d, c) ((h.offered ⟨q.id, d, c⟩).mp hp))

/-- What is said of the entries of the queue is said of what the round takes. -/
theorem Follows.exists_queue (h : Follows objs a acks nots starts k w) :
    (∃ q ∈ w.queue, P q) ↔ ∃ x l, (walkRules objs a acks nots starts).takes
      ((walkRules objs a acks nots starts).stage k) x l ∧ P ⟨x, l.1, l.2⟩ := by
  constructor
  · rintro ⟨q, hq, hP⟩
    exact ⟨q.id, (q.depth, q.counted), h.mem_queue.mp hq, hP⟩
  · rintro ⟨x, l, hl, hP⟩
    exact ⟨⟨x, l.1, l.2⟩, h.mem_queue.mpr hl, hP⟩

theorem Follows.exists_queue_id (h : Follows objs a acks nots starts k w) {x : Oid} :
    (∃ q ∈ w.queue, q.id = x ∧ P q) ↔ ∃ l, (walkRules objs a acks nots starts).takes
      ((walkRules objs a acks nots starts).stage k) x l ∧ P ⟨x, l.1, l.2⟩ := by
  rw [h.exists_queue]
  constructor
  · rintro ⟨_, l, hl, rfl, hP⟩
    exact ⟨l, hl, hP⟩
  · rintro ⟨l, hl, hP⟩
    exact ⟨x, l, hl, rfl, hP⟩

/-- A round of the walk is a round of the search. -/
theorem Follows.round (h : Follows objs a acks nots starts k w)
    (hr : Round V objs a acks nots w w') : Follows objs a acks nots starts (k + 1) w' where
  seen x := by
    change _ ↔ ((walkRules objs a acks nots starts).stage k).seen x ∨ _
    rw [hr.visited, ← h.seen]
    refine or_congr_right ?_
    have := h.exists_queue_id (P := fun _ => True) (x := x)
    simpa using this
  offered q := by
    change _ ↔ ∃ x l, _ ∧ ∃ c, _
    rw [hr.next]
    simp only [List.not_mem_nil, false_or]
    exact h.exists_queue

/-- A round adds what it takes. -/
theorem Walked.round (h : Follows objs a acks nots starts k w)
    (hw : Walked V objs a acks nots ((walkRules objs a acks nots starts).TakenBy k) w₀ w)
    (hr : Round V objs a acks nots w w') :
    Walked V objs a acks nots ((walkRules objs a acks nots starts).TakenBy (k + 1)) w₀ w' where
  live x l hl := by
    rcases Levels.takenBy_succ.mp hl with hl | hl
    · exact hw.live x l hl
    · exact hr.live ⟨x, l.1, l.2⟩ (h.mem_queue.mpr hl)
  parents_of p := by
    rw [hr.parents_of, hw.parents_of, h.exists_queue]
    simp only [Levels.takenBy_succ, or_and_right, exists_or, and_or_left, exists_and_left]
  visited_cs x := by
    rw [hr.visited_cs, hw.visited_cs, h.exists_queue_id]
    simp only [Levels.takenBy_succ, or_and_right, exists_or]
  sent x := by
    rw [hr.sent, hw.sent, h.exists_queue_id, or_assoc]
    simp only [Levels.takenBy_succ, or_and_right, exists_or, exists_and_left]
  trees t ht := by
    rcases hr.trees t ht with ht | ht
    · rcases hw.trees t ht with ht | ⟨x, l, c, hl, hc⟩
      · exact .inl ht
      · exact .inr ⟨x, l, c, Levels.takenBy_succ.mpr (.inl hl), hc⟩
    · obtain ⟨x, l, hl, c, hc⟩ := h.exists_queue.mp ht
      exact .inr ⟨x, l, c, Levels.takenBy_succ.mpr (.inr hl), hc⟩
  walk := (hr.walk hw.walk).1
  shallow := by
    obtain ⟨-, hsh, hun⟩ := hr.walk hw.walk
    exact ⟨hsh.trans hw.shallow.1, hun.trans hw.shallow.2⟩
  ids x := by
    rw [hr.ids hw.walk, hw.ids, h.exists_queue_id, or_assoc]
    simp only [Levels.takenBy_succ, or_and_right, exists_or, exists_and_left]

theorem Walked.congr {T T' : Oid → ℕ × Bool → Prop} (h : Walked V objs a acks nots T w₀ w)
    (hT : ∀ x l, T x l ↔ T' x l) : Walked V objs a acks nots T' w₀ w := by
  have : T = T' := by
    funext x l
    exact propext (hT x l)
  exact this ▸ h

/-- The walk over the commits: it takes what the search takes, in whatever states it is resumed. -/
theorem walkCommits_walked {pick : Pick} {s : Db} (hs : V s) (n : ℕ) {commits : List Oid}
    (hcommits : ∀ x, x ∈ commits ↔ starts x) (hwalk : w₀.set.shas.isSome = true) :
    Among V s (walkCommits objs pick a acks nots n ⟨w₀.set, w₀.sent, [], [], [], [], w₀.trees, [],
      commits.map fun c => ⟨c, 1, !a.deepen_relative⟩⟩) fun _ w =>
      Walked V objs a acks nots (walkRules objs a acks nots starts).Taken w₀ w := by
  refine (walkCommits_rounds (I := fun w => ∃ k, Follows objs a acks nots starts k w ∧
    Walked V objs a acks nots ((walkRules objs a acks nots starts).TakenBy k) w₀ w) ?_ hs n
    ⟨0, ?_, ?_⟩).mono ?_
  · rintro w w' ⟨k, hf, hw⟩ hr
    exact ⟨k + 1, hf.round hr, Walked.round hf hw hr⟩
  · refine ⟨fun x => ?_, fun q => ?_⟩
    · simp [CommitWalk.visited, Levels.Rules.stage]
    · obtain ⟨x, d, c⟩ := q
      simp only [List.mem_map, Levels.Rules.stage, walkRules, QueueItem.mk.injEq, Prod.mk.injEq]
      constructor
      · rintro ⟨y, hy, rfl, rfl, rfl⟩
        exact ⟨(hcommits y).mp hy, rfl, rfl⟩
      · rintro ⟨hx, rfl, rfl⟩
        exact ⟨x, (hcommits x).mpr hx, rfl, rfl, rfl⟩
  · constructor <;> simp [Levels.Rules.TakenBy, hwalk]
  · rintro t w - ⟨⟨k, hf, hw⟩, hnext⟩
    -- The queue is empty, so nothing more is offered.
    refine hw.congr fun x l => (Levels.taken_iff_of_idle fun y m hy => ?_).symm
    have := (hf.offered ⟨y, m.1, m.2⟩).mpr hy
    rw [hnext] at this
    cases this

end Search

end GitEdge
