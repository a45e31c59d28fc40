import Mathlib.Logic.Relation
import Mathlib.Order.Nat
import GitEdge.Pack.Entries

/-!
# The body of an upload-pack request

`upload_pack` of `edge/mod.rs` reads the body of a fetch before it forwards it. The body is meant to
be capped at 1 MiB while it streams in. The loop moves each fill of the reader into a second buffer,
and compares only the fill with the cap; the second buffer is compared after the end of the stream.

The machine here makes one step for each answer of the stream and for each move, so that its states
are the moments at which the worker holds bytes.
-/

namespace GitEdge

variable {stream : List (List UInt8)}

/-- `CMD_CAP`. -/
def cmdCap : ℕ := 2^20

/-- `FILL_STEP`. -/
def fillStep : ℕ := 64 * 2^10

/-- The loop of `upload_pack`: the reader, whether the stream has ended, and what was moved. -/
structure BodyLoop where
  reader : BodyReader
  eof : Bool
  body : List UInt8

namespace BodyLoop

/-- What the loop does next: it asks the stream, it moves a fill, or it answers. -/
inductive Next where
  | poll (u : BodyLoop)
  | move (u : BodyLoop)
  | answer (r : Except Error (List UInt8))

/-- One step of the loop. -/
def next (u : BodyLoop) : Next :=
  -- The loop of `fill`.
  if u.reader.buf.length < fillStep && !u.eof then
    match u.reader.stream with
    | [] => .poll { u with eof := true }
    | chunk :: stream =>
      .poll { u with
        reader := ⟨stream, u.reader.buf ++ chunk, u.reader.total + chunk.length⟩ }
  else if fillStep ≤ u.reader.buf.length then
    if cmdCap < u.reader.buf.length then .answer (.error (.limit "upload-pack body > 1 MiB"))
    else .move { u with
      reader := u.reader.consume u.reader.buf.length
      body := u.body ++ u.reader.buf }
  else if cmdCap < (u.body ++ u.reader.buf).length then
    .answer (.error (.limit "upload-pack body > 1 MiB"))
  else .answer (.ok (u.body ++ u.reader.buf))

/-- The start of the loop: a declared length over the cap is refused before a byte is read. -/
def start (length : Option ℕ) (stream : List (List UInt8)) : Except Error BodyLoop :=
  if length.any fun n => cmdCap < n then .error (.limit "upload-pack body > 1 MiB")
  else .ok ⟨⟨stream, [], 0⟩, false, []⟩

/-- A state of the loop over a stream whose length is not declared. -/
def Reached (stream : List (List UInt8)) (u : BodyLoop) : Prop :=
  ∃ u₀, start none stream = .ok u₀ ∧
    Relation.ReflTransGen (fun u v => u.next = .poll v ∨ u.next = .move v) u₀ u

/-- The bytes that are held, which are all that have arrived. -/
def held (u : BodyLoop) : ℕ := u.body.length + u.reader.buf.length

/-- The body is capped while it streams in: no state holds more than the cap, a chunk and a fill
step, and the stream is not asked again once more than the cap has arrived. -/
structure Capped (stream : List (List UInt8)) : Prop where
  bound : ∀ u, Reached stream u → ∃ chunk ∈ [] :: stream,
    u.held ≤ cmdCap + chunk.length + fillStep
  stops : ∀ u v, Reached stream u → cmdCap < u.held → u.next ≠ .poll v

/-- The chunk that brings the total over the cap brings the reader's own buffer over it, from so
many bytes moved and so many buffered. The chunks are given by their lengths. -/
def jumps (moved buffered : ℕ) : List ℕ → Bool
  | [] => true
  | c :: cs =>
    let moved' := if fillStep ≤ buffered then moved + buffered else moved
    let buffered' := (if fillStep ≤ buffered then 0 else buffered) + c
    if moved' + buffered' ≤ cmdCap then jumps moved' buffered' cs else cmdCap < buffered'

/-! ## The steps -/

section Steps

variable {u v : BodyLoop}

theorem next_chunk {chunk : List UInt8} {rest : List (List UInt8)}
    (hlen : u.reader.buf.length < fillStep) (heof : u.eof = false)
    (hs : u.reader.stream = chunk :: rest) :
    u.next = .poll { u with
      reader := ⟨rest, u.reader.buf ++ chunk, u.reader.total + chunk.length⟩ } := by
  rw [next, if_pos (by simp [hlen, heof]), hs]

theorem next_move (hlen : fillStep ≤ u.reader.buf.length) (hcap : u.reader.buf.length ≤ cmdCap) :
    u.next = .move { u with
      reader := u.reader.consume u.reader.buf.length
      body := u.body ++ u.reader.buf } := by
  rw [next, if_neg (by simp [not_lt.mpr hlen]), if_pos hlen, if_neg (not_lt.mpr hcap)]

/-- A buffer over the cap is answered. -/
theorem next_over (hlen : cmdCap < u.reader.buf.length) :
    u.next = .answer (.error (.limit "upload-pack body > 1 MiB")) := by
  have hstep : fillStep ≤ u.reader.buf.length := by
    unfold fillStep cmdCap at *
    omega
  rw [next, if_neg (by simp [not_lt.mpr hstep]), if_pos hstep, if_pos hlen]

/-- A buffer below the fill step asks the stream. -/
theorem next_poll (hlen : u.reader.buf.length < fillStep) (heof : u.eof = false) :
    ∃ v, u.next = .poll v := by
  rw [next, if_pos (by simp [hlen, heof])]
  cases u.reader.stream with
  | nil => exact ⟨_, rfl⟩
  | cons chunk rest => exact ⟨_, rfl⟩

/-- What a step asked the stream for. -/
theorem poll_cases (h : u.next = .poll v) : u.reader.buf.length < fillStep ∧ u.eof = false ∧
    (v = { u with eof := true } ∨ ∃ chunk rest, u.reader.stream = chunk :: rest ∧
      v = { u with reader := ⟨rest, u.reader.buf ++ chunk, u.reader.total + chunk.length⟩ }) := by
  by_cases hpoll : (u.reader.buf.length < fillStep && !u.eof) = true
  · have hcond := hpoll
    simp only [Bool.and_eq_true, decide_eq_true_eq, Bool.not_eq_true'] at hcond
    refine ⟨hcond.1, hcond.2, ?_⟩
    rw [next, if_pos hpoll] at h
    cases hs : u.reader.stream with
    | nil =>
      rw [hs] at h
      cases h
      exact .inl rfl
    | cons chunk rest =>
      rw [hs] at h
      cases h
      exact .inr ⟨chunk, rest, rfl, rfl⟩
  · rw [next, if_neg hpoll] at h
    split_ifs at h

/-- What a step moved. -/
theorem move_cases (h : u.next = .move v) : fillStep ≤ u.reader.buf.length ∧
    v = { u with
      reader := u.reader.consume u.reader.buf.length
      body := u.body ++ u.reader.buf } := by
  rw [next] at h
  split_ifs at h with hpoll hstep hcap
  · cases hs : u.reader.stream with
    | nil =>
      rw [hs] at h
      cases h
    | cons chunk rest =>
      rw [hs] at h
      cases h
  · cases h
    exact ⟨hstep, rfl⟩

theorem held_move : ({ u with
    reader := u.reader.consume u.reader.buf.length
    body := u.body ++ u.reader.buf } : BodyLoop).held = u.held := by
  simp [held, BodyReader.consume]

/-- A fill that is moved counts as moved. -/
theorem jumps_move {moved buffered : ℕ} (h : fillStep ≤ buffered) (cs : List ℕ) :
    jumps (moved + buffered) 0 cs = jumps moved buffered cs := by
  cases cs with
  | nil => rfl
  | cons c cs =>
    have hzero : ¬ fillStep ≤ 0 := by
      unfold fillStep
      omega
    simp only [jumps, h, hzero, if_true, if_false]

theorem reached_start (stream : List (List UInt8)) :
    Reached stream ⟨⟨stream, [], 0⟩, false, []⟩ := ⟨_, rfl, .refl⟩

theorem Reached.poll (hu : Reached stream u) (h : u.next = .poll v) : Reached stream v := by
  obtain ⟨u₀, hstart, hsteps⟩ := hu
  exact ⟨u₀, hstart, hsteps.tail (.inl h)⟩

theorem Reached.move (hu : Reached stream u) (h : u.next = .move v) : Reached stream v := by
  obtain ⟨u₀, hstart, hsteps⟩ := hu
  exact ⟨u₀, hstart, hsteps.tail (.inr h)⟩

end Steps

/-! ## When the body is capped -/

/-- The invariant of a loop whose stream jumps past the cap, if it passes it at all. -/
def Within (stream : List (List UInt8)) (u : BodyLoop) : Prop :=
  u.reader.stream ⊆ stream ∧
    ((u.held ≤ cmdCap ∧
        (u.eof = true ∨
          jumps u.body.length u.reader.buf.length (u.reader.stream.map List.length) = true)) ∨
      (cmdCap < u.reader.buf.length ∧ ∃ chunk ∈ stream, u.held ≤ cmdCap + chunk.length))

theorem within_of_reached (h : jumps 0 0 (stream.map List.length) = true) {u : BodyLoop}
    (hu : Reached stream u) : Within stream u := by
  obtain ⟨u₀, hstart, hsteps⟩ := hu
  cases hstart
  induction hsteps with
  | refl => exact ⟨List.Subset.refl _, .inl ⟨Nat.zero_le _, .inr h⟩⟩
  | @tail u v _ hstep ih =>
    obtain ⟨hsub, ih⟩ := ih
    rcases ih with ⟨hheld, hjumps⟩ | ⟨hover, -⟩
    · rcases hstep with hstep | hstep
      · obtain ⟨hlen, heof, rfl | ⟨chunk, rest, hs, rfl⟩⟩ := poll_cases hstep
        · exact ⟨hsub, .inl ⟨hheld, .inl rfl⟩⟩
        · have hmem : chunk ∈ stream := hsub (by rw [hs]; exact List.mem_cons_self)
          have hjumps := hjumps.resolve_left (by simp [heof])
          rw [hs, List.map_cons, jumps] at hjumps
          simp only [not_le.mpr hlen, if_false] at hjumps
          refine ⟨fun c hc => hsub (by rw [hs]; exact List.mem_cons_of_mem chunk hc), ?_⟩
          unfold held at hheld ⊢
          dsimp only
          rw [List.length_append]
          split_ifs at hjumps with hfits
          · exact .inl ⟨hfits, .inr hjumps⟩
          · refine .inr ⟨of_decide_eq_true hjumps, chunk, hmem, ?_⟩
            omega
      · obtain ⟨hlen, rfl⟩ := move_cases hstep
        refine ⟨hsub, .inl ⟨by rw [held_move]; exact hheld, ?_⟩⟩
        rcases hjumps with heof | hjumps
        · exact .inl heof
        · refine .inr ?_
          simp only [BodyReader.consume, List.length_append, List.drop_length, List.length_nil]
          rw [jumps_move hlen]
          exact hjumps
    · -- A buffer over the cap has been answered.
      rw [next_over hover] at hstep
      rcases hstep with hstep | hstep <;> cases hstep

/-- A loop that stops asking has a stream that jumps past the cap, from each of its states on. -/
theorem jumps_of_stops (hstops : ∀ u v, Reached stream u → cmdCap < u.held → u.next ≠ .poll v)
    (rest : List (List UInt8)) {u : BodyLoop} (hu : Reached stream u) (heof : u.eof = false)
    (hs : u.reader.stream = rest) (hheld : u.held ≤ cmdCap) :
    jumps u.body.length u.reader.buf.length (rest.map List.length) = true := by
  induction rest generalizing u with
  | nil => rfl
  | cons chunk rest ih =>
    -- From a buffer below the fill step: the chunk is read.
    have hread : ∀ u : BodyLoop, Reached stream u → u.eof = false →
        u.reader.stream = chunk :: rest → u.held ≤ cmdCap → u.reader.buf.length < fillStep →
        jumps u.body.length u.reader.buf.length ((chunk :: rest).map List.length) = true := by
      intro u hu heof hs hheld hlen
      have hnext := next_chunk hlen heof hs
      have hv := hu.poll hnext
      rw [List.map_cons, jumps]
      simp only [not_le.mpr hlen, if_false]
      split_ifs with hfits
      · have := ih hv heof rfl (by unfold held; rw [List.length_append]; exact hfits)
        rwa [List.length_append] at this
      · rw [decide_eq_true_eq]
        by_contra hsmall
        have hbuf : (u.reader.buf ++ chunk).length ≤ cmdCap := by
          rw [List.length_append]
          exact not_lt.mp hsmall
        have hover : cmdCap < ({ u with
            reader := ⟨rest, u.reader.buf ++ chunk, u.reader.total + chunk.length⟩ } :
              BodyLoop).held := by
          unfold held
          rw [List.length_append]
          exact not_le.mp hfits
        by_cases hfull : fillStep ≤ (u.reader.buf ++ chunk).length
        · -- The fill is moved, and the loop asks again.
          have hmove := next_move (u := { u with
            reader := ⟨rest, u.reader.buf ++ chunk, u.reader.total + chunk.length⟩ }) hfull hbuf
          obtain ⟨w, hw⟩ := next_poll (u := { u with
              reader := (⟨rest, u.reader.buf ++ chunk, u.reader.total + chunk.length⟩ :
                BodyReader).consume (u.reader.buf ++ chunk).length
              body := u.body ++ (u.reader.buf ++ chunk) })
            (by simp [BodyReader.consume, fillStep]) heof
          refine hstops _ w (hv.move hmove) ?_ hw
          rw [held_move (u := { u with
            reader := ⟨rest, u.reader.buf ++ chunk, u.reader.total + chunk.length⟩ })]
          exact hover
        · obtain ⟨w, hw⟩ := next_poll (u := { u with
            reader := ⟨rest, u.reader.buf ++ chunk, u.reader.total + chunk.length⟩ })
            (not_le.mp hfull) heof
          exact hstops _ w hv hover hw
    by_cases hlen : u.reader.buf.length < fillStep
    · exact hread u hu heof hs hheld hlen
    · -- A full buffer is moved first.
      have hfull := not_lt.mp hlen
      have hbuf : u.reader.buf.length ≤ cmdCap := by
        unfold held at hheld
        omega
      have hmove := next_move hfull hbuf
      have := hread _ (hu.move hmove) heof hs (by rw [held_move]; exact hheld)
        (by simp [BodyReader.consume, fillStep])
      simp only [BodyReader.consume, List.length_append, List.drop_length, List.length_nil] at this
      rwa [jumps_move hfull] at this

/-- The body is capped while it streams in exactly if the chunk that brings it over the cap brings
the reader's own buffer over it. -/
theorem upload_capped_iff (stream : List (List UInt8)) :
    Capped stream ↔ jumps 0 0 (stream.map List.length) = true := by
  constructor
  · intro h
    exact jumps_of_stops h.stops stream (reached_start stream) rfl rfl (Nat.zero_le _)
  · intro h
    constructor
    · intro u hu
      rcases (within_of_reached h hu).2 with ⟨hheld, -⟩ | ⟨-, chunk, hmem, hheld⟩
      · exact ⟨[], List.mem_cons_self, by omega⟩
      · exact ⟨chunk, List.mem_cons_of_mem [] hmem, by omega⟩
    · intro u v hu hover hpoll
      rcases (within_of_reached h hu).2 with ⟨hheld, -⟩ | ⟨hbuf, -⟩
      · omega
      · rw [next_over hbuf] at hpoll
        cases hpoll

/-- Thirty chunks of 64 KiB. -/
def flood : List (List UInt8) := List.replicate 30 (List.replicate (64 * 2^10) 0)

/-- The loop takes all of them. -/
theorem flood_not_capped : ¬ Capped flood := by
  intro h
  have hjumps := jumps_of_stops h.stops flood (reached_start flood) rfl rfl (Nat.zero_le _)
  rw [flood, List.map_replicate, List.length_replicate] at hjumps
  revert hjumps
  decide

end BodyLoop

end GitEdge
