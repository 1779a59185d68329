import MuxProtocol.Buf
import MuxProtocol.Proofs.Link

/-!
# The two buffers of a session

What goes into the output buffer comes out of it in order and in whole frames, however the host
takes the bytes; what goes into the event queue comes out of it in order, wherever its head stands.
-/

namespace MuxProtocol

variable {s : Session}

/-! ### The output buffer -/

inductive OutOp where
  | emit (type : UInt8) (flags : UInt16) (sid : UInt32) (payload : Bytes)
  | advance (n : ℕ)

/-- A session, the bytes advanced over and the frames whose `emit` returned 0. -/
structure OutTape where
  session : Session
  gone : Bytes := []
  frames : List Frame := []

/-- One use of the output buffer. -/
def OutTape.step (x : OutTape) : OutOp → OutTape
  | .emit type flags sid payload =>
    match emit x.session type flags sid payload with
    | (s, .ok ()) =>
      { x with session := s, frames := x.frames ++ [{ type, flags, sid, payload }] }
    | (s, .error _) => { x with session := s }
  | .advance n =>
    { x with
      session := muxSendAdvance x.session n
      gone := x.gone ++ (muxSendBuf x.session).take n }

theorem emit_oversized {payload : Bytes} (hp : muxMaxPayload < payload.length) (s : Session)
    (type flags sid) : ∃ s' e, emit s type flags sid payload = (s', .error e)
      ∧ s'.out = (obReserve s.out (muxHeaderSize + payload.length) s.maxOutBuffer.toNat).1 := by
  unfold emit
  rcases obReserve s.out (muxHeaderSize + payload.length) s.maxOutBuffer.toNat with ⟨out, e | ⟨⟩⟩
  · exact ⟨_, _, rfl, raiseFatal_out ..⟩
  · have hcraft : muxCraft (out.cap - out.data.length) type flags sid payload = .error .proto :=
      if_pos (by omega)
    simp only [hcraft]
    exact ⟨_, _, rfl, rfl⟩

theorem emit_muxSendBuf (h : s.out.spos ≤ s.out.data.length) (type flags sid payload) :
    (emit s type flags sid payload).1.out.spos ≤ (emit s type flags sid payload).1.out.data.length
      ∧ muxSendBuf (emit s type flags sid payload).1 = muxSendBuf s
        ++ if (emit s type flags sid payload).2 = .ok () then encode { type, flags, sid, payload }
          else [] := by
  by_cases hp : payload.length ≤ muxMaxPayload
  · rcases emit_cases s type flags sid hp with ⟨out, he, -, hout⟩ | ⟨out, he, -, hspos, hpend⟩
    · rw [he, if_pos rfl]
      exact hout h
    · rw [he, if_neg (by simp), List.append_nil, muxSendBuf_eq, muxSendBuf_eq, raiseFatal_out]
      exact ⟨hspos h, hpend⟩
  · obtain ⟨s', e, he, hout⟩ := emit_oversized (Nat.lt_of_not_le hp) s type flags sid
    obtain ⟨hpend, hspos, -⟩ :=
      obReserve_spec s.out (muxHeaderSize + payload.length) s.maxOutBuffer.toNat
    rw [he, if_neg (by simp), List.append_nil, muxSendBuf_eq, muxSendBuf_eq, hout]
    exact ⟨hspos h, hpend⟩

/-- The bytes so far: those that are gone, and those to be sent. -/
structure OutTape.Kept (s : Session) (x : OutTape) : Prop where
  spos : x.session.out.spos ≤ x.session.out.data.length
  bytes : x.gone ++ muxSendBuf x.session = muxSendBuf s ++ encodeAll x.frames

/-- Each use of the buffer keeps the bytes in order. -/
theorem OutTape.Kept.step {x : OutTape} (h : x.Kept s) (a) : (x.step a).Kept s := by
  cases a with
  | emit type flags sid payload =>
    obtain ⟨h1, h2⟩ := emit_muxSendBuf h.spos type flags sid payload
    rcases he : emit x.session type flags sid payload with ⟨s', e | ⟨⟩⟩
    · rw [he, if_neg (by simp), List.append_nil] at h2
      rw [he] at h1
      have hx : x.step (.emit type flags sid payload) = { x with session := s' } := by
        simp only [OutTape.step, he]
      rw [hx]
      refine ⟨h1, ?_⟩
      dsimp only at h2 ⊢
      rw [h2, h.bytes]
    · rw [he, if_pos rfl] at h2
      rw [he] at h1
      have hx : x.step (.emit type flags sid payload) = { x with
          session := s'
          frames := x.frames ++ [{ type, flags, sid, payload }] } := by
        simp only [OutTape.step, he]
      rw [hx]
      refine ⟨h1, ?_⟩
      dsimp only at h2 ⊢
      rw [h2, ← List.append_assoc, h.bytes, encodeAll_append, encodeAll_cons, encodeAll_nil,
        List.append_nil, List.append_assoc]
  | advance n =>
    refine ⟨muxSendAdvance_spos h.spos n, ?_⟩
    simp only [OutTape.step]
    rw [List.append_assoc, muxSendBuf_advance h.spos, h.bytes]

theorem OutTape.Kept.run {x : OutTape} (h : x.Kept s) (ops : List OutOp) :
    (ops.foldl OutTape.step x).Kept s := by
  induction ops generalizing x with
  | nil => exact h
  | cons a ops ih => exact ih (h.step a)

/-! ### The bytes in memory -/

namespace OutCells

variable {o : Buf}

theorem length_ofCells (o : Buf) : (OutBuf.ofCells o).data.length = o.len :=
  HeadBuffer.length_toList _

theorem pending_ofCells (o : Buf) : (OutBuf.ofCells o).pending = o.toList := by
  rw [OutBuf.pending, OutBuf.ofCells, ← HeadBuffer.toList_skip]
  simp only [HeadBuffer.skip, Nat.zero_add]

theorem obGrow_ofCells (h : o.Ok) (need limit : ℕ) :
    (obGrow o need limit).1.Ok ∧ MuxProtocol.obGrow (.ofCells o) need limit
      = (.ofCells (obGrow o need limit).1, (obGrow o need limit).2) := by
  have hlen := h.len_le
  unfold obGrow MuxProtocol.obGrow
  rw [length_ofCells]
  dsimp only
  split
  · exact ⟨h, rfl⟩
  · refine ⟨h.resize ?_, rfl⟩
    refine le_trans (Nat.le_add_right _ need) (want_le_growTo_self ?_)
    split <;> omega

theorem ofCells_compact (o : Buf) :
    OutBuf.ofCells o.compact
      = { OutBuf.ofCells o with data := (OutBuf.ofCells o).data.drop o.head, spos := 0 } := by
  have hdrop := pending_ofCells o
  unfold OutBuf.pending at hdrop
  change OutBuf.mk o.compact.toList o.cap 0 = OutBuf.mk _ _ _
  rw [HeadBuffer.toList_compact, ← hdrop]
  rfl

theorem obReserve_ofCells (h : o.Ok) (need limit : ℕ) :
    (obReserve o need limit).1.Ok ∧ MuxProtocol.obReserve (.ofCells o) need limit
      = (.ofCells (obReserve o need limit).1, (obReserve o need limit).2) := by
  unfold obReserve MuxProtocol.obReserve
  rw [length_ofCells]
  by_cases hfit : o.len + need ≤ o.cap
  · rw [if_pos hfit, if_pos (show _ ≤ (OutBuf.ofCells o).cap from hfit)]
    exact ⟨h, rfl⟩
  rw [if_neg hfit, if_neg (show ¬_ ≤ (OutBuf.ofCells o).cap from hfit)]
  by_cases hpos : 0 < o.head
  · rw [if_pos hpos, if_pos (show 0 < (OutBuf.ofCells o).spos from hpos)]
    have hmoved : ∀ x, x = OutBuf.ofCells o.compact →
        (if x.data.length + need ≤ x.cap then (x, .ok ()) else MuxProtocol.obGrow x need limit)
          = if o.compact.len + need ≤ o.compact.cap then (OutBuf.ofCells o.compact, .ok ())
            else MuxProtocol.obGrow (.ofCells o.compact) need limit := by
      rintro _ rfl
      rw [length_ofCells]
      rfl
    refine And.imp_right (hmoved _ (ofCells_compact o).symm).trans ?_
    dsimp only
    split
    · exact ⟨h.compact, rfl⟩
    · exact obGrow_ofCells h.compact need limit
  · rw [if_neg hpos, if_neg (show ¬0 < (OutBuf.ofCells o).spos from hpos)]
    exact obGrow_ofCells h need limit

theorem length_muxCraft {cap : ℕ} {type flags sid} {payload bytes : Bytes}
    (h : muxCraft cap type flags sid payload = .ok bytes) : bytes.length ≤ cap := by
  by_cases hp : payload.length ≤ muxMaxPayload
  · by_cases hc : muxHeaderSize + payload.length ≤ cap
    · rw [muxCraft_ok hp hc] at h
      cases h
      rwa [length_encode]
    · rw [muxCraft, if_neg (by omega), if_pos (by omega)] at h
      cases h
  · rw [muxCraft, if_pos (by omega)] at h
    cases h

/-- The session's buffer is what `emit` makes of the block of memory. -/
theorem emit_ofCells (h : o.Ok) (hs : s.out = .ofCells o) (type flags sid payload) :
    (emit o s.maxOutBuffer.toNat type flags sid payload).1.Ok
      ∧ (MuxProtocol.emit s type flags sid payload).1.out
        = .ofCells (emit o s.maxOutBuffer.toNat type flags sid payload).1
      ∧ (MuxProtocol.emit s type flags sid payload).2
        = (emit o s.maxOutBuffer.toNat type flags sid payload).2 := by
  obtain ⟨hok, heq⟩ :=
    obReserve_ofCells h (muxHeaderSize + payload.length) s.maxOutBuffer.toNat
  unfold emit MuxProtocol.emit
  rw [hs, heq]
  generalize obReserve o (muxHeaderSize + payload.length) s.maxOutBuffer.toNat = r at hok ⊢
  obtain ⟨o', e | ⟨⟩⟩ := r
  · exact ⟨hok, raiseFatal_out .., rfl⟩
  · dsimp only at hok ⊢
    rw [length_ofCells, show (OutBuf.ofCells o').cap = o'.cap from rfl]
    rcases hc : muxCraft (o'.cap - o'.len) type flags sid payload with e | bytes
    · exact ⟨hok, rfl, rfl⟩
    · have hlen := hok.len_le
      have hfit := length_muxCraft hc
      refine ⟨hok.write (by omega), ?_, rfl⟩
      have hw := HeadBuffer.toList_write (b := { o' with head := 0 }) (Nat.zero_le _) bytes
      simp only [OutBuf.ofCells]
      exact congrArg (OutBuf.mk · o'.cap o'.head) hw.symm

theorem muxSendAdvance_ofCells (h : o.Ok) (hs : s.out = .ofCells o) (n : ℕ) :
    (sendAdvance o n).Ok ∧ (muxSendAdvance s n).out = .ofCells (sendAdvance o n) := by
  have hle := h.head_le
  unfold sendAdvance muxSendAdvance
  rw [hs, length_ofCells]
  dsimp only
  split
  · rename_i heq
    rw [if_pos (show (OutBuf.ofCells o).spos + min n (o.len - (OutBuf.ofCells o).spos) = o.len
      from heq)]
    exact ⟨.rewind _, rfl⟩
  · rename_i hne
    rw [if_neg (show ¬(OutBuf.ofCells o).spos + min n (o.len - (OutBuf.ofCells o).spos) = o.len
      from hne)]
    exact ⟨h.skip (Nat.min_le_right ..), rfl⟩

/-- One use of the block of memory, as of the session's buffer. -/
def step (limit : ℕ) (o : Buf) : OutOp → Buf
  | .emit type flags sid payload => (emit o limit type flags sid payload).1
  | .advance n => sendAdvance o n

theorem emit_maxOutBuffer (s : Session) (type flags sid payload) :
    (MuxProtocol.emit s type flags sid payload).1.maxOutBuffer
      = s.maxOutBuffer := by
  unfold MuxProtocol.emit
  split
  · unfold raiseFatal
    split <;> rfl
  · split <;> rfl

theorem muxSendAdvance_maxOutBuffer (s : Session) (n : ℕ) :
    (muxSendAdvance s n).maxOutBuffer = s.maxOutBuffer := by
  unfold muxSendAdvance
  dsimp only
  split <;> rfl

theorem session_step (x : OutTape) (a) : (x.step a).session = match a with
      | .emit type flags sid payload => (MuxProtocol.emit x.session type flags sid payload).1
      | .advance n => muxSendAdvance x.session n := by
  cases a with
  | emit type flags sid payload =>
    simp only [OutTape.step]
    split
    all_goals
      rename_i he
      rw [he]
  | advance n => rfl

/-- The buffer of cells does what the buffer of bytes does. -/
theorem ofCells_step {x : OutTape} (h : o.Ok) (hs : x.session.out = .ofCells o) (a) :
    (step x.session.maxOutBuffer.toNat o a).Ok
      ∧ (x.step a).session.out = .ofCells (step x.session.maxOutBuffer.toNat o a)
      ∧ (x.step a).session.maxOutBuffer = x.session.maxOutBuffer := by
  rw [session_step]
  cases a with
  | emit type flags sid payload =>
    obtain ⟨h1, h2, -⟩ := emit_ofCells h hs type flags sid payload
    exact ⟨h1, h2, emit_maxOutBuffer ..⟩
  | advance n =>
    obtain ⟨h1, h2⟩ := muxSendAdvance_ofCells h hs n
    exact ⟨h1, h2, muxSendAdvance_maxOutBuffer ..⟩

/-- The two stay the same over every sequence of uses. -/
theorem ofCells_run (ops : List OutOp) : ∀ {x : OutTape} {o : Buf}, o.Ok →
    x.session.out = .ofCells o → (ops.foldl OutTape.step x).session.out
      = .ofCells (ops.foldl (step x.session.maxOutBuffer.toNat) o) := by
  induction ops with
  | nil => exact fun _ h => h
  | cons a ops ih =>
    intro x o h hs
    obtain ⟨h1, h2, h3⟩ := ofCells_step h hs a
    have hrun := ih h1 h2
    rwa [h3] at hrun

end OutCells

/-- The bytes that are gone and those to be sent are the frames, in order. A frame that is refused
leaves the bytes to be sent as they are, and so do the moves and the growth of a reservation; an
advance takes them from the front. Where the buffer is a block of memory, that block holds them. -/
theorem output_buffer_fifo (h : s.out.spos ≤ s.out.data.length) (ops : List OutOp) :
    let x := ops.foldl OutTape.step { session := s }
    x.gone ++ muxSendBuf x.session = muxSendBuf s ++ encodeAll x.frames
      ∧ (∀ type flags sid payload e, (emit x.session type flags sid payload).2 = .error e →
        muxSendBuf (emit x.session type flags sid payload).1 = muxSendBuf x.session)
      ∧ (∀ need limit, (obReserve x.session.out need limit).1.pending = muxSendBuf x.session)
      ∧ (∀ n, muxSendBuf (muxSendAdvance x.session n) = (muxSendBuf x.session).drop n)
      ∧ ∀ o, o.Ok → s.out = .ofCells o →
        muxSendBuf x.session = (ops.foldl (OutCells.step s.maxOutBuffer.toNat) o).toList := by
  have hkept : OutTape.Kept s (ops.foldl OutTape.step { session := s }) :=
    OutTape.Kept.run ⟨h, by simp⟩ ops
  refine ⟨hkept.bytes, fun type flags sid payload e he => ?_,
    fun need limit => (obReserve_spec _ need limit).1, fun n => ?_, fun o ho hs => ?_⟩
  · have happ := (emit_muxSendBuf hkept.spos type flags sid payload).2
    rwa [he, if_neg (by simp), List.append_nil] at happ
  · have hcut := muxSendBuf_advance hkept.spos n
    conv_rhs at hcut => rw [← List.take_append_drop n (muxSendBuf _)]
    exact List.append_cancel_left hcut
  · rw [muxSendBuf_eq, OutCells.ofCells_run ops ho hs, OutCells.pending_ofCells]

/-- Three frames, the second of which is past the ceiling, with the bytes taken in the middle of a
frame and more of them than there are. -/
def outRun : List OutOp :=
  [.emit muxTPing 0 0 (List.replicate 8 1), .advance 5, .emit muxTPing 0 0 (List.replicate 5000 2),
    .emit muxTPing 0 0 [3], .advance 100]

theorem output_buffer_fifo_outRun :
    ∃ s x, s = initSession { maxOutBuffer := 4096 } .dialer
      ∧ x = outRun.foldl OutTape.step { session := s }
      ∧ x.frames.map (·.payload.length) = [8, 1] ∧ x.gone.length = 33
      ∧ x.gone ++ muxSendBuf x.session = muxSendBuf s ++ encodeAll x.frames :=
  ⟨_, _, rfl, rfl, by decide +kernel, by decide +kernel,
    (output_buffer_fifo (by decide +kernel) outRun).1⟩

/-! ### The event queue -/

inductive EvqOp where
  | push (e : Event)
  | next

/-- A session, the events taken and those queued since the start. -/
structure EvqTape where
  session : Session
  popped : List Event := []
  pushed : List Event := []

/-- One use of the event queue. -/
def EvqTape.step (x : EvqTape) : EvqOp → EvqTape
  | .push e => { x with session := evqPush x.session e, pushed := x.pushed ++ [e] }
  | .next =>
    match muxNextEvent x.session with
    | (s, some e) => { x with session := s, popped := x.popped ++ [e] }
    | (s, none) => { x with session := s }

/-- The events that were taken and those that wait. -/
def EvqTape.events (x : EvqTape) : List Event := x.popped ++ x.session.q.toList

theorem EvqTape.events_step (x : EvqTape) (a) :
    ∃ l, (x.step a).pushed = x.pushed ++ l ∧ (x.step a).events = x.events ++ l := by
  cases a with
  | push e => exact ⟨[e], rfl, by simp [EvqTape.step, EvqTape.events, evqPush]⟩
  | next =>
    refine ⟨[], ?_⟩
    rcases hp : x.session.q.pop with _ | ⟨e, q⟩
    · simp [EvqTape.step, EvqTape.events, muxNextEvent, hp]
    · simp [EvqTape.step, EvqTape.events, muxNextEvent, hp, RingQueue.pop_some hp]

/-- What was queued at first and pushed since has been taken in order, or waits in order; the next
event is the first of those that wait. -/
theorem event_queue_fifo (s : Session) (ops : List EvqOp) :
    let x := ops.foldl EvqTape.step { session := s }
    x.popped ++ x.session.q.toList = s.q.toList ++ x.pushed
      ∧ (muxNextEvent x.session).2 = x.session.q.toList.head? := by
  have hrun : ∀ x : EvqTape, x.events = s.q.toList ++ x.pushed →
      (ops.foldl EvqTape.step x).events = s.q.toList ++ (ops.foldl EvqTape.step x).pushed := by
    induction ops with
    | nil => exact fun x h => h
    | cons a ops ih =>
      intro x h
      refine ih (x.step a) ?_
      obtain ⟨l, h1, h2⟩ := x.events_step a
      rw [h1, h2, h, List.append_assoc]
  refine ⟨hrun _ (List.append_nil _).symm, ?_⟩
  unfold muxNextEvent
  split
  · rename_i hp
    rw [RingQueue.pop_none hp]
    rfl
  · rename_i hp
    rw [RingQueue.pop_some hp]
    rfl

end MuxProtocol
