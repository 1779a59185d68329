import MuxProtocol.Proofs.Refine

/-!
# Bytes in any cut

However the bytes of a transport are cut into the buffers of `mux_recv`, and whenever the host takes
its events, the session does the same. The event queue is written to and not read, but for its soft
cap, at which `mux_recv` stops: there a host that takes no events gets no further.
-/

namespace MuxProtocol

open List RingQueue

/-! ### The queue is not read -/

section Queue

variable {s s' t' : Session} {q : RingQueue Event} {g : Session → Session}

/-- `s` goes to `s'`, and with the queue `q` instead of its own to `t'`: the same but for the queue,
which gets the same events. -/
def Logs (s s' : Session) (q : RingQueue Event) (t' : Session) : Prop :=
  ∃ l, s'.queued = s.queued ++ l ∧ s'.q = s.q.pushAll l ∧ t' = { s' with q := q.pushAll l }

/-- Of the queue, `g` does no more than push to it. -/
def Logging (g : Session → Session) : Prop := ∀ s q, Logs s (g s) q (g { s with q })

namespace Logs

theorem keep (h1 : s'.queued = s.queued) (h2 : s'.q = s.q) (h3 : t' = { s' with q }) :
    Logs s s' q t' :=
  ⟨[], by simp [h1], h2, h3⟩

theorem andThen (h : Logs s s' q t') (hg : Logging g) : Logs s (g s') q (g t') := by
  obtain ⟨l, h1, h2, rfl⟩ := h
  obtain ⟨l', h3, h4, h5⟩ := hg s' (q.pushAll l)
  refine ⟨l ++ l', by rw [h3, h1, append_assoc], ?_, ?_⟩
  · rw [h4, h2, pushAll_append]
  · rw [h5, pushAll_append]

theorem ite {p : Prop} [Decidable p] {s₁ s₂ t₁ t₂} (h₁ : Logs s s₁ q t₁) (h₂ : Logs s s₂ q t₂) :
    Logs s (if p then s₁ else s₂) q (if p then t₁ else t₂) := by
  split <;> assumption

end Logs

theorem evqPush_logging (e) : Logging (evqPush · e) := fun _ _ => ⟨[e], rfl, rfl, rfl⟩

theorem raiseFatal_logging (code) : Logging (raiseFatal · code) := fun _ _ =>
  .ite (.keep rfl rfl rfl) ⟨[.fatal code], rfl, rfl, rfl⟩

theorem emit_logs (s q type flags sid payload) :
    Logs s (emit s type flags sid payload).1 q (emit { s with q } type flags sid payload).1
      ∧ (emit { s with q } type flags sid payload).2 = (emit s type flags sid payload).2 := by
  unfold emit
  dsimp only
  split
  · exact ⟨raiseFatal_logging muxCodeInternal _ q, rfl⟩
  · split
    · exact ⟨.keep rfl rfl rfl, rfl⟩
    · exact ⟨.keep rfl rfl rfl, rfl⟩

theorem emit_logging (type flags sid payload) :
    Logging fun s => (emit s type flags sid payload).1 := fun s q =>
  (emit_logs s q type flags sid payload).1

theorem stRemove_logging (i : ℕ) : Logging (stRemove · i) := by
  intro s q
  unfold stRemove
  dsimp only
  split <;> exact .keep rfl rfl rfl

theorem setBlocked_logging (i : ℕ) (b) : Logging (setBlocked · i b) := by
  intro s q
  unfold setBlocked
  dsimp only
  split
  · exact .keep rfl rfl rfl
  · exact .ite (.keep rfl rfl rfl) (.ite (.keep rfl rfl rfl) (.keep rfl rfl rfl))

theorem sendHello_logging (ack) : Logging fun s => (sendHello s ack).1 := by
  intro s q
  unfold sendHello
  dsimp only
  split
  · exact .keep rfl rfl rfl
  · rename_i blob off _
    obtain ⟨h1, h2⟩ := emit_logs s q (if ack then muxTHelloAck else muxTHello) 0 muxSidControl
      (blob.take off)
    rcases he : emit s (if ack then muxTHelloAck else muxTHello) 0 muxSidControl (blob.take off)
      with ⟨s₁, e | ⟨⟩⟩ <;>
    rcases ht : emit { s with q } (if ack then muxTHelloAck else muxTHello) 0 muxSidControl
      (blob.take off) with ⟨t₁, e' | ⟨⟩⟩ <;>
    rw [he, ht] at h1 h2 <;> cases h2
    · exact h1
    · exact h1.andThen (g := fun s => { s with helloSent := true }) fun _ _ => .keep rfl rfl rfl

theorem answer_logging (ack : Bool) : Logging fun s =>
    if ¬ ack ∧ s.role = .acceptor ∧ ¬ s.helloSent then (sendHello s true).1 else s :=
  fun s q => .ite (sendHello_logging true s q) (.keep rfl rfl rfl)

theorem welcome_logs (c : Core) (hc : c.queued = s.queued) (e : Event) (ack : Bool) :
    Logs s
      (let s := evqPush { s with toCore := c } e
       if ¬ ack ∧ s.role = .acceptor ∧ ¬ s.helloSent then (sendHello s true).1 else s) q
      (let s := evqPush { s with toCore := c, q } e
       if ¬ ack ∧ s.role = .acceptor ∧ ¬ s.helloSent then (sendHello s true).1 else s) := by
  have h : Logs s { s with toCore := c } q { s with toCore := c, q } := .keep hc rfl rfl
  have h' := h.andThen (evqPush_logging e)
  have h'' := h'.andThen (answer_logging ack)
  exact h''

theorem onHello_logging (f ack) : Logging (onHello · f ack) := by
  intro s q
  unfold onHello
  dsimp only
  refine .ite (raiseFatal_logging _ s q) (.ite (raiseFatal_logging _ s q) ?_)
  have hqueued : ∀ {c e b}, helloLoop (f.payload.length + 1) s.toCore {} f.view 0 = (c, e, b) →
      c.queued = s.queued := by
    intro c e b hl
    obtain ⟨pm, pi, sw, rfl, -⟩ := helloLoop_eq hl
    rfl
  rcases hl : helloLoop (f.payload.length + 1) s.toCore {} f.view 0 with ⟨c, e, _ | _⟩
  · have hq := hqueued hl
    have h : Logs s { s with toCore := c } q { s with toCore := c, q } := .keep hq rfl rfl
    exact h.andThen (raiseFatal_logging muxCodeProtocol)
  · have hq : c.queued = s.queued := hqueued hl
    exact welcome_logs { c with peerHelloSeen := true } hq e.event ack

theorem onSyn_logging (f) : Logging (onSyn · f) := by
  intro s q
  have hfatal : ∀ code, Logs s (raiseFatal s code) q (raiseFatal { s with q } code) :=
    fun code => raiseFatal_logging code s q
  unfold onSyn
  refine .ite (hfatal _) (.ite (hfatal _) (.ite (hfatal _) (.ite (hfatal _) (.ite (hfatal _)
    (.ite (hfatal _) (.ite ?_ ?_))))))
  · exact (emit_logging muxTData muxFRst f.sid _ s q).andThen
      (g := fun s => { s with maxRemoteSid := f.sid }) fun _ _ => .keep rfl rfl rfl
  · dsimp only
    rcases stInsert s.tab (freshStream s.toCore f.sid) with ⟨tab, _ | i⟩
    · have h : Logs s { s with tab } q { s with tab, q } := .keep rfl rfl rfl
      exact h.andThen (raiseFatal_logging muxCodeInternal)
    · have h : Logs s { s with tab, maxRemoteSid := f.sid } q
          { s with tab, maxRemoteSid := f.sid, q } := .keep rfl rfl rfl
      have h' := h.andThen (evqPush_logging (.opened f.sid f.payload))
      refine .ite ?_ (.ite ?_ h')
      · exact (h'.andThen (evqPush_logging (.reset f.sid 0))).andThen (stRemove_logging i)
      · exact (h'.andThen (g := fun s => { s with
          tab := s.tab.modify i fun st => { st with life := .hclRemote } }) fun _ _ =>
          .keep rfl rfl rfl).andThen (evqPush_logging (.closed f.sid))

theorem abortStream_logging (sid) (i : ℕ) (code) : Logging (abortStream · sid i code) := by
  intro s q
  have h : Logs s { s with aborts := s.aborts ++ [code] } q
      { s with aborts := s.aborts ++ [code], q } := .keep rfl rfl rfl
  exact ((h.andThen (emit_logging muxTData muxFRst sid (bePut32 code))).andThen
    (evqPush_logging (.reset sid 0))).andThen (stRemove_logging i)

theorem deliver_logging (f) (i : ℕ) : Logging (deliver · f i) := fun _ _ =>
  ⟨[.data f.sid f.payload], rfl, rfl, rfl⟩

theorem onFin_logging (f) (i : ℕ) (life) : Logging (onFin · f i life) := by
  intro s q
  have h := evqPush_logging (.closed f.sid) s q
  exact .ite (h.andThen (stRemove_logging i)) (h.andThen (g := fun s => { s with
    tab := s.tab.modify i fun st => { st with life := .hclRemote } }) fun _ _ => .keep rfl rfl rfl)

theorem onLive_logging (f) (i : ℕ) (st) : Logging (onLive · f i st) := by
  intro s q
  have hdata : Logs s (if f.payload.length > 0 then deliver s f i else s) q
      (if f.payload.length > 0 then deliver { s with q } f i else { s with q }) :=
    .ite (deliver_logging f i s q) (.keep rfl rfl rfl)
  refine .ite ?_ (.ite (abortStream_logging _ i _ s q) (.ite (raiseFatal_logging _ s q)
    (.ite (abortStream_logging _ i _ s q)
      (.ite (hdata.andThen (onFin_logging f i st.life)) hdata))))
  exact (evqPush_logging _ s q).andThen (stRemove_logging i)

theorem onData_logging (f) : Logging (onData · f) := by
  intro s q
  refine .ite (onSyn_logging f s q) (.ite (raiseFatal_logging _ s q) ?_)
  rcases stFind s.tab f.sid with _ | ⟨i, st⟩
  · exact .keep rfl rfl rfl
  · exact onLive_logging f i st s q

theorem wakeSlot_logging (i : ℕ) : Logging (wakeSlot · i) := by
  intro s q
  unfold wakeSlot
  dsimp only
  rcases s.tab.get i with _ | st
  · exact .keep rfl rfl rfl
  · exact .ite ((setBlocked_logging i false s q).andThen (evqPush_logging (.writable st.sid)))
      (.keep rfl rfl rfl)

theorem sweep_logging : Logging sweep := by
  have hfold : ∀ l : List ℕ, Logging fun s => l.foldl wakeSlot s := by
    intro l
    induction l with
    | nil => exact fun s q => .keep rfl rfl rfl
    | cons i l ih => exact fun s q => (wakeSlot_logging i s q).andThen ih
  exact fun s q => hfold _ s q

theorem onWindowUpdate_logging (f) : Logging (onWindowUpdate · f) := by
  intro s q
  refine .ite (raiseFatal_logging _ s q) (.ite ?_ ?_)
  · set n := ((beLoad32 f.payload).toNat : ℤ)
    have h : Logs s { s with sessSendWin := s.sessSendWin + n } q
        { s with sessSendWin := s.sessSendWin + n, q } := .keep rfl rfl rfl
    exact .ite (h.andThen (raiseFatal_logging _)) (.ite (h.andThen sweep_logging) h)
  · dsimp only
    rcases stFind s.tab f.sid with _ | ⟨i, st⟩
    · exact .keep rfl rfl rfl
    · set n := ((beLoad32 f.payload).toNat : ℤ)
      have h : Logs s
          { s with tab := s.tab.modify i fun st => { st with sendWin := st.sendWin + n } }
          q { s with tab := s.tab.modify i fun st => { st with sendWin := st.sendWin + n }, q } :=
        .keep rfl rfl rfl
      exact .ite (h.andThen (raiseFatal_logging _))
        (.ite ((h.andThen (setBlocked_logging i false)).andThen
        (evqPush_logging (.writable f.sid))) h)

theorem onPing_logging (f) : Logging (onPing · f) := fun s q =>
  .ite (raiseFatal_logging _ s q) (.ite (.keep rfl rfl rfl) (emit_logging _ _ _ _ s q))

theorem onGoaway_logging (f) : Logging (onGoaway · f) := fun s q =>
  .ite (raiseFatal_logging _ s q) (.ite (raiseFatal_logging _ s q) (evqPush_logging _ s q))

theorem onCapacity_logging (f) : Logging (onCapacity · f) := fun s q =>
  .ite (raiseFatal_logging _ s q) (.ite (raiseFatal_logging _ s q) (evqPush_logging _ s q))

theorem processFrame_logging (f) : Logging (processFrame · f) := by
  intro s q
  have h : Logs s { s with got := s.got ++ [f] } q { s with got := s.got ++ [f], q } :=
    .keep rfl rfl rfl
  have hfatal := h.andThen (raiseFatal_logging muxCodeProtocol)
  exact .ite hfatal
    (.ite (h.andThen (onData_logging f)) (.ite (h.andThen (onWindowUpdate_logging f))
    (.ite (h.andThen (onPing_logging f)) (.ite (h.andThen (onGoaway_logging f))
      (.ite (h.andThen (onHello_logging f false)) (.ite (h.andThen (onHello_logging f true))
        (.ite (h.andThen (onCapacity_logging f)) hfatal)))))))

end Queue

/-! ### What a session makes of some bytes -/

section Absorb

variable {s s' t : Session} {buf r : Bytes} {fs : List Frame}

/-- The receive path without its queue: `s` processes the frames `fs` at the front of the bytes, and
then is dead, or waits for the rest of a frame, or dies of what comes next. -/
inductive Absorbs : Session → Bytes → List Frame → Session → Prop
  | dead {s : Session} {buf : Bytes} : s.dead = true → Absorbs s buf [] s
  | short {s : Session} {buf : Bytes} : s.dead = false → muxParse buf = .error .short →
      Absorbs s buf [] s
  | garbled {s : Session} {buf : Bytes} {e : MuxErr} : s.dead = false → muxParse buf = .error e →
      e ≠ .short → Absorbs s buf [] (raiseFatal s muxCodeProtocol)
  | offends {s : Session} {buf : Bytes} {f : Frame} {n : ℕ} : s.dead = false →
      muxParse buf = .ok (f, n) → (processFrame s f).dead = true →
      Absorbs s buf [] (processFrame s f)
  | frame {s t : Session} {buf : Bytes} {f : Frame} {n : ℕ} {fs : List Frame} : s.dead = false →
      muxParse buf = .ok (f, n) → (processFrame s f).dead = false →
      Absorbs (processFrame s f) (buf.drop n) fs t → Absorbs s buf (f :: fs) t

theorem Absorbs.total (s buf) : ∃ fs t, Absorbs s buf fs t := by
  by_cases hd : s.dead = true
  · exact ⟨[], s, .dead hd⟩
  rw [Bool.not_eq_true] at hd
  rcases hp : muxParse buf with e | ⟨f, n⟩
  · by_cases he : e = .short
    · exact ⟨[], s, .short hd (he ▸ hp)⟩
    · exact ⟨[], _, .garbled hd hp he⟩
  · by_cases hf : (processFrame s f).dead = true
    · exact ⟨[], _, .offends hd hp hf⟩
    · obtain ⟨-, hn, hb⟩ := muxParse_ok hp
      have : (buf.drop n).length < buf.length := by
        have := length_pos_of_ne_nil (encode_ne_nil f)
        rw [length_drop]
        have := congrArg length hb
        rw [length_append] at this
        omega
      obtain ⟨fs, t, h⟩ := Absorbs.total (processFrame s f) (buf.drop n)
      exact ⟨f :: fs, t, .frame hd hp (by simpa using hf) h⟩
termination_by buf.length
decreasing_by exact this

theorem Absorbs.unique {fs' t'} (h : Absorbs s buf fs t) (h' : Absorbs s buf fs' t') :
    fs = fs' ∧ t = t' := by
  induction h generalizing fs' t' with
  | dead hd => cases h' <;> simp_all
  | short hd hp => cases h' <;> simp_all
  | garbled hd hp he => cases h' <;> simp_all
  | offends hd hp hf => cases h' <;> simp_all
  | frame hd hp hf _ ih =>
    cases h' with
    | frame _ hp' _ h' =>
      rw [hp] at hp'
      cases hp'
      obtain ⟨rfl, rfl⟩ := ih h'
      exact ⟨rfl, rfl⟩
    | _ => simp_all

theorem Absorbs.of_dead (h : Absorbs s buf fs t) (hd : s.dead = true) : fs = [] ∧ t = s :=
  h.unique (.dead hd)

theorem Absorbs.of_short (h : Absorbs s buf fs t) (hp : muxParse buf = .error .short) :
    fs = [] ∧ t = s := by
  by_cases hd : s.dead = true
  · exact h.of_dead hd
  · exact h.unique (.short (by simpa using hd) hp)

/-- Where `mux_recv` stops, what is left of the bytes, with whatever follows, goes on as if it had
not. -/
theorem recvLoop_absorbs (r) : ∀ (n : ℕ) {s : Session} {buf : Bytes}, s.dead = false →
    Absorbs (recvLoop n s buf).1 (buf.drop (recvLoop n s buf).2 ++ r) fs t →
    ∃ fs₀, Absorbs s (buf ++ r) (fs₀ ++ fs) t ∧ (recvLoop n s buf).2 = (encodeAll fs₀).length
  | 0, s, buf, _, h => ⟨[], h, rfl⟩
  | n + 1, s, buf, hd, h => by
    unfold recvLoop at h ⊢
    split_ifs at h ⊢ with h1 h2
    · exact ⟨[], h, rfl⟩
    · exact ⟨[], h, rfl⟩
    rcases hp : muxParse buf with e | ⟨f, used⟩
    · rw [hp] at h
      cases e with
      | short => exact ⟨[], h, rfl⟩
      | _ =>
        obtain ⟨rfl, rfl⟩ := h.of_dead (by simp)
        exact ⟨[], .garbled hd (muxParse_error_append hp (by simp) r) (by simp), rfl⟩
    · rw [hp] at h
      dsimp only at h ⊢
      by_cases hf : (processFrame s f).dead = true
      · rw [if_pos hf] at h ⊢
        obtain ⟨rfl, rfl⟩ := h.of_dead hf
        exact ⟨[], .offends hd (muxParse_append hp r) hf, rfl⟩
      · rw [if_neg hf] at h ⊢
        rw [Bool.not_eq_true] at hf
        dsimp only at h ⊢
        rw [← drop_drop] at h
        obtain ⟨fs₀, h3, h4⟩ := recvLoop_absorbs r n hf h
        obtain ⟨-, hn, hb⟩ := muxParse_ok hp
        have hle : used ≤ buf.length := by
          have := congrArg length hb
          rw [length_append] at this
          omega
        refine ⟨f :: fs₀, .frame hd (muxParse_append hp r) hf ?_, ?_⟩
        · rwa [drop_append_of_le_length hle]
        · rw [encodeAll_cons, length_append, h4, hn]

theorem Absorbs.logs (h : Absorbs s buf fs t) (q) :
    ∃ t', Absorbs { s with q } buf fs t' ∧ Logs s t q t' := by
  induction h generalizing q with
  | dead hd => exact ⟨_, .dead hd, .keep rfl rfl rfl⟩
  | short hd hp => exact ⟨_, .short hd hp, .keep rfl rfl rfl⟩
  | garbled hd hp he => exact ⟨_, .garbled hd hp he, raiseFatal_logging muxCodeProtocol _ q⟩
  | @offends s buf f n hd hp hf =>
    have hl : Logs s (processFrame s f) q (processFrame { s with q } f) :=
      processFrame_logging f s q
    obtain ⟨l, -, -, ht⟩ := id hl
    exact ⟨_, .offends hd hp (by rw [ht]; exact hf), hl⟩
  | @frame s t buf f n fs hd hp hf _ ih =>
    have hl : Logs s (processFrame s f) q (processFrame { s with q } f) :=
      processFrame_logging f s q
    obtain ⟨l, h1, h2, ht⟩ := hl
    obtain ⟨t', h3, l', h4, h5, h6⟩ := ih (q.pushAll l)
    refine ⟨t', .frame hd hp (by rw [ht]; exact hf) (ht ▸ h3), l ++ l', ?_, ?_, ?_⟩
    · rw [h4, h1, append_assoc]
    · rw [h5, h2, pushAll_append]
    · rw [h6, pushAll_append]

end Absorb

/-! ### A host that feeds a session -/

/-- A host with the bytes `mux_recv` has left over, the events it has taken and the number of bytes
consumed. -/
structure Host where
  session : Session
  tail : Bytes
  popped : List Event
  consumed : ℕ

/-- The host feeds the next chunk behind the bytes left over, or takes an event. -/
inductive Move where
  | feed (chunk : Bytes)
  | pop

namespace Host

variable {h : Host} {s t : Session} {y : Bytes} {evs : List Event} {n : ℕ}

def start (s : Session) : Host := ⟨s, [], [], 0⟩

def move (h : Host) : Move → Host
  | .feed chunk =>
    match muxRecv h.session (h.tail ++ chunk) with
    | (s, .ok c) =>
      { h with session := s, tail := (h.tail ++ chunk).drop c, consumed := h.consumed + c }
    | (s, .error _) => { h with session := s, tail := h.tail ++ chunk }
  | .pop =>
    match muxNextEvent h.session with
    | (s, some e) => { h with session := s, popped := h.popped ++ [e] }
    | (s, none) => { h with session := s }

/-- The bytes of a list of moves. -/
def fed : List Move → Bytes
  | [] => []
  | .feed chunk :: ms => chunk ++ fed ms
  | .pop :: ms => fed ms

/-- Nothing is left to do: the session is dead, or it waits for the rest of a frame, and not for its
host to take events. -/
def Settled (h : Host) : Prop :=
  h.session.dead = true
    ∨ h.session.q.count < muxEventQueueSoftCap ∧ muxParse h.tail = .error .short

instance Settled.decidable (h : Host) : Decidable h.Settled := inferInstanceAs (Decidable (_ ∨ _))

/-- Every event is taken. -/
def drain (h : Host) : Host := (List.replicate h.session.q.count Move.pop).foldl move h

/-- The queue is drained and the rest fed again, `n` times. -/
def repeated : ℕ → Host → Host
  | 0, h => h
  | n + 1, h => repeated n (h.drain.move (.feed []))

/-- The bytes fed in one piece, and the queue drained whenever `mux_recv` stops. -/
def whole (s : Session) (x : Bytes) : Host := repeated (x.length + 1) ((start s).move (.feed x))

/-- What the host comes to once the bytes `y` are fed as well: the session `t` but for its queue,
the events `evs` in all, and `n` bytes consumed. -/
def Due (h : Host) (y : Bytes) (t : Session) (evs : List Event) (n : ℕ) : Prop :=
  ∃ fs t', Absorbs h.session (h.tail ++ y) fs t' ∧ { t' with q := .empty } = t
    ∧ h.popped ++ t'.q.toList = evs ∧ h.consumed + (encodeAll fs).length = n

theorem move_feed_dead (hd : h.session.dead = true) (chunk) :
    h.move (.feed chunk) = { h with tail := h.tail ++ chunk } := by
  rw [move, muxRecv, if_pos hd]

theorem move_feed (hd : h.session.dead = false) (chunk) : h.move (.feed chunk) = { h with
      session := (recvLoop (h.tail ++ chunk).length h.session (h.tail ++ chunk)).1
      tail := (h.tail ++ chunk).drop
        (recvLoop (h.tail ++ chunk).length h.session (h.tail ++ chunk)).2
      consumed := h.consumed
        + (recvLoop (h.tail ++ chunk).length h.session (h.tail ++ chunk)).2 } := by
  rw [move, muxRecv, if_neg (by simp [hd])]

/-- Bytes fed are no longer due. -/
theorem Due.feed {chunk} (hd : h.Due (chunk ++ y) t evs n) :
    (h.move (.feed chunk)).Due y t evs n := by
  obtain ⟨fs, t', h1, h2, h3, h4⟩ := hd
  rw [← append_assoc] at h1
  by_cases hdead : h.session.dead = true
  · rw [move_feed_dead hdead]
    exact ⟨fs, t', h1, h2, h3, h4⟩
  · rw [Bool.not_eq_true] at hdead
    rw [move_feed hdead]
    set r := recvLoop (h.tail ++ chunk).length h.session (h.tail ++ chunk) with hr
    obtain ⟨fs', t'', h5⟩ := Absorbs.total r.1 ((h.tail ++ chunk).drop r.2 ++ y)
    obtain ⟨fs₀, h6, h7⟩ := recvLoop_absorbs y _ hdead h5
    obtain ⟨rfl, rfl⟩ := h1.unique h6
    refine ⟨fs', t', h5, h2, h3, ?_⟩
    rw [encodeAll_append, length_append, ← h7, ← hr] at h4
    dsimp only
    omega

theorem move_pop (h : Host) : ∃ q, (h.move .pop).session = { h.session with q }
    ∧ (h.move .pop).popped ++ q.toList = h.popped ++ h.session.q.toList
    ∧ q.count = h.session.q.count - 1 ∧ (h.move .pop).tail = h.tail
    ∧ (h.move .pop).consumed = h.consumed := by
  unfold move muxNextEvent
  rcases hp : h.session.q.pop with _ | ⟨e, q⟩
  · have hc : h.session.q.count = 0 := by
      rw [← length_toList, pop_none hp]
      rfl
    exact ⟨h.session.q, rfl, rfl, by omega, rfl, rfl⟩
  · have hl := pop_some hp
    have hc := congrArg length hl
    rw [length_cons, length_toList, length_toList] at hc
    exact ⟨q, rfl, by simp [hl], by omega, rfl, rfl⟩

theorem Due.pop (hd : h.Due y t evs n) : (h.move .pop).Due y t evs n := by
  obtain ⟨fs, t', h1, h2, h3, h4⟩ := hd
  obtain ⟨q, e1, e2, -, e3, e4⟩ := h.move_pop
  obtain ⟨t'', h5, l, -, h6, rfl⟩ := h1.logs q
  refine ⟨fs, { t' with q := q.pushAll l }, ?_, h2, ?_, ?_⟩
  · rw [e1, e3]
    exact h5
  · rw [toList_pushAll, ← append_assoc, e2, append_assoc, ← toList_pushAll, ← h6]
    exact h3
  · rw [e4]
    exact h4

/-- What is due does not depend on how the bytes are cut, nor on when events are taken. -/
theorem Due.run : ∀ (ms : List Move) {h : Host}, h.Due (fed ms ++ y) t evs n →
    (ms.foldl move h).Due y t evs n
  | [], _, hd => hd
  | .feed c :: _, h, hd =>
    Due.run _ (h := h.move (.feed c)) (.feed (by rwa [fed, append_assoc] at hd))
  | .pop :: _, h, hd => Due.run _ (h := h.move .pop) (.pop hd)

theorem Due.settled (hd : h.Due [] t evs n) (hs : h.Settled) :
    { h.session with q := .empty } = t ∧ h.popped ++ h.session.q.toList = evs ∧ h.consumed = n := by
  obtain ⟨fs, t', h1, h2, h3, h4⟩ := hd
  rw [append_nil] at h1
  obtain ⟨rfl, rfl⟩ : fs = [] ∧ t' = h.session := by
    rcases hs with hdead | ⟨-, hp⟩
    · exact h1.of_dead hdead
    · exact h1.of_short hp
  exact ⟨h2, h3, h4⟩

/-! ### The reference -/

theorem fed_replicate : ∀ k, fed (replicate k .pop) = []
  | 0 => rfl
  | k + 1 => by
    exact fed_replicate k

theorem Due.repeated : ∀ {n' : ℕ} {h : Host}, h.Due [] t evs n → (repeated n' h).Due [] t evs n
  | 0, _, hd => hd
  | _ + 1, h, hd =>
    Due.repeated (h := h.drain.move (.feed [])) (.feed (.run _ (by rwa [fed_replicate])))

theorem drain_eq (h : Host) : ∃ q, h.drain.session = { h.session with q } ∧ q.count = 0
    ∧ h.drain.tail = h.tail := by
  have hpops : ∀ (k : ℕ) (h : Host), h.session.q.count = k → ∃ q,
      ((replicate k Move.pop).foldl move h).session = { h.session with q } ∧ q.count = 0
        ∧ ((replicate k Move.pop).foldl move h).tail = h.tail := by
    intro k
    induction k with
    | zero => exact fun h hk => ⟨h.session.q, rfl, hk, rfl⟩
    | succ k ih =>
      intro h hk
      obtain ⟨q, e1, -, e2, e3, -⟩ := h.move_pop
      obtain ⟨q', e4, e5, e6⟩ := ih (h.move .pop) (by rw [e1]; dsimp only; omega)
      refine ⟨q', ?_, e5, e6.trans e3⟩
      rw [replicate_succ, foldl_cons, e4, e1]
  exact hpops _ h rfl

/-- With room in the queue, `mux_recv` takes nothing only where no frame is there, or it dies. -/
theorem recvLoop_stop {s : Session} {buf : Bytes} {n : ℕ} (hq : s.q.count < muxEventQueueSoftCap)
    (hn : buf.length ≤ n) (h0 : (recvLoop n s buf).2 = 0) :
    (recvLoop n s buf).1.dead = true
      ∨ (recvLoop n s buf).1 = s ∧ muxParse buf = .error .short := by
  rcases n with _ | n
  · obtain rfl : buf = [] := length_eq_zero_iff.1 (by omega)
    exact .inr ⟨rfl, rfl⟩
  unfold recvLoop at h0 ⊢
  by_cases hb : buf = []
  · subst hb
    exact .inr ⟨rfl, rfl⟩
  rw [if_neg hb, if_neg (Nat.not_le.2 hq)] at h0 ⊢
  rcases hp : muxParse buf with e | ⟨f, used⟩
  · cases e with
    | short => exact .inr ⟨rfl, rfl⟩
    | _ => exact .inl (by simp)
  · rw [hp] at h0
    dsimp only at h0 ⊢
    by_cases hf : (processFrame s f).dead = true
    · rw [if_pos hf]
      exact .inl hf
    · rw [if_neg hf] at h0
      have hpos := length_pos_of_ne_nil (encode_ne_nil f)
      rw [← (muxParse_ok hp).2.1] at hpos
      omega

theorem Settled.repeated : ∀ {n : ℕ} {h : Host}, h.Settled → (repeated n h).Settled
  | 0, _, hs => hs
  | n + 1, h, hs => by
    refine Settled.repeated (n := n) ?_
    obtain ⟨q, e1, e2, e3⟩ := h.drain_eq
    by_cases hd : h.drain.session.dead = true
    · rw [move_feed_dead hd]
      exact .inl hd
    have hp : muxParse (h.drain.tail ++ []) = .error .short := by
      rw [append_nil, e3]
      exact (hs.resolve_left (by rwa [e1] at hd)).2
    rw [Bool.not_eq_true] at hd
    have hstay : recvLoop (h.drain.tail ++ []).length h.drain.session (h.drain.tail ++ [])
        = (h.drain.session, 0) := by
      generalize (h.drain.tail ++ []).length = k
      cases k with
      | zero => rfl
      | succ k =>
        unfold recvLoop
        rw [hp]
        split_ifs <;> rfl
    rw [move_feed hd, hstay]
    refine .inr ⟨?_, hp⟩
    dsimp only
    rw [e1, e2]
    decide

/-- More rounds than there are bytes leave nothing to do. -/
theorem repeated_settled : ∀ {n : ℕ} {h : Host}, h.tail.length < n → (repeated n h).Settled
  | 0, _, hlt => by omega
  | n + 1, h, hlt => by
    obtain ⟨q, e1, e2, e3⟩ := h.drain_eq
    rw [Host.repeated]
    by_cases hd : h.drain.session.dead = true
    · rw [move_feed_dead hd]
      exact Settled.repeated (.inl hd)
    rw [Bool.not_eq_true] at hd
    have hq : h.drain.session.q.count < muxEventQueueSoftCap := by
      rw [e1, e2]
      decide
    rw [move_feed hd, append_nil]
    set r := recvLoop h.drain.tail.length h.drain.session h.drain.tail with hr
    by_cases h0 : r.2 = 0
    · refine Settled.repeated ?_
      rcases recvLoop_stop hq (Nat.le_refl _) h0 with hdead | ⟨hs, hp⟩
      · exact .inl hdead
      · refine .inr ⟨?_, ?_⟩
        · dsimp only
          rw [hr, hs]
          exact hq
        · rw [h0]
          exact hp
    · by_cases hnil : h.drain.tail = []
      · rw [hr, hnil] at h0
        exact absurd rfl h0
      · refine repeated_settled ?_
        have := length_pos_of_ne_nil hnil
        dsimp only
        rw [length_drop]
        rw [e3] at this ⊢
        omega

theorem whole_settled (s x) : (whole s x).Settled := by
  refine repeated_settled ?_
  by_cases hd : s.dead = true
  · rw [move_feed_dead (h := start s) hd]
    exact Nat.lt_succ_self _
  · rw [Bool.not_eq_true] at hd
    rw [move_feed (h := start s) hd]
    dsimp only [start]
    rw [length_drop, nil_append]
    omega

theorem due_start {fs x} (h : Absorbs s x fs t) :
    (start s).Due x { t with q := .empty } t.q.toList (encodeAll fs).length :=
  ⟨fs, t, h, rfl, rfl, Nat.zero_add _⟩

/-- However some bytes are cut into chunks, and whenever events are taken, a host that has nothing
left to do has come to the same session, events and count as one that feeds the bytes in one piece
and drains the queue whenever it stops. The count is that of the frames processed before the session
dies or a frame is incomplete. -/
theorem chunking_invariant {h : Host} {ms : List Move} (hm : h = ms.foldl move (start s))
    (hs : h.Settled) :
    { h.session with q := .empty } = { (whole s (fed ms)).session with q := .empty }
      ∧ h.popped ++ h.session.q.toList
        = (whole s (fed ms)).popped ++ (whole s (fed ms)).session.q.toList
      ∧ h.consumed = (whole s (fed ms)).consumed
      ∧ ∃ fs t, Absorbs s (fed ms) fs t ∧ h.consumed = (encodeAll fs).length := by
  obtain ⟨fs, t, ht⟩ := Absorbs.total s (fed ms)
  have hd := due_start ht
  obtain ⟨h1, h2, h3⟩ := Due.settled (hm ▸ Due.run _ (y := []) (by rwa [List.append_nil])) hs
  obtain ⟨h4, h5, h6⟩ := Due.settled (.repeated (.feed (by rwa [List.append_nil])))
    (whole_settled s (fed ms))
  exact ⟨h1.trans h4.symm, h2.trans h5.symm, h3.trans h6.symm, fs, t, ht, h3⟩

/-- A greeting in two pieces, the first event taken, and half a frame. -/
def splitRun : List Move :=
  [.feed ((encode (helloFrame (initSession {} .dialer).toCore false)).take 7),
    .feed ((encode (helloFrame (initSession {} .dialer).toCore false)).drop 7), .pop,
    .feed [muxVersion, muxTCapacity]]

theorem chunking_invariant_splitRun :
    (splitRun.foldl move (start (initSession { maxStreams := 1 } .acceptor))).consumed
      = (whole (initSession { maxStreams := 1 } .acceptor) (fed splitRun)).consumed :=
  (chunking_invariant rfl (by decide +kernel)).2.2.1

section Full

/-- The session takes frames, it holds `k` events, and nothing is left over. -/
structure Listens (h : Host) (k : ℕ) : Prop where
  alive : h.session.dead = false
  greeted : h.session.peerHelloSeen = true
  queue : h.session.q.count = k
  tail : h.tail = []

theorem processFrame_capacity {w} (hs : s.peerHelloSeen = true) : processFrame s (capacityFrame w)
      = evqPush { s with got := s.got ++ [capacityFrame w] } (.capacity w) := by
  simp [processFrame, onCapacity, capacityFrame, hs, muxTCapacity, muxTData, muxTWindowUpdate,
    muxTPing, muxTGoaway, muxTHello, muxTHelloAck]

theorem capacityFrame_sized (w) : (capacityFrame w).Sized :=
  ⟨rfl, by simp [capacityFrame, muxMaxPayload]⟩

theorem Listens.feed {w} (hl : h.Listens n) (hn : n < muxEventQueueSoftCap) :
    (h.move (.feed (encode (capacityFrame w)))).Listens (n + 1) := by
  have hp := muxParse_encode (capacityFrame_sized w) []
  rw [append_nil] at hp
  have hf := processFrame_capacity (w := w) hl.greeted
  have hloop : recvLoop (encode (capacityFrame w)).length h.session (encode (capacityFrame w))
      = (processFrame h.session (capacityFrame w), (encode (capacityFrame w)).length) := by
    obtain ⟨k, hk⟩ := Nat.exists_eq_succ_of_ne_zero
      (length_pos_of_ne_nil (encode_ne_nil (capacityFrame w))).ne'
    rw [hk]
    unfold recvLoop
    rw [if_neg (encode_ne_nil _), if_neg (by rw [hl.queue]; omega), hp]
    dsimp only
    rw [if_neg (by rw [hf]; simp [hl.alive]), drop_length]
    cases k <;> simp [recvLoop, hk]
  rw [move_feed hl.alive, hl.tail, nil_append, hloop, hf]
  refine ⟨hl.alive, hl.greeted, ?_, drop_length⟩
  rw [← hl.queue]
  exact count_push _ _

theorem Listens.feeds {w} : ∀ {k : ℕ} {h : Host} {n : ℕ}, h.Listens n →
    n + k ≤ muxEventQueueSoftCap →
    ((replicate k (.feed (encode (capacityFrame w)))).foldl move h).Listens (n + k)
  | 0, _, _, hl, _ => hl
  | k + 1, h, n, hl, hk => by
    have h1 := Listens.feeds (w := w) (k := k) (hl.feed (w := w) (by omega)) (by omega)
    rwa [Nat.add_right_comm] at h1

theorem move_feed_full (hd : h.session.dead = false) (hq : muxEventQueueSoftCap ≤ h.session.q.count)
    (chunk) : h.move (.feed chunk) = { h with tail := h.tail ++ chunk } := by
  have hloop : ∀ k, recvLoop k h.session (h.tail ++ chunk) = (h.session, 0)
    | 0 => rfl
    | k + 1 => by
      unfold recvLoop
      rw [if_pos (show h.session.q.count ≥ muxEventQueueSoftCap from hq)]
      split_ifs <;> rfl
  rw [move_feed hd, hloop]
  rfl

/-- With a full queue the next frame stays, while draining the queue gets it processed. -/
theorem Listens.stuck {ms : List Move} {w : UInt32} (hl : (ms.foldl move (start s)).Listens n)
    (hn : muxEventQueueSoftCap ≤ n) :
    let ms' := ms ++ [.feed (encode (capacityFrame w))]
    let h := ms'.foldl move (start s)
    h.move (.feed []) = h ∧ h.consumed < (whole s (fed ms')).consumed := by
  intro ms' h
  have hh : h = { ms.foldl move (start s) with tail := encode (capacityFrame w) } := by
    have := move_feed_full hl.alive (hl.queue ▸ hn) (encode (capacityFrame w))
    rw [hl.tail] at this
    exact foldl_append.trans this
  have hd : h.session.dead = false := hh ▸ hl.alive
  constructor
  · rw [move_feed_full hd (hh ▸ hl.queue ▸ hn), append_nil]
  obtain ⟨fs, t, ht⟩ := Absorbs.total s (fed ms')
  have hdue := due_start ht
  obtain ⟨-, -, h3⟩ := Due.settled (.repeated (.feed (by rwa [append_nil])))
    (whole_settled s (fed ms'))
  obtain ⟨fs₁, t₁, h4, -, -, h5⟩ := Due.run ms' (y := []) (by rwa [append_nil])
  have hp := muxParse_encode (capacityFrame_sized w) []
  obtain ⟨fs₂, t₂, h6⟩ := Absorbs.total (processFrame h.session (capacityFrame w))
    ((encode (capacityFrame w) ++ []).drop (encode (capacityFrame w)).length)
  have hf : (processFrame h.session (capacityFrame w)).dead = false := by
    rw [processFrame_capacity (hh ▸ hl.greeted)]
    exact hd
  have htail : h.tail = encode (capacityFrame w) := hh ▸ rfl
  obtain ⟨rfl, -⟩ := (htail ▸ h4 : Absorbs _ (encode (capacityFrame w) ++ []) _ _).unique
    (.frame hd hp hf h6)
  have hpos := length_pos_of_ne_nil (encode_ne_nil (capacityFrame w))
  rw [encodeAll_cons, length_append] at h5
  change h.consumed + _ = _ at h5
  rw [whole, h3]
  omega

/-- The greeting, and then `k` loads reported. -/
def floodRun (k : ℕ) : List Move :=
  .feed (encode (helloFrame (initSession {} .dialer).toCore false))
    :: List.replicate k (.feed (encode (capacityFrame 0)))

theorem listens_floodRun {k : ℕ} (hk : 1 + k ≤ muxEventQueueSoftCap) :
    ((floodRun k).foldl move (start (initSession { maxStreams := 1 } .acceptor))).Listens
      (1 + k) := by
  have h1 : ((start (initSession { maxStreams := 1 } .acceptor)).move
      (.feed (encode (helloFrame (initSession {} .dialer).toCore false)))).Listens 1 :=
    ⟨by decide +kernel, by decide +kernel, by decide +kernel, by decide +kernel⟩
  rw [floodRun, foldl_cons]
  exact h1.feeds hk

/-- A host that takes no event is left with a frame that a host taking them gets processed, and
another call consumes nothing. -/
theorem full_queue_stops :
    let s := initSession { maxStreams := 1 } .acceptor
    let ms := floodRun 4095 ++ [.feed (encode (capacityFrame 0))]
    let h := ms.foldl move (start s)
    muxSessionNew { maxStreams := 1 } .acceptor = some s ∧ h.move (.feed []) = h
      ∧ h.consumed < (whole s (fed ms)).consumed :=
  ⟨rfl, (listens_floodRun (by decide)).stuck (by decide)⟩

end Full

end Host

end MuxProtocol
