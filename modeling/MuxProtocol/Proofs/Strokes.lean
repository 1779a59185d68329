import MuxProtocol.Proofs.Refine

/-!
# The strokes of a call

Whatever a function of the session does is a sequence of a few elementary effects: it edits fields
of the protocol, queues an event, raises FATAL or emits a frame. What none of them does, no call
does. A sequence is followed for a session in any state, or, with `l`, for one that is alive
before each stroke.
-/

namespace MuxProtocol

open LinearProbe Machine

variable {l : Prop} {s s' s'' : Session} {f : Frame}

/-- An answer to a PING. -/
def Answers (f : Frame) : Prop := f.type = muxTPing ∧ f.has muxFAck = true

/-- What an edit of the protocol's fields leaves alone. -/
def Core.log (c : Core) : Bool × Bool × List Frame × List Frame × Bool × List Event :=
  (c.dead, c.overflow, c.sent, c.got, c.localGoaway, c.queued)

/-- The elementary effects. -/
inductive Effect where
  | hear (f : Frame)
  | answer (f : Frame)
  | edit
  | drain
  | beat
  | push (ev : Event)
  | fatal (code : UInt32)
  | emit (f : Frame)

inductive Stroke : Session → Effect → Session → Prop
  | hear (s : Session) (f : Frame) : Stroke s (.hear f) (s.heard f)
  | answer (s : Session) {f : Frame} (h : Answers f) :
    Stroke s (.answer f) { s.heard f with pingOutstanding := false }
  | edit {s : Session} {c : Core} (h : c.log = s.log) : Stroke s .edit { s with toCore := c }
  | drain (s : Session) : Stroke s .drain { s with localGoaway := true }
  | beat (s : Session) (started outstanding : Bool) (due sent nonce : UInt64) :
    Stroke s .beat { s with
      timerStarted := started
      pingOutstanding := outstanding
      pingDueMs := due
      pingSentMs := sent
      pingNonce := nonce }
  | push (s : Session) {ev : Event} (h : ∀ code, ev ≠ .fatal code) :
    Stroke s (.push ev) (evqPush s ev)
  | fatal (s : Session) (code : UInt32) : Stroke s (.fatal code) (raiseFatal s code)
  | emit (s : Session) (f : Frame) :
    Stroke s (.emit f) (MuxProtocol.emit s f.type f.flags f.sid f.payload).1

/-- Effects `E`, one after the other. -/
def Strokes (l : Prop) (E : Effect → Prop) : Session → Session → Prop :=
  Reach Stroke fun s e => (l → s.dead = false) ∧ E e

/-- The effects of a call that does not read the clock or the peer's bytes. -/
def Effect.Own : Effect → Prop
  | .edit | .emit _ => True
  | _ => False

/-- The effects of `mux_goaway`. -/
def Effect.Parting : Effect → Prop
  | .drain | .emit _ => True
  | _ => False

/-- The effects of a frame. -/
def Effect.Heard : Effect → Prop
  | .beat | .drain => False
  | _ => True

/-- The effects of `mux_on_timer`. -/
def Effect.Timed : Effect → Prop
  | .beat | .fatal _ | .emit _ => True
  | _ => False

/-! ### Rules -/

section Rules

variable {E E' : Effect → Prop} {e : Effect}

namespace Strokes

theorem refl (s) : Strokes l E s s := .start

theorem one (hl : l → s.dead = false) (h : Stroke s e s') (hE : E e) : Strokes l E s s' :=
  Reach.single ⟨hl, hE⟩ h

theorem trans (h : Strokes l E s s') (h' : Strokes l E s' s'') : Strokes l E s s'' :=
  Reach.trans h h'

theorem edit (h : Strokes l E s s') (hl : l → s'.dead = false) (hE : E .edit) {c : Core}
    (hc : c.log = s'.log) : Strokes l E s { s' with toCore := c } :=
  h.trans (one hl (.edit hc) hE)

theorem push (h : Strokes l E s s') (hl : l → s'.dead = false) {ev} (hE : E (.push ev))
    (hev : ∀ code, ev ≠ .fatal code) : Strokes l E s (evqPush s' ev) :=
  h.trans (one hl (.push s' hev) hE)

theorem fatal (h : Strokes l E s s') (hl : l → s'.dead = false) {code} (hE : E (.fatal code)) :
    Strokes l E s (raiseFatal s' code) :=
  h.trans (one hl (.fatal s' code) hE)

theorem ite {p : Prop} [Decidable p] {s₁ s₂ : Session} (h₁ : p → Strokes l E s s₁)
    (h₂ : ¬ p → Strokes l E s s₂) : Strokes l E s (if p then s₁ else s₂) := by
  split
  · exact h₁ ‹_›
  · exact h₂ ‹_›

end Strokes

@[simp] theorem raiseFatal_overflow (s : Session) (code) :
    (raiseFatal s code).overflow = s.overflow := by
  unfold raiseFatal
  split <;> rfl

theorem emit_overflow (s : Session) (type flags sid payload) :
    (emit s type flags sid payload).1.dead = s.dead
        ∧ (emit s type flags sid payload).1.overflow = s.overflow
      ∨ (emit s type flags sid payload).1.dead = true
        ∧ (emit s type flags sid payload).1.overflow = true := by
  unfold emit
  split
  · refine .inr ⟨?_, raiseFatal_overflow _ _⟩
    unfold raiseFatal
    split
    · assumption
    · rfl
  · split <;> exact .inl ⟨rfl, rfl⟩

theorem Stroke.overflow (h : Stroke s e s') (hs : s.overflow = true) : s'.overflow = true := by
  cases h with
  | edit h => exact (congrArg (·.2.1) h).trans hs
  | fatal code => exact (raiseFatal_overflow s code).trans hs
  | emit f =>
    rcases emit_overflow s f.type f.flags f.sid f.payload with ⟨-, h⟩ | ⟨-, h⟩
    · exact h.trans hs
    · exact h
  | _ => exact hs

/-- Without FATAL of its own, a sequence kills the session only where the output buffer is full. -/
theorem Strokes.alive (h : Strokes l E s s') (hE : ∀ code, ¬ E (.fatal code))
    (ho : s'.overflow = false) (hd : s.dead = false) : s'.dead = false := by
  have hI := Reach.inv (I := fun s' => s'.overflow = true ∨ s'.dead = false) (.inr hd)
    (fun s e s' hs he h => ?_) h
  · exact hI.resolve_left (by rw [ho]; nofun)
  rcases hs with hs | hs
  · exact .inl (h.overflow hs)
  · cases h with
    | edit h => exact .inr ((congrArg (·.1) h).trans hs)
    | fatal code => exact absurd he.2 (hE code)
    | emit f =>
      rcases emit_overflow s f.type f.flags f.sid f.payload with ⟨h, -⟩ | ⟨-, h⟩
      · exact .inr (h.trans hs)
      · exact .inl h
    | _ => exact .inr hs

theorem Strokes.emit (h : Strokes l E s s') (hl : l → s'.dead = false) (hE : ∀ f, E (.emit f))
    {type flags sid payload} {r : Session × Except MuxErr Unit}
    (he : emit s' type flags sid payload = r) : Strokes l E s r.1 :=
  he ▸ h.trans (.one hl (.emit s' { type, flags, sid, payload }) (hE _))

theorem emit_dead_of_ok {type flags sid payload}
    (h : emit s type flags sid payload = (s', .ok ())) : s'.dead = s.dead := by
  unfold emit at h
  split at h
  · cases h
  · split at h
    · cases h
    · cases h
      rfl

theorem Strokes.remove (h : Strokes l E s s') (hl : l → s'.dead = false) (hE : E .edit) (i : ℕ) :
    Strokes l E s (stRemove s' i) := by
  unfold stRemove
  split
  · exact h
  · exact h.edit hl hE rfl

theorem Strokes.setBlocked (h : Strokes l E s s') (hl : l → s'.dead = false) (hE : E .edit) (i : ℕ)
    (b) : Strokes l E s (setBlocked s' i b) := by
  unfold MuxProtocol.setBlocked
  split
  · exact h
  · split_ifs
    · exact h.edit hl hE rfl
    · exact h.edit hl hE rfl
    · exact h

@[simp] theorem setBlocked_log (s : Session) (i : ℕ) (b) : (setBlocked s i b).log = s.log := by
  unfold setBlocked
  split
  · rfl
  · split_ifs <;> rfl

theorem noteShort_log (s : Session) (i : ℕ) (b) : (noteShort s i b).log = s.log := by
  unfold noteShort
  split <;> rfl

@[simp] theorem setBlocked_dead (s : Session) (i : ℕ) (b) : (setBlocked s i b).dead = s.dead :=
  congrArg (·.1) (setBlocked_log s i b)

@[simp] theorem setBlocked_queued (s : Session) (i : ℕ) (b) :
    (setBlocked s i b).queued = s.queued :=
  congrArg (·.2.2.2.2.2) (setBlocked_log s i b)

end Rules

/-! ### The handlers of `mux_recv` -/

section Heard

open Effect

theorem sendHello_strokes (hl : l → s.dead = false) (ack) :
    Strokes l Heard s (sendHello s ack).1 := by
  unfold sendHello
  split
  · exact .refl s
  · rename_i blob off _
    split
    · exact (Strokes.refl s).emit hl (fun _ => trivial) ‹_›
    · rename_i heq
      exact ((Strokes.refl s).emit hl (fun _ => trivial) heq).edit
        (fun h => (emit_dead_of_ok heq).trans (hl h)) trivial (by rfl)

theorem onHello_strokes (hl : l → s.dead = false) (f ack) :
    Strokes l Heard s (onHello s f ack) := by
  have hlog : ∀ {c e b}, helloLoop (f.payload.length + 1) s.toCore {} f.view 0 = (c, e, b) →
      c.log = s.log := by
    intro c e b h
    obtain ⟨pm, pi, sw, rfl, -⟩ := helloLoop_eq h
    rfl
  unfold onHello
  split_ifs
  · exact (Strokes.refl s).fatal hl trivial
  · exact (Strokes.refl s).fatal hl trivial
  split
  · rename_i c e heq
    have hlive : l → c.dead = false := fun h => (congrArg (·.1) (hlog heq)).trans (hl h)
    exact ((Strokes.refl s).edit hl trivial (hlog heq)).fatal hlive trivial
  · rename_i c e heq
    have hlive : l → c.dead = false := fun h => (congrArg (·.1) (hlog heq)).trans (hl h)
    have hc : ({ c with peerHelloSeen := true } : Core).log = s.log := (hlog heq :)
    have h := ((Strokes.refl s).edit (E := Heard) hl trivial hc).push hlive trivial
      (show ∀ c, e.event ≠ .fatal c by nofun)
    dsimp only
    split
    · exact h.trans (sendHello_strokes hlive true)
    · exact h

/-- A SYN: the stream is entered and announced, or refused. -/
theorem onSyn_strokes (hl : l → s.dead = false) (f)
    (ho : l → s.maxStreams.toNat ≤ s.tab.count ∨ s.localGoaway = true →
      s.HasRoom (muxHeaderSize + 4)) : Strokes l Heard s (onSyn s f) := by
  have hfatal : ∀ code, Strokes l Heard s (raiseFatal s code) := fun _ =>
    (Strokes.refl s).fatal hl trivial
  unfold onSyn
  refine .ite (fun _ => hfatal _) fun _ => .ite (fun _ => hfatal _) fun _ => .ite
    (fun _ => hfatal _) fun _ => .ite (fun _ => hfatal _) fun _ => .ite (fun _ => hfatal _) fun _ =>
    .ite (fun _ => hfatal _) fun _ => .ite (fun hfull => ?_) fun _ => ?_
  · have hroom : l → s.HasRoom (muxHeaderSize + (bePut32 muxCodeRefused).length + 0) := fun h =>
      ho h hfull
    exact ((Strokes.refl s).emit hl (fun _ => trivial) rfl).edit
      (fun h => (hroom h).emit.1.trans (hl h)) trivial (by rfl)
  · rcases stInsert s.tab (freshStream s.toCore f.sid) with ⟨tab, _ | i⟩
    · exact ((Strokes.refl s).edit (c := { s.toCore with tab }) hl trivial
        (by rfl)).fatal hl trivial
    · have hins := (Strokes.refl s).edit (E := Heard)
        (c := { s.toCore with tab, maxRemoteSid := f.sid }) hl trivial (by rfl)
      have h : Strokes l Heard s
          (evqPush { s with tab, maxRemoteSid := f.sid } (.opened f.sid f.payload)) :=
        hins.push hl trivial (by nofun)
      have hlive : l → (evqPush { s with tab, maxRemoteSid := f.sid }
          (.opened f.sid f.payload)).dead = false := hl
      dsimp only
      split
      · exact (h.push hlive trivial (by nofun)).remove hlive trivial i
      · split
        · refine .push (.edit h hlive trivial ?_) ?_ trivial (by nofun)
          · rfl
          · exact hlive
        · exact h

theorem abortStream_strokes (hl : l → s.dead = false) (sid) (i : ℕ) (code)
    (ho : l → s.HasRoom (muxHeaderSize + 4)) : Strokes l Heard s (abortStream s sid i code) := by
  have hnote := (Strokes.refl s).edit (E := Heard)
    (c := { s.toCore with aborts := s.aborts ++ [code] }) hl trivial (by rfl)
  have hemit : Strokes l Heard s (emit { s with aborts := s.aborts ++ [code] } muxTData muxFRst sid
      (bePut32 code)).1 := hnote.emit hl (fun _ => trivial) rfl
  have hroom : l → Session.HasRoom { s with aborts := s.aborts ++ [code] }
      (muxHeaderSize + (bePut32 code).length + 0) := ho
  have hlive : l → (emit { s with aborts := s.aborts ++ [code] } muxTData muxFRst sid
      (bePut32 code)).1.dead = false := fun h => (hroom h).emit.1.trans (hl h)
  have hreset := hemit.push hlive trivial (show ∀ c, Event.reset sid 0 ≠ .fatal c by nofun)
  exact hreset.remove hlive trivial i

/-- DATA on a live stream: delivered, ended or aborted. -/
theorem onLive_strokes (hl : l → s.dead = false) (f) (i : ℕ) (st)
    (ho : l → 0 < f.payload.length → st.life = .hclRemote ∨ st.recvWin < f.payload.length →
      s.HasRoom (muxHeaderSize + 4)) : Strokes l Heard s (onLive s f i st) := by
  unfold onLive
  split
  · exact ((Strokes.refl s).push hl trivial (by nofun)).remove hl trivial i
  split
  · rename_i hlate
    exact abortStream_strokes hl _ _ _ fun h => ho h hlate.1 (.inl hlate.2)
  split
  · exact (Strokes.refl s).fatal hl trivial
  split
  · rename_i hover
    exact abortStream_strokes hl _ _ _ fun h => ho h hover.1 (.inr hover.2)
  · have hdata : Strokes l Heard s (if f.payload.length > 0 then deliver s f i else s)
        ∧ (if f.payload.length > 0 then deliver s f i else s).dead = s.dead := by
      split
      · refine ⟨.push (.edit (.refl s) hl trivial ?_) ?_ trivial (by nofun), rfl⟩
        · rfl
        · exact hl
      · exact ⟨.refl s, rfl⟩
    generalize (if f.payload.length > 0 then deliver s f i else s) = s₁ at hdata
    obtain ⟨hdata, hdead⟩ := hdata
    have hlive : l → s₁.dead = false := fun h => hdead.trans (hl h)
    dsimp only
    split
    · have hclosed := hdata.push hlive trivial (show ∀ c, Event.closed f.sid ≠ .fatal c by nofun)
      unfold onFin
      split
      · exact hclosed.remove hlive trivial i
      · exact hclosed.edit hlive trivial (by rfl)
    · exact hdata

/-- `on_data` answers the frame with RST: it opens a stream too many, or its payload is not for the
stream any more. -/
def Repels (s : Session) (f : Frame) : Prop :=
  if f.has muxFSyn then s.maxStreams.toNat ≤ s.tab.count ∨ s.localGoaway = true
  else ∃ q ∈ stFind s.tab f.sid, 0 < f.payload.length
    ∧ (q.2.life = .hclRemote ∨ q.2.recvWin < f.payload.length)

instance Repels.decidable (s : Session) (f : Frame) : Decidable (Repels s f) :=
  inferInstanceAs (Decidable (if f.has muxFSyn then _ ∨ s.localGoaway = true
    else ∃ q ∈ stFind s.tab f.sid, _))

theorem onData_strokes (hl : l → s.dead = false) (f)
    (ho : l → Repels s f → s.HasRoom (muxHeaderSize + 4)) : Strokes l Heard s (onData s f) := by
  unfold onData
  unfold Repels at ho
  split
  · rename_i hsyn
    rw [if_pos hsyn] at ho
    exact onSyn_strokes hl f ho
  rename_i hsyn
  rw [if_neg hsyn] at ho
  split
  · exact (Strokes.refl s).fatal hl trivial
  split
  · exact .refl s
  · rename_i i st hf
    exact onLive_strokes hl f i st fun h hp hlate => ho h ⟨_, hf, hp, hlate⟩

theorem sweep_strokes (hl : l → s.dead = false) : Strokes l Heard s (sweep s) := by
  unfold sweep
  generalize List.range s.tab.cap = is
  induction is generalizing s with
  | nil => exact .refl s
  | cons i is ih =>
    have hwake : Strokes l Heard s (wakeSlot s i) ∧ (wakeSlot s i).dead = s.dead := by
      unfold wakeSlot
      split
      · exact ⟨.refl s, rfl⟩
      · split
        · have hlive : l → (setBlocked s i false).dead = false := by simpa using hl
          exact ⟨((Strokes.refl s).setBlocked hl trivial i false).push hlive trivial (by nofun),
            setBlocked_dead s i false⟩
        · exact ⟨.refl s, rfl⟩
    exact hwake.1.trans (ih fun h => hwake.2.trans (hl h))

theorem onWindowUpdate_strokes (hl : l → s.dead = false) (f) :
    Strokes l Heard s (onWindowUpdate s f) := by
  unfold onWindowUpdate
  split
  · exact (Strokes.refl s).fatal hl trivial
  dsimp only
  split
  · generalize s.sessSendWin + ((beLoad32 f.payload).toNat : ℤ) = w
    have h := (Strokes.refl s).edit (E := Heard) (c := { s.toCore with sessSendWin := w }) hl
      trivial (by rfl)
    split
    · exact h.fatal hl trivial
    · split
      · exact h.trans (sweep_strokes hl)
      · exact h
  split
  · exact .refl s
  · rename_i i st _
    generalize s.tab.modify i _ = tab
    have h := (Strokes.refl s).edit (E := Heard) (c := { s.toCore with tab }) hl trivial (by rfl)
    split
    · exact h.fatal hl trivial
    · split
      · refine (h.setBlocked hl trivial i false).push ?_ trivial (by nofun)
        simpa using hl
      · exact h

/-- Of the frames, only DATA goes on after a frame of its own could not be emitted. -/
theorem processFrame_strokes (hl : l → s.dead = false) (f : Frame)
    (ho : l → f.type = muxTData → Repels s f → s.HasRoom (muxHeaderSize + 4)) :
    Strokes l Heard s (processFrame s f) := by
  have hh : Strokes l Heard s (s.heard f) := .one hl (.hear s f) trivial
  have hfatal : Strokes l Heard s (raiseFatal (s.heard f) muxCodeProtocol) := hh.fatal hl trivial
  have hl' : l → (s.heard f).dead = false := hl
  change Strokes l Heard s (ite _ _ _)
  split
  · exact hfatal
  split
  · rename_i ht
    exact hh.trans (onData_strokes hl' f fun h => ho h ht)
  split
  · exact hh.trans (onWindowUpdate_strokes hl' f)
  split
  · rename_i ht
    unfold onPing
    split
    · exact hfatal
    split
    · exact .one hl (.answer s ⟨ht, ‹_›⟩) trivial
    · exact hh.emit hl' (fun _ => trivial) rfl
  split
  · unfold onGoaway
    split_ifs
    · exact hfatal
    · exact hfatal
    · exact hh.push hl' trivial (by nofun)
  split
  · exact hh.trans (onHello_strokes hl' f false)
  split
  · exact hh.trans (onHello_strokes hl' f true)
  split
  · unfold onCapacity
    split_ifs
    · exact hfatal
    · exact hfatal
    · exact hh.push hl' trivial (by nofun)
  · exact hfatal

/-- The output buffer has room for the RST that answers a DATA frame. -/
def Takes (s : Session) (f : Frame) : Prop :=
  f.type = muxTData → Repels s f → s.HasRoom (muxHeaderSize + 4)

instance Takes.decidable (s : Session) (f : Frame) : Decidable (Takes s f) :=
  inferInstanceAs (Decidable (_ → _ → _))

/-- The loop of `mux_recv`, frame by frame. -/
theorem recvLoop_strokes : ∀ (n : ℕ) {s : Session} (buf : Bytes), (l → s.dead = false) →
    (l → EachFrame Takes True n s buf) →
    Strokes l Heard s (recvLoop n s buf).1
  | 0, s, _, _, _ => .refl s
  | n + 1, s, buf, hl, ho => by
    unfold recvLoop
    split
    · exact .refl s
    split
    · exact .refl s
    split
    · exact .refl s
    · exact (Strokes.refl s).fatal hl trivial
    · rename_i hb hq _ f used hp
      have ho' : l → Takes s f ∧ ((processFrame s f).dead = false →
          EachFrame Takes True n (processFrame s f) (buf.drop used)) := by
        intro h
        have := ho h
        unfold EachFrame at this
        rwa [if_neg (by simp [hb, hq]), hp] at this
      have hf := processFrame_strokes hl f fun h => (ho' h).1
      dsimp only
      split
      · exact hf
      · rename_i hlive
        rw [Bool.not_eq_true] at hlive
        exact hf.trans (recvLoop_strokes n _ (fun _ => hlive) fun h => (ho' h).2 hlive)

end Heard

/-! ### The other calls -/

section Own

open Effect

theorem muxOpen_strokes (hl : l → s.dead = false) (m)
    (ho : l → s.HasRoom (muxHeaderSize + m.length)) : Strokes l Own s (muxOpen s m).1 := by
  unfold muxOpen
  iterate 5 (split; · exact .refl s)
  dsimp only
  split
  · exact .refl s
  have hnext := (Strokes.refl s).edit (E := Own)
    (c := { s.toCore with nextLocalSid := s.nextLocalSid + 2 }) hl trivial rfl
  split
  · exact .edit hnext hl trivial (by rfl)
  · rename_i tab i _
    have hins : Strokes l Own s { s with nextLocalSid := s.nextLocalSid + 2, tab } :=
      .edit hnext hl trivial (by rfl)
    have hroom : l → Session.HasRoom { s with nextLocalSid := s.nextLocalSid + 2, tab }
        (muxHeaderSize + m.length + 0) := ho
    rcases he : emit { s with nextLocalSid := s.nextLocalSid + 2, tab } muxTData muxFSyn
      s.nextLocalSid m with ⟨s₁, e | ⟨⟩⟩
    · have h := hins.emit hl (fun _ => trivial) he
      exact h.remove (fun hx => he ▸ (hroom hx).emit.1.trans (hl hx)) trivial i
    · exact hins.emit hl (fun _ => trivial) he

theorem writeLoop_strokes : ∀ (n : ℕ) {s : Session} (sid : UInt32) (p : Bytes),
    (l → s.dead = false) → Strokes l Own s (writeLoop n s sid p).1
  | 0, s, _, _, _ => .refl s
  | n + 1, s, sid, p, hl => by
    unfold writeLoop
    split
    · exact .refl s
    rcases he : emit s muxTData 0 sid (p.take muxMaxDataFrame) with ⟨s₁, e | ⟨⟩⟩
    · exact (Strokes.refl s).emit hl (fun _ => trivial) he
    · exact ((Strokes.refl s).emit hl (fun _ => trivial) he).trans
        (writeLoop_strokes n sid _ fun h => (emit_dead_of_ok he).trans (hl h))

/-- With room for their frames all the bytes are placed. -/
theorem writeLoop_room : ∀ (n : ℕ) {s : Session} (sid : UInt32) (p : Bytes),
    s.HasRoom (framed p.length) → (writeLoop n s sid p).1.dead = s.dead
      ∧ (p.length ≤ n → (writeLoop n s sid p).2 = p.length)
  | 0, _, _, _, _ => ⟨rfl, fun hn => (Nat.le_zero.1 hn).symm⟩
  | n + 1, s, sid, p, h => by
    unfold writeLoop
    split
    · rename_i hp
      exact ⟨rfl, fun _ => by rw [hp]; rfl⟩
    rename_i hp
    have hpos := List.length_pos_iff.2 hp
    -- the first frame, and the rest
    have hsplit : framed p.length = muxHeaderSize + (p.take muxMaxDataFrame).length
        + framed (p.drop muxMaxDataFrame).length := by
      simp only [framed, muxHeaderSize, muxMaxDataFrame, List.length_take, List.length_drop]
      omega
    rw [hsplit] at h
    have hemit : (emit s muxTData 0 sid (p.take muxMaxDataFrame)).1.dead = s.dead ∧
        (emit s muxTData 0 sid (p.take muxMaxDataFrame)).1.HasRoom
          (framed (p.drop muxMaxDataFrame).length) := h.emit
    have hok : (emit s muxTData 0 sid (p.take muxMaxDataFrame)).2 = .ok () :=
      emit_of_reserve ((List.length_take_le _ _).trans (by decide)) (h.mono (Nat.le_add_right _ _))
    rcases he : emit s muxTData 0 sid (p.take muxMaxDataFrame) with ⟨s₁, e | ⟨⟩⟩
    · rw [he] at hok
      cases hok
    · rw [he] at hemit
      obtain ⟨h1, h2⟩ := writeLoop_room n sid _ hemit.2
      refine ⟨h1.trans hemit.1, fun hn => ?_⟩
      dsimp only
      rw [h2 (by rw [List.length_drop]; simp only [muxMaxDataFrame]; omega), List.length_drop,
        List.length_take]
      omega

/-- The end of `mux_write`: the stream may be blocked, and a short write is noted. -/
theorem Strokes.windUp (h : Strokes l Own s s') (hl : l → s'.dead = false) (i : ℕ) {p : Prop}
    [Decidable p] (b) :
    Strokes l Own s (noteShort (if p then MuxProtocol.setBlocked s' i true else s') i b) := by
  have hblock : Strokes l Own s (if p then MuxProtocol.setBlocked s' i true else s')
      ∧ (if p then MuxProtocol.setBlocked s' i true else s').dead = s'.dead := by
    split
    · exact ⟨h.setBlocked hl trivial i true, setBlocked_dead s' i true⟩
    · exact ⟨h, rfl⟩
  unfold noteShort
  split
  · exact hblock.1.edit (fun hx => hblock.2.trans (hl hx)) trivial rfl
  · exact hblock.1

theorem muxWrite_strokes (hl : l → s.dead = false) (sid p)
    (ho : l → ∀ q ∈ stFind s.tab sid, s.HasRoom (framed (placeable s q.2 p))) :
    Strokes l Own s (muxWrite s sid p).1 := by
  unfold muxWrite
  split
  · exact .refl s
  split
  · exact .refl s
  rename_i i st hf
  split
  · exact .refl s
  dsimp only
  split
  · exact (Strokes.refl s).windUp (p := True) hl i _
  · rename_i hwin
    have hlen : (p.take (placeable s st p)).length = placeable s st p := by
      rw [List.length_take, placeable]
      split <;> omega
    have hroom : l → s.HasRoom (framed (p.take (placeable s st p)).length) := fun hx => by
      rw [hlen]
      exact ho hx (i, st) hf
    generalize hw : (if (p.length : ℤ) > min st.sendWin s.sessSendWin
      then (min st.sendWin s.sessSendWin).toNat else p.length) = want
    rw [show placeable s st p = want from hw] at hroom
    have h := writeLoop_strokes want sid (p.take want) hl
    have hlive := fun hx => (writeLoop_room want sid (p.take want) (hroom hx)).1.trans (hl hx)
    generalize writeLoop want s sid (p.take want) = r at h hlive ⊢
    obtain ⟨s₁, sent⟩ := r
    dsimp only at h hlive ⊢
    refine .windUp (.edit h hlive trivial ?_) ?_ i _
    · rfl
    · exact hlive

theorem muxClose_strokes (hl : l → s.dead = false) (sid) : Strokes l Own s (muxClose s sid).1 := by
  unfold muxClose
  split
  · exact .refl s
  split
  · exact .refl s
  split
  · exact .refl s
  rcases he : emit s muxTData muxFFin sid [] with ⟨s₁, e | ⟨⟩⟩
  · have h : Strokes l Own s s₁ := (Strokes.refl s).emit hl (fun _ => trivial) he
    exact h
  · have h : Strokes l Own s s₁ := (Strokes.refl s).emit hl (fun _ => trivial) he
    have hlive : l → s₁.dead = false := fun hx => (emit_dead_of_ok he).trans (hl hx)
    dsimp only
    split
    · exact h.remove hlive trivial _
    · exact h.edit hlive trivial (by rfl)

theorem muxReset_strokes (hl : l → s.dead = false) (sid code)
    (ho : l → s.HasRoom (muxHeaderSize + 4)) : Strokes l Own s (muxReset s sid code).1 := by
  unfold muxReset
  split
  · exact .refl s
  split
  · exact .refl s
  · have hroom : l → s.HasRoom (muxHeaderSize + (bePut32 code).length + 0) := ho
    have h : Strokes l Own s (emit s muxTData muxFRst sid (bePut32 code)).1 :=
      (Strokes.refl s).emit hl (fun _ => trivial) rfl
    exact h.remove (fun hx => (hroom hx).emit.1.trans (hl hx)) trivial _

theorem creditEmit_strokes : ∀ (n : ℕ) {s : Session} (sid : UInt32) (win pending : ℤ),
    (l → s.dead = false) → Strokes l Own s (creditEmit n s sid win pending).1
  | 0, s, _, _, _, _ => .refl s
  | n + 1, s, sid, win, pending, hl => by
    unfold creditEmit
    split
    · dsimp only
      generalize (if pending > 0xFFFFFFFF then (0xFFFFFFFF : UInt32)
        else .ofNat pending.toNat) = chunk
      rcases he : emit s muxTWindowUpdate 0 sid (bePut32 chunk) with ⟨s₁, e | ⟨⟩⟩
      · exact (Strokes.refl s).emit hl (fun _ => trivial) he
      · exact ((Strokes.refl s).emit hl (fun _ => trivial) he).trans
          (creditEmit_strokes n sid _ _ fun h => (emit_dead_of_ok he).trans (hl h))
    · exact .refl s

theorem creditEmit_room {m : ℕ} : ∀ (n : ℕ) {s : Session} (sid : UInt32) (win pending : ℤ),
    s.HasRoom ((muxHeaderSize + 4) * n + m) →
      (creditEmit n s sid win pending).1.dead = s.dead
        ∧ (creditEmit n s sid win pending).1.HasRoom m
  | 0, _, _, _, _, h => ⟨rfl, by simpa [creditEmit] using h⟩
  | n + 1, s, sid, win, pending, h => by
    unfold creditEmit
    split
    · dsimp only
      generalize (if pending > 0xFFFFFFFF then (0xFFFFFFFF : UInt32)
        else .ofNat pending.toNat) = chunk
      have hroom : s.HasRoom (muxHeaderSize + (bePut32 chunk).length
          + ((muxHeaderSize + 4) * n + m)) := h.mono (by rw [length_bePut32, Nat.mul_succ]; omega)
      have hemit : (emit s muxTWindowUpdate 0 sid (bePut32 chunk)).1.dead = s.dead ∧
          (emit s muxTWindowUpdate 0 sid (bePut32 chunk)).1.HasRoom ((muxHeaderSize + 4) * n + m) :=
        hroom.emit
      rcases he : emit s muxTWindowUpdate 0 sid (bePut32 chunk) with ⟨s₁, e | ⟨⟩⟩
      · rw [he] at hemit
        exact ⟨hemit.1, hemit.2.mono (Nat.le_add_left ..)⟩
      · rw [he] at hemit
        obtain ⟨h1, h2⟩ := creditEmit_room n sid (win + chunk.toNat) (pending - chunk.toNat) hemit.2
        exact ⟨h1.trans hemit.1, h2⟩
    · exact ⟨rfl, h.mono (Nat.le_add_left ..)⟩

theorem creditSession_strokes (hl : l → s.dead = false) {m : ℕ}
    (ho : l → s.HasRoom ((muxHeaderSize + 4) * creditRounds s.sessRecvPending + m)) :
    Strokes l Own s (creditSession s)
      ∧ (l → (creditSession s).dead = false ∧ (creditSession s).HasRoom m) := by
  have hsame : Strokes l Own s s ∧ (l → s.dead = false ∧ s.HasRoom m) :=
    ⟨.refl s, fun hx => ⟨hl hx, (ho hx).mono (Nat.le_add_left ..)⟩⟩
  unfold creditSession
  split
  · exact hsame
  split
  · exact hsame
  have h := creditEmit_strokes (creditRounds s.sessRecvPending) muxSidControl s.sessRecvWin
    s.sessRecvPending hl
  have hroom := fun hx => creditEmit_room (creditRounds s.sessRecvPending) muxSidControl
    s.sessRecvWin s.sessRecvPending (ho hx)
  have hlive := fun hx => (hroom hx).1.trans (hl hx)
  exact ⟨h.edit hlive trivial (by rfl), fun hx => ⟨hlive hx, (hroom hx).2⟩⟩

theorem creditStream_strokes (hl : l → s.dead = false) (i : ℕ)
    (ho : l → ∀ st, s.tab.get i = some st →
      s.HasRoom ((muxHeaderSize + 4) * creditRounds st.recvPending)) :
    Strokes l Own s (creditStream s i) := by
  unfold creditStream
  split
  · exact .refl s
  rename_i st hg
  split
  · exact .refl s
  split
  · exact .refl s
  have h := creditEmit_strokes (creditRounds st.recvPending) st.sid st.recvWin st.recvPending hl
  exact h.edit (fun hx => (creditEmit_room (m := 0) _ st.sid st.recvWin st.recvPending
    (ho hx st hg)).1.trans (hl hx)) trivial (by rfl)

theorem emit_tab (s : Session) (type flags sid payload) :
    (emit s type flags sid payload).1.tab = s.tab
      ∧ (emit s type flags sid payload).1.consumed = s.consumed := by
  unfold emit raiseFatal
  split
  · split <;> exact ⟨rfl, rfl⟩
  · split <;> exact ⟨rfl, rfl⟩

theorem creditEmit_tab : ∀ (n : ℕ) (s : Session) (sid : UInt32) (win pending : ℤ),
    (creditEmit n s sid win pending).1.tab = s.tab
      ∧ (creditEmit n s sid win pending).1.consumed = s.consumed
  | 0, _, _, _, _ => ⟨rfl, rfl⟩
  | n + 1, s, sid, win, pending => by
    unfold creditEmit
    by_cases hp : 0 < pending
    · rw [if_pos hp]
      dsimp only
      generalize (if pending > 0xFFFFFFFF then (0xFFFFFFFF : UInt32)
        else .ofNat pending.toNat) = chunk
      have h := emit_tab s muxTWindowUpdate 0 sid (bePut32 chunk)
      rcases he : emit s muxTWindowUpdate 0 sid (bePut32 chunk) with ⟨s₁, e | ⟨⟩⟩
      · rw [he] at h
        exact h
      · rw [he] at h
        obtain ⟨h1, h2⟩ := creditEmit_tab n s₁ sid (win + chunk.toNat) (pending - chunk.toNat)
        exact ⟨h1.trans h.1, h2.trans h.2⟩
    · rw [if_neg hp]
      exact ⟨rfl, rfl⟩

theorem creditSession_tab (s : Session) :
    (creditSession s).tab = s.tab ∧ (creditSession s).consumed = s.consumed := by
  unfold creditSession
  split_ifs
  · exact ⟨rfl, rfl⟩
  · exact ⟨rfl, rfl⟩
  · exact creditEmit_tab _ _ _ _ _

/-- The bytes of the WINDOW_UPDATE frames that `mux_consume` may emit. -/
def Session.creditBytes (s : Session) (sid : UInt32) (n : ℕ) : ℕ :=
  (muxHeaderSize + 4) * creditRounds (s.sessRecvPending + toInt64 n)
    + ((stFind s.tab sid).elim 0 fun q =>
      (muxHeaderSize + 4) * creditRounds (q.2.recvPending + toInt64 n))

/-- The credits of `mux_consume`. -/
theorem muxConsume_strokes (hl : l → s.dead = false) (sid) (n : ℕ)
    (ho : l → s.HasRoom (s.creditBytes sid n)) : Strokes l Own s (muxConsume s sid n).1 := by
  unfold muxConsume
  split
  · exact .refl s
  split
  · exact .refl s
  have hnote := (Strokes.refl s).edit (E := Own)
    (c := { s.toCore with
      sessRecvPending := s.sessRecvPending + toInt64 n
      consumed := s.consumed + n }) hl trivial rfl
  have hsess := @creditSession_strokes l { s with
    sessRecvPending := s.sessRecvPending + toInt64 n
    consumed := s.consumed + n } hl _ ho
  have htab : (creditSession { s with
    sessRecvPending := s.sessRecvPending + toInt64 n
    consumed := s.consumed + n }).tab = s.tab := (creditSession_tab _).1
  dsimp only
  generalize creditSession { s with
    sessRecvPending := s.sessRecvPending + toInt64 n
    consumed := s.consumed + n } = s₁ at hsess htab ⊢
  obtain ⟨hsteps, hlive⟩ := hsess
  have h := hnote.trans hsteps
  rw [htab]
  split
  · exact h
  · rename_i i st hf
    have hpend := h.edit (c := { s₁.toCore with
      tab := s.tab.modify i fun st => { st with
        recvPending := st.recvPending + toInt64 n, consumed := st.consumed + n } })
      (fun hx => (hlive hx).1) trivial (by rfl)
    refine hpend.trans (creditStream_strokes (s := { s₁ with
      tab := s.tab.modify i fun st => { st with
        recvPending := st.recvPending + toInt64 n, consumed := st.consumed + n } })
      (fun hx => (hlive hx).1) i fun hx st' hg => ?_)
    have hst : s.tab.get i = some st := stFind_get hf
    cases (Table.get_modify_self hst _).symm.trans hg
    have hroom := (hlive hx).2
    rw [hf] at hroom
    exact hroom

theorem muxSendCapacity_strokes (hl : l → s.dead = false) (weight) :
    Strokes l Own s (muxSendCapacity s weight).1 := by
  unfold muxSendCapacity
  split
  · exact .refl s
  · exact (Strokes.refl s).emit hl (fun _ => trivial) rfl

theorem muxGoaway_strokes (hl : l → s.dead = false) (reason) :
    Strokes l Parting s (muxGoaway s reason).1 := by
  unfold muxGoaway
  split
  · exact .refl s
  · have h : Strokes l Parting s { s with localGoaway := true } := .one hl (.drain s) trivial
    exact h.emit hl (fun _ => trivial) rfl

end Own

theorem muxOnTimer_strokes (hl : l → s.dead = false) (nowMs) :
    Strokes l Effect.Timed s (muxOnTimer s nowMs).1 := by
  unfold muxOnTimer
  split
  · exact .refl s
  split
  · exact .one hl (.beat s _ _ _ _ _) trivial
  split
  · exact (Strokes.refl s).fatal hl trivial
  dsimp only
  split
  · rcases he : emit s muxTPing 0 muxSidControl
      (bePut32 (s.pingNonce >>> 32).toUInt32 ++ bePut32 s.pingNonce.toUInt32) with ⟨s₁, e | ⟨⟩⟩
    · exact (Strokes.refl s).emit hl (fun _ => trivial) he
    · have h : Strokes l Effect.Timed s s₁ := (Strokes.refl s).emit hl (fun _ => trivial) he
      exact h.trans (.one (fun hx => (emit_dead_of_ok he).trans (hl hx)) (.beat s₁ _ _ _ _ _)
        trivial)
  · exact .refl s

/-! ### Calls -/

section Call

variable {a : Call}

/-- The effects of a call. -/
def Call.effects : Call → Effect → Prop
  | .recv _ => Effect.Heard
  | .onTimer _ => Effect.Timed
  | .goaway _ => Effect.Parting
  | _ => Effect.Own

/-- A call that leaves both buffers to the rules of the session. -/
def Call.Inner : Call → Prop
  | .sendAdvance _ | .nextEvent => False
  | _ => True

/-- The output buffer has room for the frames that the call emits before it goes on. -/
def Session.Fits (s : Session) : Call → Prop
  | .recv buf => EachFrame Takes True buf.length s buf
  | .open m => s.HasRoom (muxHeaderSize + m.length)
  | .write sid p => ∀ q ∈ stFind s.tab sid, s.HasRoom (framed (placeable s q.2 p))
  | .reset _ _ => s.HasRoom (muxHeaderSize + 4)
  | .consume sid n => s.HasRoom (s.creditBytes sid n)
  | _ => True

instance Session.Fits.decidable (s : Session) : ∀ a, Decidable (s.Fits a)
  | .recv buf => EachFrame.decidable _ _ buf.length s buf
  | .open m => inferInstanceAs (Decidable (s.HasRoom (muxHeaderSize + m.length)))
  | .write sid _ => inferInstanceAs (Decidable (∀ q ∈ stFind s.tab sid, _))
  | .reset _ _ => inferInstanceAs (Decidable (s.HasRoom (muxHeaderSize + 4)))
  | .consume sid n => inferInstanceAs (Decidable (s.HasRoom (s.creditBytes sid n)))
  | .close _ | .sendCapacity _ | .goaway _ | .onTimer _ | .sendAdvance _ | .nextEvent =>
    inferInstanceAs (Decidable True)

theorem Session.call_of_dead (hd : s.dead = true) (ha : a.Inner) : s.call a = s := by
  cases a with
  | sendAdvance => exact ha.elim
  | nextEvent => exact ha.elim
  | _ =>
    simp [Session.call, muxRecv, muxOpen, muxWrite, muxClose, muxReset, muxConsume,
      muxSendCapacity, muxGoaway, muxOnTimer, hd]

/-- What each call does to the session, effect by effect. -/
theorem Session.call_strokes (hl : l → s.dead = false) (hf : l → s.Fits a) (ha : a.Inner) :
    Strokes l a.effects s (s.call a) := by
  cases a with
  | recv buf =>
    change Strokes l _ s (muxRecv s buf).1
    unfold muxRecv
    split
    · exact .refl s
    · exact recvLoop_strokes _ buf hl hf
  | «open» m => exact muxOpen_strokes hl m hf
  | write sid p => exact muxWrite_strokes hl sid p hf
  | close sid => exact muxClose_strokes hl sid
  | reset sid code => exact muxReset_strokes hl sid code hf
  | consume sid n => exact muxConsume_strokes hl sid n hf
  | sendCapacity w => exact muxSendCapacity_strokes hl w
  | goaway reason => exact muxGoaway_strokes hl reason
  | onTimer t => exact muxOnTimer_strokes hl t
  | sendAdvance => exact ha.elim
  | nextEvent => exact ha.elim

theorem Session.call_inv {I : Session → Prop} (ha : a.Inner)
    (hs : ∀ s e s', I s → a.effects e → Stroke s e s' → I s') (h : I s) : I (s.call a) :=
  Reach.inv h (fun s e s' hi he => hs s e s' hi he.2)
    (Session.call_strokes (l := False) nofun nofun ha)

theorem muxSessionNew_inv {cfg role} {I : Session → Prop} (h₀ : I (initSession cfg role))
    (hs : ∀ s e s', I s → Effect.Heard e → Stroke s e s' → I s')
    (h : muxSessionNew cfg role = some s) : I s := by
  unfold muxSessionNew at h
  split at h
  · cases h
  cases role with
  | acceptor =>
    cases h
    exact h₀
  | dialer =>
    have hi := Reach.inv h₀ (fun s e s' hi he => hs s e s' hi he.2)
      (sendHello_strokes (l := False) nofun false)
    rcases he : sendHello (initSession cfg .dialer) false with ⟨s₁, e | ⟨⟩⟩
    · rw [he] at h
      cases h
    · rw [he] at h hi
      cases h
      exact hi

end Call

end MuxProtocol
