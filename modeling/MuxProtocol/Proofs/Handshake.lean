import MuxProtocol.Proofs.Link
import MuxProtocol.Proofs.Served

/-!
# What a greeting says

A greeting is a list of records, of which the last well-formed one of each type counts. The session
refuses what is no such list, and also the empty list: a frame without a payload has no view for the
iterator to read. Two sessions that greet each other learn each other's parameters.
-/

namespace MuxProtocol

open Machine List Option

/-! ### The last record counts -/

section Last

variable {t : UInt16} {tv : UInt16 × Bytes} {tlvs : List (UInt16 × Bytes)}

/-- The types whose value is one word. -/
def wordTlvs : List UInt16 :=
  [muxTlvWeight, muxTlvMaxStreams, muxTlvInitWindow, muxTlvSessionWindow]

/-- A record that is not ignored for its length. -/
def Heeded (tv : UInt16 × Bytes) : Prop := tv.1 ∈ wordTlvs → tv.2.length = 4

instance Heeded.decidable (tv : UInt16 × Bytes) : Decidable (Heeded tv) :=
  inferInstanceAs (Decidable (_ → _))

/-- The value of the last well-formed record of type `t`. -/
def lastTlv (t : UInt16) (tlvs : List (UInt16 × Bytes)) : Option Bytes :=
  ((tlvs.filter fun tv => tv.1 = t ∧ Heeded tv).getLast?).map Prod.snd

def lastWord (t : UInt16) (tlvs : List (UInt16 × Bytes)) : Option UInt32 :=
  (lastTlv t tlvs).map beLoad32

theorem lastTlv_concat : lastTlv t (tlvs ++ [tv])
    = if tv.1 = t ∧ Heeded tv then some tv.2 else lastTlv t tlvs := by
  unfold lastTlv
  rw [filter_append]
  split_ifs with h <;> simp [h]

theorem lastWord_concat : lastWord t (tlvs ++ [tv])
    = if tv.1 = t ∧ Heeded tv then some (beLoad32 tv.2) else lastWord t tlvs := by
  unfold lastWord
  rw [lastTlv_concat]
  split_ifs <;> rfl

/-- What a session stores of a greeting. -/
def Core.learn (c : Core) (tlvs : List (UInt16 × Bytes)) : Core :=
  { c with
    peerMaxStreams := (lastWord muxTlvMaxStreams tlvs).getD c.peerMaxStreams
    peerInitWindow := (lastWord muxTlvInitWindow tlvs).getD c.peerInitWindow
    sessSendWin :=
      ((lastWord muxTlvSessionWindow tlvs).map fun v => (v.toNat : ℤ)).getD c.sessSendWin }

/-- What a session reports of a greeting. -/
def HelloInfo.ofTlvs (tlvs : List (UInt16 × Bytes)) : HelloInfo where
  weight := (lastWord muxTlvWeight tlvs).getD 0
  maxStreams := (lastWord muxTlvMaxStreams tlvs).getD 0
  initWindow := (lastWord muxTlvInitWindow tlvs).getD 0
  peerId := (lastTlv muxTlvPeerId tlvs).getD []
  auth := (lastTlv muxTlvAuth tlvs).getD []
  nonce := (lastTlv muxTlvNonce tlvs).getD []

theorem learn_concat (c : Core) (t v) : (helloTlv (c.learn tlvs) (.ofTlvs tlvs) t v)
      = (c.learn (tlvs ++ [(t, v)]), .ofTlvs (tlvs ++ [(t, v)])) := by
  unfold helloTlv Core.learn HelloInfo.ofTlvs
  simp only [lastTlv_concat, lastWord_concat, Heeded, wordTlvs]
  by_cases ht : t ∈ [muxTlvWeight, muxTlvMaxStreams, muxTlvInitWindow, muxTlvSessionWindow,
    muxTlvPeerId, muxTlvAuth, muxTlvNonce]
  · simp only [mem_cons, not_mem_nil, or_false] at ht
    rcases ht with rfl | rfl | rfl | rfl | rfl | rfl | rfl <;> by_cases hv : v.length = 4 <;>
    simp [hv, muxTlvWeight, muxTlvMaxStreams, muxTlvInitWindow, muxTlvSessionWindow, muxTlvPeerId,
      muxTlvAuth, muxTlvNonce]
  · simp only [mem_cons, not_mem_nil, or_false, not_or] at ht
    simp [ht]

theorem helloTlvsFold_eq (c : Core) (tlvs) :
    helloTlvsFold (c, {}) tlvs = (c.learn tlvs, .ofTlvs tlvs) := by
  induction tlvs using reverseRecOn with
  | nil => rfl
  | append_singleton tlvs tv ih =>
    rw [helloTlvsFold_append, ih, helloTlvsFold_cons]
    exact learn_concat c tv.1 tv.2

end Last

/-! ### What is accepted -/

section Accept

variable {s : Session} {f : Frame} {tlvs : List (UInt16 × Bytes)}

/-- Of the frame the session queues a `PEER_HELLO` and no `FATAL`. -/
def Accepts (s : Session) (f : Frame) : Prop :=
  ∃ e : HelloInfo, (processFrame s f).queued = s.queued ++ [e.event]

/-- The payload is a concatenation of records. -/
def IsTlvs (b : Bytes) : Prop := ∃ tlvs, TlvsSized tlvs ∧ tlvs.flatMap tlvBytes = b

/-- The session answers the greeting `f` with its own. -/
def MustAnswer (s : Session) (f : Frame) : Prop :=
  f.type = muxTHello ∧ s.role = .acceptor ∧ s.helloSent = false

instance MustAnswer.decidable (s : Session) (f : Frame) : Decidable (MustAnswer s f) :=
  inferInstanceAs (Decidable (_ ∧ _))

/-- There is room for the session's greeting in its output buffer. -/
def AnswerFits (s : Session) : Prop :=
  (obReserve s.out (muxHeaderSize + (helloFrame s.toCore true).payload.length)
    s.maxOutBuffer.toNat).2 = .ok ()

theorem helloLoop_isTlvs (hs : TlvsSized tlvs) (hb : tlvs.flatMap tlvBytes = f.payload)
    (hne : f.payload ≠ []) (c : Core) :
    helloLoop (f.payload.length + 1) c {} f.view 0 = (c.learn tlvs, .ofTlvs tlvs, true) := by
  have h := helloLoop_walk (c := c) (e := {}) (tlvLoop_tlvs hs)
  rw [helloTlvsFold_eq, hb] at h
  rw [Frame.view, if_neg hne]
  exact h

theorem helloLoop_refuses (c) (h : IsTlvs f.payload → f.payload = []) :
    (helloLoop (f.payload.length + 1) c {} f.view 0).2.2 = false := by
  by_cases hne : f.payload = []
  · rw [Frame.view, if_pos hne]
    rfl
  · obtain ⟨tlvs, r, hw, ⟨-, hs, hb⟩ | ⟨rfl, -⟩⟩ := tlvLoop_ends f.payload
    · exact absurd (h ⟨tlvs, hs, hb⟩) hne
    · rw [Frame.view, if_neg hne, helloLoop_walk hw]
      rfl

theorem processFrame_hello (ht : f.type = muxTHello ∨ f.type = muxTHelloAck) :
    processFrame s f = onHello (s.heard f) f (f.type = muxTHelloAck) := by
  unfold processFrame
  rcases ht with ht | ht <;>
  simp [ht, muxTHello, muxTHelloAck, muxTData, muxTWindowUpdate, muxTPing, muxTGoaway,
    Session.heard]

theorem sendHello_ok_iff (hw : s.toCore.Wf) (ack) : (sendHello s ack).2 = .ok () ↔
      (obReserve s.out (muxHeaderSize + (helloFrame s.toCore ack).payload.length)
        s.maxOutBuffer.toNat).2 = .ok () := by
  have hp : (helloFrame s.toCore ack).payload.length ≤ muxMaxPayload :=
    (length_helloFrame hw ack).trans (by decide)
  rw [sendHello_eq hw]
  refine ⟨fun h => ?_, fun h => ?_⟩
  · rcases hr : obReserve s.out (muxHeaderSize + (helloFrame s.toCore ack).payload.length)
      s.maxOutBuffer.toNat with ⟨out, e | ⟨⟩⟩
    · unfold emit at h
      rw [hr] at h
      cases h
    · rfl
  · have hok : (emit s (if ack then muxTHelloAck else muxTHello) 0 muxSidControl
        (helloFrame s.toCore ack).payload).2 = .ok () := emit_of_reserve hp h
    rcases he : emit s (if ack then muxTHelloAck else muxTHello) 0 muxSidControl
      (helloFrame s.toCore ack).payload with ⟨s₁, e | ⟨⟩⟩
    · rw [he] at hok
      cases hok
    · rfl

/-- The session has the records of a greeting. -/
def Session.greeted (s : Session) (f : Frame) (tlvs : List (UInt16 × Bytes)) : Session :=
  evqPush { s.heard f with toCore := { (s.toCore.hear f).learn tlvs with peerHelloSeen := true } }
    (HelloInfo.ofTlvs tlvs).event

theorem processFrame_isTlvs (ht : f.type = muxTHello ∨ f.type = muxTHelloAck)
    (hsid : f.sid = muxSidControl) (hseen : s.peerHelloSeen = false) (hs : TlvsSized tlvs)
    (hb : tlvs.flatMap tlvBytes = f.payload) (hne : f.payload ≠ []) :
    processFrame s f = if MustAnswer s f then (sendHello (s.greeted f tlvs) true).1
      else s.greeted f tlvs := by
  have hack : ¬ f.type = muxTHelloAck ↔ f.type = muxTHello := by
    rcases ht with ht | ht <;> simp [ht, muxTHello, muxTHelloAck]
  rw [processFrame_hello ht, onHello, if_neg (by simp [hsid]),
    if_neg (by simp [Session.heard, hseen])]
  rw [show (s.heard f).toCore = s.toCore.hear f from rfl, helloLoop_isTlvs hs hb hne]
  refine if_congr ?_ rfl rfl
  simp [MustAnswer, hack, Core.learn]

theorem Core.Wf.greeted (hw : s.toCore.Wf) (f tlvs) : (s.greeted f tlvs).toCore.Wf :=
  ⟨hw.tab, hw.peerId, hw.auth, hw.nonce⟩

theorem HelloInfo.event_ne_fatal (e : HelloInfo) (code) : e.event ≠ .fatal code := nofun

theorem processFrame_refuses (hd : s.dead = false) (hseen : s.peerHelloSeen = false)
    (ht : f.type = muxTHello ∨ f.type = muxTHelloAck) (hsid : f.sid = muxSidControl)
    (h : IsTlvs f.payload → f.payload = []) :
    (processFrame s f).queued = s.queued ++ [.fatal muxCodeProtocol] := by
  have hno := helloLoop_refuses (s.toCore.hear f) h
  obtain ⟨pm, pi, sw, hc, -⟩ :=
    helloLoop_core (f.payload.length + 1) (s.toCore.hear f) {} f.view 0
  rw [processFrame_hello ht, onHello, if_neg (by simp [hsid]),
    if_neg (by simp [Session.heard, hseen]), show (s.heard f).toCore = s.toCore.hear f from rfl]
  rcases hl : helloLoop (f.payload.length + 1) (s.toCore.hear f) {} f.view 0 with ⟨c, e, _ | _⟩ <;>
  rw [hl] at hno hc
  · dsimp only at hc ⊢
    simp [hc, hd]
  · cases hno

theorem queued_isTlvs (hw : s.toCore.Wf) (hd : s.dead = false) (hseen : s.peerHelloSeen = false)
    (ht : f.type = muxTHello ∨ f.type = muxTHelloAck) (hsid : f.sid = muxSidControl)
    (hs : TlvsSized tlvs) (hb : tlvs.flatMap tlvBytes = f.payload) (hne : f.payload ≠ []) :
    ∃ l, (processFrame s f).queued = s.queued ++ (HelloInfo.ofTlvs tlvs).event :: l
      ∧ (l = [] ↔ (MustAnswer s f → AnswerFits s)) := by
  rw [processFrame_isTlvs ht hsid hseen hs hb hne]
  split_ifs with hans
  · obtain ⟨ok, h1, -, h2⟩ := sendHello_spec (hw.greeted f tlvs) true
    rw [sendHello_ok_iff (hw.greeted _ _)] at h2
    refine ⟨if ok then [] else [.fatal muxCodeInternal], ?_, ?_⟩
    · rw [h1]
      cases ok <;> simp [Session.greeted, Core.learn, Session.heard, hd]
    · have hfit : AnswerFits s ↔ ok = true := h2
      rw [hfit]
      cases ok <;> simp [hans]
  · exact ⟨[], by simp [Session.greeted, Core.learn], by simp [hans]⟩

theorem accepts_iff (hw : s.toCore.Wf) (hd : s.dead = false) (hseen : s.peerHelloSeen = false)
    (ht : f.type = muxTHello ∨ f.type = muxTHelloAck) (hsid : f.sid = muxSidControl) :
    Accepts s f ↔ IsTlvs f.payload ∧ f.payload ≠ [] ∧ (MustAnswer s f → AnswerFits s) := by
  by_cases hgood : IsTlvs f.payload ∧ f.payload ≠ []
  · obtain ⟨⟨tlvs, hs, hb⟩, hne⟩ := hgood
    obtain ⟨l, hq, hl⟩ := queued_isTlvs hw hd hseen ht hsid hs hb hne
    refine ⟨fun ⟨e, he⟩ => ⟨⟨tlvs, hs, hb⟩, hne, hl.1 ?_⟩, fun ⟨_, _, hfit⟩ => ⟨.ofTlvs tlvs, ?_⟩⟩
    · rw [hq, append_cancel_left_eq, cons.injEq] at he
      exact he.2
    · rw [hq, hl.2 hfit]
  · have hbad : IsTlvs f.payload → f.payload = [] := by
      intro h
      by_contra hne
      exact hgood ⟨h, hne⟩
    refine ⟨fun ⟨e, he⟩ => ?_, fun ⟨h1, h2, _⟩ => absurd ⟨h1, h2⟩ hgood⟩
    rw [processFrame_refuses hd hseen ht hsid hbad, append_cancel_left_eq, cons.injEq] at he
    exact absurd he.1.symm (e.event_ne_fatal _)

theorem stored_isTlvs (hw : s.toCore.Wf) (hseen : s.peerHelloSeen = false)
    (ht : f.type = muxTHello ∨ f.type = muxTHelloAck) (hsid : f.sid = muxSidControl)
    (hs : TlvsSized tlvs) (hb : tlvs.flatMap tlvBytes = f.payload) (hne : f.payload ≠ []) :
    (processFrame s f).peerMaxStreams = (s.toCore.learn tlvs).peerMaxStreams
      ∧ (processFrame s f).peerInitWindow = (s.toCore.learn tlvs).peerInitWindow
      ∧ (processFrame s f).sessSendWin = (s.toCore.learn tlvs).sessSendWin := by
  rw [processFrame_isTlvs ht hsid hseen hs hb hne]
  split_ifs with hans
  · obtain ⟨ok, h1, -⟩ := sendHello_spec (hw.greeted f tlvs) true
    rw [h1]
    exact ⟨rfl, rfl, rfl⟩
  · exact ⟨rfl, rfl, rfl⟩

/-- A greeting is accepted as the grammar of its records says, unless it is the empty list or the
answer to it finds no room. What is stored and reported are the last well-formed records. -/
theorem hello_grammar_iff {cfg : MuxConfig} {role : MuxRole} {s₀ : Session}
    (h₀ : muxSessionNew cfg role = some s₀)
    (h : Reach (ofFun Session.call) (fun _ _ => True) s₀ s) (hd : s.dead = false)
    (hseen : s.peerHelloSeen = false) (ht : f.type = muxTHello ∨ f.type = muxTHelloAck)
    (hsid : f.sid = muxSidControl) :
    ((Accepts s f ↔ IsTlvs f.payload) ↔
      (IsTlvs f.payload → f.payload ≠ [] ∧ (MustAnswer s f → AnswerFits s)))
    ∧ ∀ tlvs, TlvsSized tlvs → tlvs.flatMap tlvBytes = f.payload → f.payload ≠ [] →
      (processFrame s f).queued[s.queued.length]? = some (HelloInfo.ofTlvs tlvs).event
      ∧ (processFrame s f).peerMaxStreams = (s.toCore.learn tlvs).peerMaxStreams
      ∧ (processFrame s f).peerInitWindow = (s.toCore.learn tlvs).peerInitWindow
      ∧ (processFrame s f).sessSendWin = (s.toCore.learn tlvs).sessSendWin := by
  obtain ⟨hw, -⟩ := Session.reach_wf h₀ h
  refine ⟨?_, fun tlvs hs hb hne => ⟨?_, stored_isTlvs hw hseen ht hsid hs hb hne⟩⟩
  · rw [accepts_iff hw hd hseen ht hsid]
    tauto
  · obtain ⟨l, hq, -⟩ := queued_isTlvs hw hd hseen ht hsid hs hb hne
    rw [hq]
    simp

def bareHello (payload : Bytes) : Frame where
  type := muxTHello
  flags := 0
  sid := muxSidControl
  payload := payload

theorem hello_grammar_iff_weight :
    Accepts newAcceptor (bareHello (tlvBytes (muxTlvWeight, bePut32 7))) := by
  have htlvs : IsTlvs (tlvBytes (muxTlvWeight, bePut32 7)) :=
    ⟨[(muxTlvWeight, bePut32 7)], by unfold TlvsSized; decide, by decide⟩
  refine ((hello_grammar_iff (f := bareHello (tlvBytes (muxTlvWeight, bePut32 7)))
    muxSessionNew_newAcceptor .start rfl
    rfl (.inl rfl) rfl).1.2 fun _ => ⟨by decide, fun _ => ?_⟩).2 htlvs
  unfold AnswerFits
  decide +kernel

/-- A greeting of no records kills the session. -/
theorem empty_hello_refused :
    ∃ s₀, muxSessionNew { maxStreams := 1 } .acceptor = some s₀ ∧ IsTlvs []
      ∧ (s₀.call (.recv (encode (bareHello [])))).queued = [.fatal muxCodeProtocol] :=
  ⟨newAcceptor, rfl, ⟨[], by unfold TlvsSized; decide, rfl⟩, by decide +kernel⟩

end Accept

/-! ### Two sessions -/

section Exchange

variable {cfg cfg' : MuxConfig} {a d s : Session} {f : Frame}

/-- The session has the parameters of a peer made with `cfg`. -/
structure Learned (s : Session) (cfg : MuxConfig) : Prop where
  initWindow : s.peerInitWindow = nz cfg.initWindow muxDefaultInitWindow
  maxStreams : s.peerMaxStreams = nz cfg.maxStreams muxDefaultMaxStreams
  sendWin : s.sessSendWin = (nz cfg.sessionWindow muxDefaultSessionWindow).toNat
  told : s.queued.head? = some (.peerHello cfg.weight (nz cfg.maxStreams muxDefaultMaxStreams)
    (nz cfg.initWindow muxDefaultInitWindow) cfg.peerId cfg.auth cfg.nonce)

/-- The bytes of one frame, received by a session that has room for its events. -/
theorem call_recv_encode (hd : s.dead = false) (hq : s.q.count < muxEventQueueSoftCap)
    (hf : f.Sized) : s.call (.recv (encode f)) = processFrame s f := by
  obtain ⟨n, hn⟩ : ∃ n, (encode f).length = n + 1 := by
    rw [length_encode]
    exact ⟨11 + f.payload.length, by rw [muxHeaderSize]; omega⟩
  have hp := muxParse_encode hf []
  rw [append_nil] at hp
  rw [Session.call, muxRecv, if_neg (by simp [hd]), hn, recvLoop, if_neg (encode_ne_nil f),
    if_neg (by omega), hp]
  dsimp only
  split_ifs
  · rfl
  · rw [drop_length]
    cases n <;> rfl

theorem call_recv_outgoing (hw : s.toCore.Wf) (buf) : Outgoing s (s.call (.recv buf)) :=
  muxRecv_outgoing hw buf

theorem helloFrame_greeted (tlvs ack) :
    helloFrame (s.greeted f tlvs).toCore ack = helloFrame s.toCore ack :=
  helloFrame_congr rfl ack

theorem Core.learn_helloTlvs (c y : Core) :
    c.learn (helloTlvs y) = { c with peerMaxStreams := y.maxStreams,
                                     peerInitWindow := y.initWindow,
                                     sessSendWin := y.sessionWindow.toNat }
    ∧ HelloInfo.ofTlvs (helloTlvs y)
      = { weight := y.weight, maxStreams := y.maxStreams, initWindow := y.initWindow,
          peerId := y.peerId, auth := y.auth, nonce := y.nonce } := by
  have h := helloTlvsFold_helloTlvs y c
  rw [helloTlvsFold_eq, Prod.mk.injEq] at h
  exact h

theorem learned_processFrame {role} (hw : s.toCore.Wf) (hd : s.dead = false)
    (hseen : s.peerHelloSeen = false) (hq : s.queued = []) (hy : (initSession cfg role).toCore.Wf)
    (ack) : Learned (processFrame s (helloFrame (initSession cfg role).toCore ack)) cfg := by
  have ht : (helloFrame (initSession cfg role).toCore ack).type = muxTHello
      ∨ (helloFrame (initSession cfg role).toCore ack).type = muxTHelloAck := by
    cases ack
    · exact .inl rfl
    · exact .inr rfl
  have hne := helloFrame_payload_ne (initSession cfg role).toCore ack
  obtain ⟨hc, he⟩ := s.toCore.learn_helloTlvs (initSession cfg role).toCore
  obtain ⟨h1, h2, h3⟩ := stored_isTlvs hw hseen ht rfl (helloTlvs_sized hy) rfl hne
  obtain ⟨l, h4, -⟩ := queued_isTlvs hw hd hseen ht rfl (helloTlvs_sized hy) rfl hne
  rw [hc] at h1 h2 h3
  rw [he, hq] at h4
  exact ⟨h2, h1, h3, by rw [h4]; rfl⟩

theorem Outgoing.muxSendBuf_eq (h : Outgoing s a) (hs : s.out = { data := [], cap := 0, spos := 0 })
    (hf : a.sent = s.sent ++ [f]) : muxSendBuf a = encode f ∧ f.Sized := by
  obtain ⟨-, fs, h1, h2, h3⟩ := h (by simp [hs])
  rw [hf, append_cancel_left_eq] at h1
  subst h1
  refine ⟨?_, h2 f (by simp)⟩
  rw [MuxProtocol.muxSendBuf_eq, h3, hs]
  simp [OutBuf.pending]

/-- A frame fits an output buffer that was never used exactly if it is within its ceiling. -/
theorem obReserve_unused {max : ℕ} (hmax : 0 < max) (n : ℕ) :
    (obReserve { data := [], cap := 0, spos := 0 } (muxHeaderSize + n) max).2 = .ok () ↔
      muxHeaderSize + n ≤ max := by
  have hn : 0 < muxHeaderSize := by decide
  rw [obReserve_ok_iff, OutBuf.length_pending, length_nil]
  dsimp only
  omega

/-- The acceptor answers exactly where its greeting fits its output buffer. -/
theorem answerFits_iff :
    AnswerFits (initSession cfg .acceptor) ↔
      muxHeaderSize + (helloFrame (initSession cfg .acceptor).toCore true).payload.length
        ≤ (nz cfg.maxOutBuffer muxDefaultMaxOutBuffer).toNat :=
  obReserve_unused (nz_pos (by decide) _) _

theorem exists_dialer (hp : cfg.peerId.length ≤ helloBlobMax) (ha : cfg.auth.length ≤ helloBlobMax)
    (hn : cfg.nonce.length ≤ helloBlobMax)
    (hmax : muxHeaderSize + 1024 ≤ (nz cfg.maxOutBuffer muxDefaultMaxOutBuffer).toNat) :
    ∃ s, muxSessionNew cfg .dialer = some s := by
  have hw : (initSession cfg .dialer).toCore.Wf := ⟨stGrow_empty_wf _, hp, ha, hn⟩
  have hfits : (sendHello (initSession cfg .dialer) false).2 = .ok () :=
    (sendHello_ok_iff hw false).2 ((obReserve_unused (nz_pos (by decide) _) _).2
      (Nat.le_trans (Nat.add_le_add_left (length_helloFrame hw false) _) hmax))
  unfold muxSessionNew
  rw [if_neg (by omega)]
  rcases hs : sendHello (initSession cfg .dialer) false with ⟨s, e | ⟨⟩⟩
  · rw [hs] at hfits
    cases hfits
  · exact ⟨s, rfl⟩

theorem initSession_wf {role} (h : muxSessionNew cfg role = some s) :
    (initSession cfg role).toCore.Wf := by
  obtain ⟨hc, hw, -⟩ := muxSessionNew_spec h
  rw [hc] at hw
  cases role <;> exact ⟨stGrow_empty_wf _, hw.peerId, hw.auth, hw.nonce⟩

theorem muxSessionNew_room {role} (h : muxSessionNew cfg role = some s) :
    s.q.count < muxEventQueueSoftCap := by
  rw [← RingQueue.length_toList, muxSessionNew_queue h]
  decide

theorem muxSessionNew_acceptor (h : muxSessionNew cfg .acceptor = some s) :
    s = initSession cfg .acceptor := by
  obtain ⟨-, h⟩ := ite_none_left_eq_some.1 h
  exact (some.inj h).symm

theorem acceptor_answers (ha : muxSessionNew cfg' .acceptor = some a) {y : Core} (hy : y.Wf) :
    ∃ ok, (a.call (.recv (encode (helloFrame y false)))).toCore
        = (a.greeted (helloFrame y false) (helloTlvs y)).toCore.greet true ok
      ∧ (AnswerFits a ↔ ok = true) := by
  have hw := (muxSessionNew_spec ha).2.1
  have hroom := muxSessionNew_room ha
  obtain rfl := muxSessionNew_acceptor ha
  have hsized : (helloFrame y false).Sized :=
    ⟨rfl, (length_helloFrame hy false).trans (by decide)⟩
  rw [call_recv_encode rfl hroom hsized, processFrame_isTlvs (.inl rfl) rfl rfl
    (helloTlvs_sized hy) rfl (helloFrame_payload_ne y false), if_pos ⟨rfl, rfl, rfl⟩]
  obtain ⟨ok, h1, -, h2⟩ := sendHello_spec
    (hw.greeted (helloFrame y false) (helloTlvs y)) true
  rw [sendHello_ok_iff (hw.greeted _ _)] at h2
  exact ⟨ok, h1, h2⟩

/-- Two sessions that greet each other have each other's parameters. The dialer has greeted when it
is made; the acceptor's answer is sent unless its output buffer is too small for it. -/
theorem handshake_agreement (hd : muxSessionNew cfg .dialer = some d)
    (ha : muxSessionNew cfg' .acceptor = some a) :
    (∀ s', Reach (ofFun Session.call) (fun _ _ => True) d s'
        ∨ Reach (ofFun Session.call) (fun _ _ => True) a s' →
      ∃ r, putTlvs (helloTlvs s'.toCore) (List.replicate 1024 0) 0 = .ok r) ∧
    Learned (a.call (.recv (muxSendBuf d))) cfg ∧
    ((a.call (.recv (muxSendBuf d))).helloSent = true ↔
      muxHeaderSize + (helloFrame a.toCore true).payload.length ≤ a.maxOutBuffer.toNat) ∧
    ((a.call (.recv (muxSendBuf d))).helloSent = true →
      (a.call (.recv (muxSendBuf d))).dead = false ∧
      Learned (d.call (.recv (muxSendBuf (a.call (.recv (muxSendBuf d)))))) cfg') := by
  have hwd := initSession_wf hd
  have hwa := initSession_wf ha
  obtain ⟨hcd, hwd', houtd⟩ := muxSessionNew_spec hd
  obtain ⟨hbuf, hsized⟩ := houtd.muxSendBuf_eq
    (f := helloFrame (initSession cfg .dialer).toCore false) rfl (by rw [hcd]; rfl)
  obtain ⟨ok, hanswer, hfits⟩ := acceptor_answers ha hwd
  have hrooma := muxSessionNew_room ha
  have hroomd := muxSessionNew_room hd
  refine ⟨fun s' hs' => ?_, ?_⟩
  · have hw' : s'.toCore.Wf := hs'.elim (fun h => (Session.reach_wf hd h).1)
      fun h => (Session.reach_wf ha h).1
    refine ⟨_, putTlvs_eq _ _ _ ?_⟩
    rw [List.length_replicate, Nat.zero_add]
    exact length_helloFrame hw' true
  obtain rfl := muxSessionNew_acceptor ha
  rw [hbuf]
  have hrecv := call_recv_outgoing hwa (encode (helloFrame (initSession cfg .dialer).toCore false))
  have hlearned : Learned ((initSession cfg' .acceptor).call
      (.recv (encode (helloFrame (initSession cfg .dialer).toCore false)))) cfg := by
    rw [call_recv_encode rfl hrooma hsized]
    exact learned_processFrame hwa rfl rfl rfl hwd false
  generalize (initSession cfg' .acceptor).call
    (.recv (encode (helloFrame (initSession cfg .dialer).toCore false))) = a' at *
  have hsent : a'.helloSent = ok := by
    rw [hanswer]
    rfl
  refine ⟨hlearned, by rw [hsent, ← hfits, answerFits_iff]; rfl, fun hyes => ?_⟩
  obtain rfl : ok = true := hsent.symm.trans hyes
  refine ⟨by rw [hanswer]; rfl, ?_⟩
  obtain ⟨hbuf', hsized'⟩ := hrecv.muxSendBuf_eq
    (f := helloFrame (initSession cfg' .acceptor).toCore true) rfl
    (by rw [hanswer, Core.greet_sent, Core.tryPut_sent, if_pos rfl, helloFrame_greeted]; rfl)
  rw [hbuf', call_recv_encode (by rw [hcd]; rfl) hroomd hsized']
  exact learned_processFrame hwd' (by rw [hcd]; rfl) (by rw [hcd]; rfl) (by rw [hcd]; rfl) hwa true

/-- Both with an identity, a token proof and a nonce. -/
theorem handshake_agreement_blobs : ∃ cfg cfg' : MuxConfig, ∃ d a,
    muxSessionNew cfg .dialer = some d ∧ muxSessionNew cfg' .acceptor = some a
      ∧ cfg.peerId = [1, 2] ∧ cfg'.auth = [8]
      ∧ Learned (a.call (.recv (muxSendBuf d))) cfg
      ∧ Learned (d.call (.recv (muxSendBuf (a.call (.recv (muxSendBuf d)))))) cfg' := by
  let cfg : MuxConfig :=
    { initWindow := 5, maxStreams := 2, weight := 3, peerId := [1, 2], auth := [3],
      nonce := [4, 5] }
  let cfg' : MuxConfig :=
    { sessionWindow := 9, maxStreams := 4, peerId := [7], auth := [8], nonce := [6] }
  obtain ⟨d, hd⟩ : ∃ d, muxSessionNew cfg .dialer = some d :=
    isSome_iff_exists.1 (by decide +kernel)
  have ha : muxSessionNew cfg' .acceptor = some (initSession cfg' .acceptor) := rfl
  obtain ⟨-, h1, h2, h3⟩ := handshake_agreement hd ha
  exact ⟨cfg, cfg', d, _, hd, ha, rfl, rfl, h1, (h3 (h2.2 (by decide +kernel))).2⟩

end Exchange

end MuxProtocol
