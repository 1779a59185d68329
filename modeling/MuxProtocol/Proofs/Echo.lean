import MuxProtocol.Libpeer
import MuxProtocol.Proofs.Handshake
import MuxProtocol.Relay
import MuxProtocol.Router

/-!
# The greeting sent back

The proof in a greeting is over the nonce of the greeting itself, and not over that of the other
side. A peer without the token passes the check of each daemon with the daemon's own nonce and
proof, and this is the only reply that passes whatever the token and the HMAC are. -/

namespace MuxProtocol

open List LpClient

/-! ### The check -/

theorem foldl_or_eq_zero : ∀ (l : List UInt8) (x : UInt8),
    l.foldl (· ||| ·) x = 0 ↔ x = 0 ∧ ∀ y ∈ l, y = 0
  | [], x => by simp
  | y :: l, x => by
    rw [foldl_cons, foldl_or_eq_zero l, forall_mem_cons, ← and_assoc]
    refine and_congr_left' ?_
    rw [← UInt8.toBitVec_inj, ← UInt8.toBitVec_inj, ← UInt8.toBitVec_inj, UInt8.toBitVec_or]
    exact BitVec.or_eq_zero_iff

theorem ctEqual_iff : ∀ {a b : Bytes}, a.length = b.length → (ctEqual a b = true ↔ a = b) := by
  have hzip : ∀ (a b : Bytes), a.length = b.length →
      ((∀ y ∈ zipWith (· ^^^ ·) a b, y = 0) ↔ a = b) := by
    intro a
    induction a with
    | nil =>
      intro b h
      rw [length_eq_zero_iff.1 h.symm]
      simp
    | cons x a ih =>
      intro b h
      cases b with
      | nil => cases h
      | cons y b =>
        rw [zipWith_cons_cons, forall_mem_cons, ih b (Nat.succ.inj h), cons.injEq,
          UInt8.xor_eq_zero_iff]
  intro a b h
  rw [ctEqual, beq_iff_eq, foldl_or_eq_zero, ← hzip a b h]
  simp

section Check

variable {hmac : Hmac} {token auth nonce : Bytes}

theorem proofPasses_iff :
    proofPasses hmac token auth nonce = true ↔ auth = muxAuthProof hmac token nonce := by
  unfold proofPasses
  rw [Bool.and_eq_true, decide_eq_true_iff]
  refine ⟨fun h => ?_, fun h => ?_⟩
  · exact ((ctEqual_iff ((muxAuthProof hmac token nonce).2.trans h.1.symm)).1 h.2).symm
  · subst h
    exact ⟨(muxAuthProof hmac token nonce).2, (ctEqual_iff rfl).2 rfl⟩

end Check

/-! ### Responders -/

/-- The nonce and the proof of a greeting. -/
structure Greeting where
  nonce : Bytes
  proof : Bytes

/-- What the greeting of a session says. -/
def MuxConfig.greeting (cfg : MuxConfig) : Greeting := ⟨cfg.nonce, cfg.auth⟩

variable {f : Greeting → Greeting}

/-- Every reply has the nonce and the proof of the greeting that it answers; of the nonce the first
256 bytes count. -/
def Echoes (f : Greeting → Greeting) : Prop :=
  ∀ nonce proof, nonce.length = 16 → proof.length = sha256DigestLen →
    (f ⟨nonce, proof⟩).proof = proof ∧ (f ⟨nonce, proof⟩).nonce.take 256 = nonce

/-- The replies pass the check of the router, -/
def FoolsRouter (f : Greeting → Greeting) : Prop :=
  ∀ hmac (ne nw : ℕ) (e : Router ne nw) token nonce, e.cfg.token = some token →
    e.checkAuth hmac (f (Router.connBuildCfg hmac e.cfg nonce).greeting).proof
      (f (Router.connBuildCfg hmac e.cfg nonce).greeting).nonce = true

/-- of the relay, -/
def FoolsRelay (f : Greeting → Greeting) : Prop :=
  ∀ hmac (r : Relay) token nonce, r.opt.token = some token →
    (r.onPeerHello hmac (f (Relay.buildCfg hmac r.opt nonce).greeting).proof
      (f (Relay.buildCfg hmac r.opt nonce).greeting).nonce).authed = true

/-- and of libpeer, for every HMAC, every token and every nonce of theirs. -/
def FoolsLibpeer (f : Greeting → Greeting) : Prop :=
  ∀ hmac (c : LpClient) token nonce, c.cfg.token = some token →
    (c.onPeerHello hmac (f (LpClient.buildCfg hmac c.cfg nonce).greeting).proof
      (f (LpClient.buildCfg hmac c.cfg nonce).greeting).nonce).authed = true

theorem echoes_iff : Echoes f ↔ ∀ (hmac : Hmac) (token : Bytes)
    (nonce : Nonce),
      (f ⟨nonce, muxAuthProof hmac token nonce⟩).proof
        = muxAuthProof hmac token (f ⟨nonce, muxAuthProof hmac token nonce⟩).nonce := by
  refine ⟨fun h hmac token nonce => ?_, fun h nonce proof hn hp => ?_⟩
  · obtain ⟨h1, h2⟩ := h nonce _ nonce.2 (muxAuthProof hmac token nonce).2
    generalize f ⟨nonce, muxAuthProof hmac token nonce⟩ = reply at h1 h2 ⊢
    rw [h1, muxAuthProof, muxAuthProof, h2, take_of_length_le (by rw [nonce.2]; decide)]
  · -- the HMAC of any other message differs from the proof of the reply
    obtain ⟨d, hd⟩ : ∃ d : Digest, d.1 ≠ (f ⟨nonce, proof⟩).proof := by
      by_cases h0 : (f ⟨nonce, proof⟩).proof = replicate sha256DigestLen 0
      · exact ⟨⟨replicate sha256DigestLen 1, rfl⟩, by rw [h0]; decide⟩
      · exact ⟨⟨replicate sha256DigestLen 0, rfl⟩, fun h => h0 h.symm⟩
    have hreply := h (fun _ m => if m = authContext ++ nonce then ⟨proof, hp⟩ else d) [] ⟨nonce, hn⟩
    have hown : (muxAuthProof (fun _ m => if m = authContext ++ nonce then ⟨proof, hp⟩ else d) []
        nonce).1 = proof := by
      rw [muxAuthProof, take_of_length_le (by rw [hn]; decide), if_pos rfl]
    dsimp only at hreply
    rw [hown, muxAuthProof] at hreply
    by_cases hm : (f ⟨nonce, proof⟩).nonce.take 256 = nonce
    · rw [hm, if_pos rfl] at hreply
      exact ⟨hreply, hm⟩
    · rw [if_neg fun h => hm (append_cancel_left h)] at hreply
      exact absurd hreply.symm hd

theorem Relay.exists_new (hmac token) (nonce : Nonce) : ∃ s r,
      muxSessionNew (buildCfg hmac { role := .dialer, token := some token } nonce) .dialer = some s
      ∧ relayNew hmac { role := .dialer, token := some token } nonce = some r ∧ r.mux = s
      ∧ r.opt = { role := .dialer, token := some token } ∧ r.authed = false := by
  obtain ⟨s, hs⟩ : ∃ s, muxSessionNew
      (buildCfg hmac { role := .dialer, token := some token } nonce) .dialer = some s :=
    exists_dialer (Nat.zero_le _)
    ((muxAuthProof hmac token nonce).2.trans_le (by decide)) (nonce.2.trans_le (by decide))
    (show muxHeaderSize + 1024 ≤ (nz 0 muxDefaultMaxOutBuffer).toNat by decide)
  exact ⟨s, _, hs, Option.map_eq_some_iff.2 ⟨s, hs, rfl⟩, rfl, rfl, rfl⟩

theorem Relay.onPeerHello_authed {hmac} {r : Relay} {token} (ht : r.opt.token = some token)
    (auth nonce) : (r.onPeerHello hmac auth nonce).authed = true ↔
      r.authed = true ∨ auth = muxAuthProof hmac token nonce := by
  rw [← proofPasses_iff, Relay.onPeerHello, ht]
  dsimp only
  split
  · rename_i hp
    simp [hp]
  · rename_i hp
    exact (or_iff_left hp).symm

theorem LpClient.onPeerHello_authed {hmac} {c : LpClient} {token} (ht : c.cfg.token = some token)
    (auth nonce) :
    (c.onPeerHello hmac auth nonce).authed = true ↔ auth = muxAuthProof hmac token nonce := by
  rw [← proofPasses_iff, onPeerHello, ht]
  dsimp only
  split <;> rfl

theorem Echoes.foolsRouter (h : Echoes f) : FoolsRouter f := by
  intro hmac ne nw e token nonce ht
  have hg : (Router.connBuildCfg hmac e.cfg nonce).greeting
      = ⟨nonce, muxAuthProof hmac token nonce⟩ := by
    simp [MuxConfig.greeting, Router.connBuildCfg, ht]
  rw [Router.checkAuth, ht, hg]
  exact proofPasses_iff.2 (echoes_iff.1 h hmac token nonce)

theorem Echoes.foolsRelay (h : Echoes f) : FoolsRelay f := by
  intro hmac r token nonce ht
  have hg : (Relay.buildCfg hmac r.opt nonce).greeting
      = ⟨nonce, muxAuthProof hmac token nonce⟩ := by
    simp [MuxConfig.greeting, Relay.buildCfg, ht]
  rw [Relay.onPeerHello_authed ht, hg]
  exact .inr (echoes_iff.1 h hmac token nonce)

theorem Echoes.foolsLibpeer (h : Echoes f) : FoolsLibpeer f := by
  intro hmac c token nonce ht
  have hg : (buildCfg hmac c.cfg nonce).greeting
      = ⟨nonce, muxAuthProof hmac token nonce⟩ := by
    simp [MuxConfig.greeting, buildCfg, ht]
  rw [onPeerHello_authed ht, hg]
  exact echoes_iff.1 h hmac token nonce

/-- A responder that does not use the token is accepted by each of the daemons, for every HMAC,
every token and every nonce, exactly if it sends their greeting back. -/
theorem responder_iff_echo (f : Greeting → Greeting) :
    (FoolsRouter f ↔ Echoes f) ∧ (FoolsRelay f ↔ Echoes f) ∧ (FoolsLibpeer f ↔ Echoes f) := by
  refine ⟨⟨fun h => ?_, Echoes.foolsRouter⟩, ⟨fun h => ?_, Echoes.foolsRelay⟩,
    ⟨fun h => ?_, Echoes.foolsLibpeer⟩⟩
  · refine echoes_iff.2 fun hmac token nonce => ?_
    exact proofPasses_iff.1 (h hmac 0 0 (Router.start 0 0 { token := some token }) token nonce rfl)
  · refine echoes_iff.2 fun hmac token nonce => ?_
    obtain ⟨-, r, -, -, -, hopt, hauth⟩ := Relay.exists_new hmac token nonce
    have ht : r.opt.token = some token := by rw [hopt]
    have hr := (Relay.onPeerHello_authed ht _ _).1 (h hmac r token nonce ht)
    rw [hopt] at hr
    exact hr.resolve_left (by simp [hauth])
  · refine echoes_iff.2 fun hmac token nonce => ?_
    exact (LpClient.onPeerHello_authed rfl _ _).1
      (h hmac { cfg := { token := some token } } token nonce rfl)

theorem front_recv_greeting {cfg cfg' : MuxConfig} {role role'} {s : Session}
    (hs : muxSessionNew cfg role = some s) (hy : (initSession cfg' role').toCore.Wf) (ack) :
    (s.call (.recv (encode (helloFrame (initSession cfg' role').toCore ack)))).front
      = some (.peerHello cfg'.weight (nz cfg'.maxStreams muxDefaultMaxStreams)
          (nz cfg'.initWindow muxDefaultInitWindow) cfg'.peerId cfg'.auth cfg'.nonce) := by
  obtain ⟨hcore, hw, -⟩ := muxSessionNew_spec hs
  have hstart : s.dead = false ∧ s.peerHelloSeen = false ∧ s.queued = [] := by
    rw [hcore]
    cases role <;> exact ⟨rfl, rfl, rfl⟩
  have hrecv := call_recv_encode hstart.1 (muxSessionNew_room hs)
    ⟨rfl, (length_helloFrame hy ack).trans (by decide)⟩
  have hlearned := learned_processFrame hw hstart.1 hstart.2.1 hstart.2.2 hy ack
  rw [← hrecv] at hlearned
  obtain ⟨l, h1, h2⟩ := (Session.call_pushes (a := .recv (encode
    (helloFrame (initSession cfg' role').toCore ack))) (by simp) s).toList
  have htold := hlearned.told
  rw [h1, hstart.2.2, nil_append] at htold
  rw [muxSessionNew_queue hs, nil_append] at h2
  rcases hf : (s.call (.recv (encode (helloFrame (initSession cfg' role').toCore ack)))).front
    with _ | ev
  · rw [← h2, (front_none hf).1] at htold
    cases htold
  · rw [← h2, (front_some hf).1] at htold
    exact htold

theorem Relay.hears_greeting {hmac} {r : Relay} {b weight maxStreams initWindow peerId auth nonce}
    (hf : (r.mux.call (.recv b)).front
      = some (.peerHello weight maxStreams initWindow peerId auth nonce)) :
    ([.stash b, .recv, .event {}] : List Move).foldl (move hmac) r
      = ((({ r with recv := b } : Relay).call (.recv b)).call .nextEvent).onPeerHello hmac auth
        nonce := by
  have hf' : (muxNextEvent (({ r with recv := b } : Relay).call (.recv b)).mux).2
      = some (.peerHello weight maxStreams initWindow peerId auth nonce) := hf
  simp only [foldl_cons, foldl_nil, move, nextEvent, hf']
  rfl

/-- The peer that sends every greeting back passes the check of each daemon. On the wire: a relay
takes its own greeting, sent back as the answer to it, for that of a peer with the token. -/
theorem echoed_greeting_passes : FoolsRouter id ∧ FoolsRelay id ∧ FoolsLibpeer id
    ∧ ∀ (hmac : Hmac) (token : Bytes) (nonce : Nonce),
      ∃ r hello, Relay.relayNew hmac { role := .dialer, token := some token } nonce = some r
        ∧ r.authed = false ∧ muxSendBuf r.mux = encode hello
        ∧ (([.stash (encode { hello with type := muxTHelloAck }), .recv, .event {}] :
            List Relay.Move).foldl (Relay.move hmac) r).authed = true := by
  have hid : Echoes id := fun nonce proof hn _ =>
    ⟨rfl, List.take_of_length_le (hn.trans_le (by decide))⟩
  refine ⟨hid.foolsRouter, hid.foolsRelay, hid.foolsLibpeer, fun hmac token nonce => ?_⟩
  obtain ⟨s, r, hs, hr, rfl, hopt, hauth⟩ := Relay.exists_new hmac token nonce
  set cfg := Relay.buildCfg hmac { role := .dialer, token := some token } nonce
  obtain ⟨hcore, hw, hout⟩ := muxSessionNew_spec hs
  obtain ⟨hbuf, -⟩ := hout.muxSendBuf_eq
    (f := helloFrame (initSession cfg .dialer).toCore false) rfl (by rw [hcore]; rfl)
  refine ⟨r, _, hr, hauth, hbuf, ?_⟩
  have hfront := front_recv_greeting hs (initSession_wf hs) true
  change (([.stash (encode (helloFrame (initSession cfg .dialer).toCore true)), .recv, .event {}] :
    List Relay.Move).foldl (Relay.move hmac) r).authed = true
  rw [Relay.hears_greeting hfront]
  refine (@Relay.onPeerHello_authed hmac _ token ?_ cfg.auth cfg.nonce).2 (.inr rfl)
  exact congrArg RelayOpts.token hopt

end MuxProtocol
