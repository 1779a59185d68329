import MuxProtocol.Proofs.RecvWindow
import MuxProtocol.Traffic

/-!
# The frames of a session and the connection window

Every frame a session sends is one of a few kinds (`Plain`), whatever its peer does. Of two
sessions that hear each other's frames in order, the greeting carries the windows across, and each
side's connection windows are accounts of the frames sent and heard.
-/

namespace MuxProtocol

open LinearProbe Machine Core Event

/-! ### Histories -/

section History

variable {c c' : Core} {a : Act}

def Act.heard : Act → List Frame
  | .hear f => [f]
  | _ => []

theorem Step.got_eq (h : Step c a c') : c'.got = c.got ++ a.heard := by
  cases h with
  | _ => simp [Act.heard]

theorem Step.sent_prefix (h : Step c a c') : c.sent <+: c'.sent := by
  have hr := List.prefix_refl c.sent
  have hone : ∀ f, c.sent <+: c.sent ++ [f] := fun f => List.prefix_append _ _
  cases h with
  | helloReply _ _ _ _ _ hl =>
    simp only [greet_sent]
    exact prefix_ite (hone _) hr
  | reset | refused | aborted | ping =>
    simp only [drop_sent, tryPut_sent, seeSid_sent, push_sent, noteAbort_sent, hear_sent]
    exact prefix_ite (hone _) hr
  | _ => simp

end History

/-! ### The kinds of frames -/

section Plain

variable {c c' : Core} {a : Act} {f : Frame}

/-- The frames a session sends. -/
inductive Plain (c : Core) : Frame → Prop
  | syn {sid : UInt32} {metadata : Bytes} : sid ≠ muxSidControl → metadata.length ≤ muxMaxMeta →
      Plain c (synFrame sid metadata)
  | data {sid : UInt32} (p : Bytes) : sid ≠ muxSidControl → Plain c (dataFrame sid p)
  | fin {sid : UInt32} : sid ≠ muxSidControl → Plain c (finFrame sid)
  | rst {sid : UInt32} (code : UInt32) : sid ≠ muxSidControl → Plain c (rstFrame sid code)
  | credit (sid k : UInt32) : Plain c (creditFrame sid k)
  | ping {nonce : Bytes} (flags : UInt16) : nonce.length = 8 → Plain c (pingFrame flags nonce)
  | goaway (reason lastSid : UInt32) : Plain c (goawayFrame reason lastSid)
  | capacity (weight : UInt32) : Plain c (capacityFrame weight)
  | hello (ack : Bool) : Plain c (helloFrame c ack)

theorem helloFrame_congr (h : c'.config = c.config) (ack) :
    helloFrame c' ack = helloFrame c ack := by
  simp only [config, Prod.mk.injEq] at h
  obtain ⟨-, h1, h2, h3, h4, h5, h6, h7, h8⟩ := h
  simp only [helloFrame, helloTlvs, h1, h2, h3, h4, h5, h6, h7, h8]

theorem Plain.congr (h : c'.config = c.config) (hp : Plain c f) : Plain c' f := by
  cases hp with
  | hello ack => exact helloFrame_congr h ack ▸ .hello ack
  | syn h1 h2 => exact .syn h1 h2
  | data p h => exact .data p h
  | fin h => exact .fin h
  | rst code h => exact .rst code h
  | credit sid k => exact .credit sid k
  | ping flags h => exact .ping flags h
  | goaway reason lastSid => exact .goaway reason lastSid
  | capacity weight => exact .capacity weight

/-- What holds of the ids in the table holds after a step, if it holds of an id just taken. -/
theorem Step.every_sid {P : UInt32 → Prop} (h : Step c a c') (hw : TabWf c.tab)
    (hs : Every c.tab fun st => P st.sid)
    (hopen : ∀ m, OpenOk c m → c'.dead = true ∨ c.nextLocalSid ∈ synIds c'.sent →
      P c.nextLocalSid)
    (hsyn : ∀ f, SynOk c f → c'.maxRemoteSid = f.sid → P f.sid) :
    Every c'.tab fun st => P st.sid := by
  cases h with
  | opened hok h =>
    simpa using hs.insert hw h (hopen _ hok (.inr (by simp [synIds_singleton])))
  | openFailed hok h => simpa using (hs.insert hw h (hopen _ hok (.inl (by simp)))).remove
  | accepted _ hok _ _ _ h => simpa using hs.insert hw h (hsyn _ hok (by simp))
  | acceptedRst _ hok _ _ h => simpa using (hs.insert hw h (hsyn _ hok (by simp))).remove
  | acceptedFin _ hok _ _ _ h =>
    simp only [push_tab, edit_tab, seeSid_tab, setTab_tab]
    exact (hs.insert hw h (hsyn _ hok (by simp))).modify fun _ h => h
  | block | short | wrote | closedHalf | useOn | creditOn | wake | data | creditedOn
  | creditedOnOver =>
    simp only [block_tab, edit_tab, put_tab, debit_tab, push_tab,
      unblock_tab, deliver_tab, die_tab, hear_tab]
    exact hs.modify fun _ h => h
  | woken | fin =>
    simp only [push_tab, unblock_tab, edit_tab, hear_tab, deliver_tab, Table.modify_modify]
    exact hs.modify fun _ h => h
  | closedFull | reset | resetBy | aborted => simpa using hs.remove
  | finLast =>
    simp only [push_tab, drop_tab, deliver_tab, hear_tab]
    refine (hs.modify ?_).remove
    exact fun _ h => h
  | _ => simpa using hs

structure AllPlain (c : Core) : Prop where
  wf : TabWf c.tab
  sids : Every c.tab fun st => st.sid ≠ muxSidControl
  sent : ∀ f ∈ c.sent, Plain c f

theorem forall_mem_put {P : Frame → Prop} {l} (hl : ∀ f ∈ l, P f) (hf : P f) {ok : Prop}
    [Decidable ok] : ∀ g ∈ if ok then l ++ [f] else l, P g := by
  intro g hg
  split at hg
  · rcases List.mem_append.1 hg with hg | hg
    · exact hl g hg
    · exact List.mem_singleton.1 hg ▸ hf
  · exact hl g hg

/-- Every frame that a step sends is plain. -/
theorem Step.plain (h : Step c a c') (hi : AllPlain c) : ∀ f ∈ c'.sent, Plain c f := by
  have hs := hi.sent
  have hput : ∀ {f}, Plain c f → ∀ g ∈ c.sent ++ [f], Plain c g := fun {f} hf => by
    have : ∀ g ∈ if True then c.sent ++ [f] else c.sent, Plain c g := forall_mem_put hs hf
    simpa using this
  have hsid : ∀ {i st}, c.tab.get i = some st → st.sid ≠ muxSidControl := fun hg => hi.sids _ _ hg
  cases h with
  | opened hok => simpa using hput (.syn hok.sid_ne hok.bounded)
  | wrote hg => simpa using hput (.data _ (hsid hg))
  | closedHalf hg | closedFull hg => simpa using hput (.fin (hsid hg))
  | reset ok code hg => simpa using forall_mem_put hs (.rst code (hsid hg))
  | credit | creditOn => simpa using hput (.credit _ _)
  | control _ hc =>
    refine hput ?_
    cases hc with
    | capacity weight => exact .capacity weight
    | goaway reason lastSid => exact .goaway reason lastSid
    | ping nonce h8 => exact .ping 0 h8
  | refused ok _ hok => simpa using forall_mem_put hs (.rst _ hok.sid_ne)
  | aborted ok _ hon => simpa using forall_mem_put hs (.rst _ hon.sid_ne)
  | ping ok _ _ _ h8 => simpa using forall_mem_put hs (.ping _ h8)
  | helloReply =>
    simp only [greet_sent]
    exact forall_mem_put hs (.hello true)
  | _ => simpa using hs

theorem Step.allPlain (h : Step c a c') (hi : AllPlain c) : AllPlain c' :=
  ⟨h.tabWf hi.wf, h.every_sid (P := (· ≠ muxSidControl)) hi.wf hi.sids (fun _ hok _ => hok.sid_ne)
    fun _ hok _ => hok.sid_ne, fun f hf => (h.plain hi f hf).congr h.config_eq⟩

end Plain

/-! ### The greeting, parsed -/

section Greeting

/-- The records of a greeting, taken one after the other. -/
def helloTlvsFold (r : Core × HelloInfo) (tlvs : List (UInt16 × Bytes)) : Core × HelloInfo :=
  tlvs.foldl (fun r tv => helloTlv r.1 r.2 tv.1 tv.2) r

theorem helloTlvsFold_cons (r : Core × HelloInfo) (tv : UInt16 × Bytes) (tlvs) :
    helloTlvsFold r (tv :: tlvs) = helloTlvsFold (helloTlv r.1 r.2 tv.1 tv.2) tlvs := rfl

/-- The loop of `on_hello` is the iteration over the records, each taken as it comes. -/
theorem helloLoop_walk {buf} {r : Except MuxErr Unit} :
    ∀ {n cursor : ℕ} {tlvs : List (UInt16 × Bytes)} {c : Core} {e : HelloInfo},
    tlvWalk n buf cursor = some (tlvs, r) →
    helloLoop n c e (some buf) cursor
      = ((helloTlvsFold (c, e) tlvs).1, (helloTlvsFold (c, e) tlvs).2, r.isOk) := by
  intro n
  induction n with
  | zero => nofun
  | succ n ih =>
    intro cursor tlvs c e h
    rw [tlvWalk] at h
    rw [helloLoop]
    rcases hm : muxTlvNext (some buf) cursor with er | (_ | ⟨t, v, cursor'⟩) <;> rw [hm] at h
    · cases h
      rfl
    · cases h
      rfl
    · obtain ⟨⟨tlvs', r'⟩, hw, h⟩ := Option.map_eq_some_iff.1 h
      cases h
      exact ih hw

section Records

variable (c : Core) (e : HelloInfo) (v : UInt32) (blob : Bytes)

theorem helloTlv_weight : helloTlv c e muxTlvWeight (bePut32 v) = (c, { e with weight := v }) := by
  rw [helloTlv, if_pos rfl, if_pos (length_bePut32 v), beLoad32_put']

theorem helloTlv_maxStreams : helloTlv c e muxTlvMaxStreams (bePut32 v)
    = ({ c with peerMaxStreams := v }, { e with maxStreams := v }) := by
  rw [helloTlv, if_neg (by decide), if_pos rfl, if_pos (length_bePut32 v), beLoad32_put']

theorem helloTlv_initWindow : helloTlv c e muxTlvInitWindow (bePut32 v)
    = ({ c with peerInitWindow := v }, { e with initWindow := v }) := by
  rw [helloTlv, if_neg (by decide), if_neg (by decide), if_pos rfl, if_pos (length_bePut32 v),
    beLoad32_put']

theorem helloTlv_sessionWindow : helloTlv c e muxTlvSessionWindow (bePut32 v)
    = ({ c with sessSendWin := v.toNat }, e) := by
  rw [helloTlv, if_neg (by decide), if_neg (by decide), if_neg (by decide), if_pos rfl,
    if_pos (length_bePut32 v), beLoad32_put']

theorem helloTlv_heartbeatMs : helloTlv c e muxTlvHeartbeatMs blob = (c, e) := by
  rw [helloTlv, if_neg (by decide), if_neg (by decide), if_neg (by decide), if_neg (by decide),
    if_neg (by decide), if_neg (by decide), if_neg (by decide)]

theorem helloTlv_peerId : helloTlv c e muxTlvPeerId blob = (c, { e with peerId := blob }) := by
  rw [helloTlv, if_neg (by decide), if_neg (by decide), if_neg (by decide), if_neg (by decide),
    if_pos rfl]

theorem helloTlv_auth : helloTlv c e muxTlvAuth blob = (c, { e with auth := blob }) := by
  rw [helloTlv, if_neg (by decide), if_neg (by decide), if_neg (by decide), if_neg (by decide),
    if_neg (by decide), if_pos rfl]

theorem helloTlv_nonce : helloTlv c e muxTlvNonce blob = (c, { e with nonce := blob }) := by
  rw [helloTlv, if_neg (by decide), if_neg (by decide), if_neg (by decide), if_neg (by decide),
    if_neg (by decide), if_neg (by decide), if_pos rfl]

end Records

theorem helloTlvsFold_append (r tlvs tlvs') :
    helloTlvsFold r (tlvs ++ tlvs') = helloTlvsFold (helloTlvsFold r tlvs) tlvs' :=
  List.foldl_append

theorem helloTlvsFold_helloTlvs (y c : Core) :
    helloTlvsFold (c, {}) (helloTlvs y)
      = ({ c with peerMaxStreams := y.maxStreams, peerInitWindow := y.initWindow,
                  sessSendWin := y.sessionWindow.toNat },
         { weight := y.weight, maxStreams := y.maxStreams, initWindow := y.initWindow,
           peerId := y.peerId, auth := y.auth, nonce := y.nonce }) := by
  unfold helloTlvs
  simp only [helloTlvsFold_append, helloTlvsFold_cons, helloTlv_weight, helloTlv_maxStreams,
    helloTlv_initWindow, helloTlv_sessionWindow, helloTlv_heartbeatMs]
  -- a blob that is not in the greeting is the empty one
  split_ifs with h1 h2 h3 h2 h3
  all_goals
    simp only [helloTlvsFold, List.foldl_cons, List.foldl_nil, helloTlv_peerId, helloTlv_auth,
      helloTlv_nonce, *]

theorem helloTlvs_sized {y : Core} (hy : y.Wf) : TlvsSized (helloTlvs y) := by
  have h1 := hy.peerId
  have h2 := hy.auth
  have h3 := hy.nonce
  unfold helloBlobMax at h1 h2 h3
  unfold TlvsSized helloTlvs
  split_ifs <;> simp <;> omega

theorem helloFrame_payload_ne (y ack) : (helloFrame y ack).payload ≠ [] := by
  simp [helloFrame, helloTlvs, tlvBytes, bePut16]

/-- The greeting of a session, parsed by its peer: the peer learns the windows as they are. -/
theorem helloLoop_helloFrame {y : Core} (hy : y.Wf) (c ack) :
    helloLoop ((helloFrame y ack).payload.length + 1) c {} (helloFrame y ack).view 0
      = ({ c with peerMaxStreams := y.maxStreams, peerInitWindow := y.initWindow,
                  sessSendWin := y.sessionWindow.toNat },
         { weight := y.weight, maxStreams := y.maxStreams, initWindow := y.initWindow,
           peerId := y.peerId, auth := y.auth, nonce := y.nonce }, true) := by
  have hloop := helloLoop_walk (c := c) (e := {}) (tlvLoop_tlvs (helloTlvs_sized hy))
  rw [helloTlvsFold_helloTlvs] at hloop
  rw [Frame.view, if_neg (helloFrame_payload_ne y ack)]
  exact hloop

end Greeting

/-! ### The account of the connection -/

section Account

variable {x x' y : Core} {a : Act}

/-- What `x` hears are the frames of `y`, in order. -/
def FromPeer (x y : Core) : Act → Prop
  | .hear f => x.got ++ [f] <+: y.sent
  | .garble => False
  | _ => True

/-- The connection windows of `x`, next to its peer `y`. -/
structure Conn (x y : Core) : Prop where
  wf : x.Wf
  plain : AllPlain x
  got : x.got <+: y.sent
  early : x.peerHelloSeen = false → (Every x.tab fun _ => False) ∧ costOf x.sent = 0
    ∧ (x.dead = false → x.got = [])
  hello : x.peerHelloSeen = true → x.peerInitWindow = y.initWindow
    ∧ x.peerMaxStreams = y.maxStreams
  send : x.peerHelloSeen = true →
    x.sessSendWin + costOf x.sent = y.sessionWindow.toNat + grantsOf x.got
  room : 0 ≤ x.sessSendWin
  recv : x.sessRecvWin + deliveredBytes x.queued = x.sessionWindow.toNat + grantsOf x.sent
  heard : deliveredBytes x.queued ≤ costOf x.got

/-- What may still come, with what was delivered, is the window and the credit sent. -/
theorem Step.conn_recv (h : Step x a x') (hi : AllPlain x)
    (hr : x.sessRecvWin + deliveredBytes x.queued = x.sessionWindow.toNat + grantsOf x.sent) :
    x'.sessRecvWin + deliveredBytes x'.queued
      = x'.sessionWindow.toNat + grantsOf x'.sent := by
  cases h with
  | creditOn hg =>
    simp [hi.sids _ _ hg]
    omega
  | control _ hc =>
    simp [hc.mute.grant]
    omega
  | ping ok =>
    cases ok <;> simp [(mute_pingFrame _ _).grant, size] <;> omega
  | reset ok | refused ok | aborted ok => cases ok <;> simp [size] <;> omega
  | helloReply ok _ _ _ _ hl =>
    cases ok <;> simp [size, (mute_helloFrame _ _).grant] <;> omega
  | notice e _ _ he =>
    have hz : e.size = 0 := by rcases he with ⟨rfl, -⟩ | ⟨rfl, -⟩ <;> rfl
    simp [hz]
    omega
  | @data f | @fin f | @finLast f =>
    simp [deliveredBytes_deliver, size, -deliveredBytes_ite]
    omega
  | _ =>
    simp [size]
    omega

theorem cost_of_data {f : Frame} (hon : DataOn x f) (hr : f.has muxFRst = false) :
    f.cost = f.payload.length := by
  rw [Frame.cost, if_pos ⟨hon.type, hon.syn, hr⟩]

theorem Step.conn_heard (h : Step x a x') (hle : deliveredBytes x.queued ≤ costOf x.got) :
    deliveredBytes x'.queued ≤ costOf x'.got := by
  cases h with
  | @data f _ _ _ hon _ hr | @fin f _ _ _ hon _ hr | @finLast f _ _ _ hon _ hr =>
    simp [deliveredBytes_deliver, size, -deliveredBytes_ite, cost_of_data hon hr]
    omega
  | notice e _ _ he =>
    have hz : e.size = 0 := by rcases he with ⟨rfl, -⟩ | ⟨rfl, -⟩ <;> rfl
    simp [hz]
    omega
  | _ =>
    simp [size]
    omega

theorem Step.conn_room (h : Step x a x') (hr : 0 ≤ x.sessSendWin) : 0 ≤ x'.sessSendWin := by
  cases h with
  | wrote _ _ _ _ _ _ hle =>
    simp
    omega
  | helloBad _ _ hl | hello _ _ _ _ hl | helloReply _ _ _ _ _ hl =>
    obtain ⟨pm, pi, sw, h, hsw⟩ := helloLoop_eq hl
    have heq := congrArg sessSendWin h
    simp at heq hsw ⊢
    omega
  | credited | creditedOver =>
    simp
    omega
  | _ => simpa using hr

theorem Plain.credit_length {f : Frame} (h : Plain y f) (ht : f.type = muxTWindowUpdate) :
    f.payload.length = 4 := by
  cases h with
  | credit => rfl
  | hello => exact absurd ht (mute_helloFrame _ _).2
  | ping => exact absurd ht (mute_pingFrame _ _).2
  | _ => cases ht

theorem mem_of_hear {f} (h : FromPeer x y (.hear f)) : f ∈ y.sent :=
  h.subset (List.mem_append_right _ (List.mem_singleton_self f))

theorem hello_eq {f : Frame} {pm pi sw e b} (hy : AllPlain y) (hw : y.Wf)
    (hf : FromPeer x y (.hear f)) (ht : f.type = muxTHello ∨ f.type = muxTHelloAck)
    (hl : helloLoop (f.payload.length + 1) (x.hear f) {} f.view 0
      = ((x.hear f).setPeer pm pi sw, e, b)) :
    pm = y.maxStreams ∧ pi = y.initWindow ∧ sw = y.sessionWindow.toNat := by
  have hp := hy.sent f (mem_of_hear hf)
  cases hp with
  | hello ack =>
    rw [helloLoop_helloFrame hw] at hl
    have h := congrArg (fun r => (r.1.peerMaxStreams, r.1.peerInitWindow, r.1.sessSendWin)) hl.symm
    simpa using h
  | _ => rcases ht with ht | ht <;> cases ht

theorem Step.conn_hello (h : Step x a x') (ha : FromPeer x y a) (hy : AllPlain y) (hw : y.Wf)
    (hi : Conn x y) (hs : x'.peerHelloSeen = true) :
    x'.peerInitWindow = y.initWindow ∧ x'.peerMaxStreams = y.maxStreams := by
  cases h with
  | helloBad _ hns hl =>
    simp [hns] at hs
  | hello _ _ ht _ hl =>
    obtain ⟨rfl, rfl, rfl⟩ := hello_eq hy hw ha ht hl
    exact ⟨rfl, rfl⟩
  | helloReply _ _ _ ht _ hl =>
    obtain ⟨rfl, rfl, rfl⟩ := hello_eq hy hw ha (.inl ht) hl
    exact ⟨rfl, rfl⟩
  | _ => simpa using hi.hello (by simpa using hs)

theorem Step.conn_early (h : Step x a x') (hi : Conn x y) (hs : x'.peerHelloSeen = false) :
    (Every x'.tab fun _ => False) ∧ costOf x'.sent = 0 ∧ (x'.dead = false → x'.got = []) := by
  have he := hi.early
  cases h with
  | opened h | openFailed h => simp [h.seen] at hs
  | accepted _ h | acceptedFin _ h | acceptedRst _ h | refused _ _ h => simp [h.seen] at hs
  | data _ h | fin _ h | finLast _ h | resetBy _ _ h | aborted _ _ h | stray _ h =>
    simp [h.seen] at hs
  | credited _ h | creditedOver _ h | strayCredit _ h | creditedOn _ h | woken _ h
  | creditedOnOver _ h => simp [h.seen] at hs
  | pong _ h | ping _ _ h | notice _ _ h => simp [h] at hs
  | hello | helloReply => simp at hs
  | block hg | short hg | wrote hg | closedHalf hg | closedFull hg | reset _ _ hg | useOn _ hg
  | creditOn hg | wake hg => exact ((he (by simpa using hs)).1 _ _ hg).elim
  | helloBad _ hns hl =>
    simpa using (he hns).imp_right And.left
  | control _ hc => simpa [hc.mute.cost] using he hs
  | offend | spill | expire | garbled =>
    simpa using (he (by simpa using hs)).imp_right And.left
  | _ => simpa using he (by simpa using hs)

/-- The frames `on_window_update` is not for grant nothing, and of those it is for, only a
malformed one is an offence. -/
theorem Offends.grant {f : Frame} {code} (h : Offends x f code) (hs : x.peerHelloSeen = true)
    (hp : Plain y f) : f.grant = 0 := by
  cases h with
  | early h => simp [h] at hs
  | type _ h => exact grant_of_type h
  | hello h => rcases h with h | h <;> exact grant_of_type (by rw [h]; decide)
  | syn _ h | zero _ h | ping _ h | goaway _ h | capacity _ h =>
    exact grant_of_type (by rw [h]; decide)
  | overrun h => exact grant_of_type (by rw [h.type]; decide)
  | credit _ ht h => exact absurd (hp.credit_length ht) h

/-- What may still be sent, with what was, is the window and the credit heard. -/
theorem Step.conn_send (h : Step x a x') (ha : FromPeer x y a) (hy : AllPlain y) (hw : y.Wf)
    (hi : Conn x y) (hs : x'.peerHelloSeen = true) :
    x'.sessSendWin + costOf x'.sent = y.sessionWindow.toNat + grantsOf x'.got := by
  have hsend := hi.send
  have hdata : ∀ {f}, DataOn x f → f.grant = 0 := fun h =>
    grant_of_type (by rw [h.type]; decide)
  have hsyn : ∀ {f}, SynOk x f → f.grant = 0 := fun h => grant_of_type (by rw [h.type]; decide)
  have hother : ∀ {f : Frame}, f.sid ≠ muxSidControl → f.grant = 0 :=
    fun h => by simp [Frame.grant, h]
  have hthis : ∀ {f : Frame}, CreditOn x f → f.sid = muxSidControl →
      f.grant = (beLoad32 f.payload).toNat :=
    fun h hz => by rw [Frame.grant, if_pos ⟨h.type, hz⟩]
  cases h with
  | wrote =>
    have := hsend (by simpa using hs)
    simp
    omega
  | control _ hc =>
    have := hsend (by simpa using hs)
    simp [hc.mute.cost]
    omega
  | reset ok => simpa [apply_ite costOf] using hsend (by simpa using hs)
  | refused ok _ h | accepted _ h | acceptedFin _ h | acceptedRst _ h =>
    simpa [apply_ite costOf, hsyn h] using hsend (by simpa using hs)
  | stray _ h | resetBy _ _ h | aborted _ _ h | data _ h | fin _ h | finLast _ h =>
    simpa [apply_ite costOf, hdata h] using hsend (by simpa using hs)
  | ping _ _ _ ht =>
    have hg := grant_of_type (f := _) (by rw [ht]; decide)
    simpa [apply_ite costOf, hg, (mute_pingFrame _ _).cost] using hsend (by simpa using hs)
  | pong _ _ ht =>
    have hg := grant_of_type (f := _) (by rw [ht]; decide)
    simpa [hg] using hsend (by simpa using hs)
  | @notice f _ _ _ he =>
    have hg : f.grant = 0 := by
      rcases he with ⟨-, ht⟩ | ⟨-, ht⟩ <;> exact grant_of_type (by rw [ht]; decide)
    simpa [hg] using hsend (by simpa using hs)
  | offend _ h =>
    have hs' : x.peerHelloSeen = true := by simpa using hs
    simpa [h.grant hs' (hy.sent _ (mem_of_hear ha))] using hsend hs'
  | credited _ h hz | creditedOver _ h hz =>
    have := hsend (by simpa using hs)
    simp [hthis h hz]
    omega
  | strayCredit _ _ h | creditedOn _ _ h | woken _ _ h | creditedOnOver _ _ h =>
    simpa [hother h] using hsend (by simpa using hs)
  | helloBad _ hns hl =>
    simp [hns] at hs
  | @hello f _ _ _ _ hd hns ht _ hl =>
    obtain ⟨-, hc, hgot⟩ := hi.early hns
    obtain ⟨rfl, rfl, rfl⟩ := hello_eq hy hw ha ht hl
    have hg : f.grant = 0 := by
      rcases ht with ht | ht <;> exact grant_of_type (by rw [ht]; decide)
    simp [hc, hgot hd, hg]
  | helloReply ok hd hns ht _ hl =>
    obtain ⟨-, hc, hgot⟩ := hi.early hns
    obtain ⟨rfl, rfl, rfl⟩ := hello_eq hy hw ha (.inl ht) hl
    have hg := grant_of_type (f := _) (by rw [ht]; decide)
    simp [apply_ite costOf, hc, hgot hd, hg, (mute_helloFrame _ _).cost]
  | _ => simpa using hsend (by simpa using hs)

theorem Step.conn (h : Step x a x') (ha : FromPeer x y a) (hi : Conn x y) (hj : Conn y x) :
    Conn x' y := by
  refine ⟨h.wf hi.wf, h.allPlain hi.plain, ?_, h.conn_early hi,
    h.conn_hello ha hj.plain hj.wf hi, h.conn_send ha hj.plain hj.wf hi, h.conn_room hi.room,
    h.conn_recv hi.plain hi.recv, h.conn_heard hi.heard⟩
  rw [h.got_eq]
  cases a with
  | hear f => exact ha
  | _ => simpa [Act.heard] using hi.got

theorem Conn.peer (hj : Conn y x) (h : Step x a x') : Conn y x' := by
  have hc := h.config_eq
  simp only [config, Prod.mk.injEq] at hc
  obtain ⟨-, h1, h2, h3, -⟩ := hc
  exact { hj with
    got := hj.got.trans h.sent_prefix
    hello := by rw [h1, h3]; exact hj.hello
    send := by rw [h2]; exact hj.send }

end Account

end MuxProtocol
