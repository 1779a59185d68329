import MuxProtocol.Session
import Mathlib.Tactic.Simps.Basic

/-!
# What a session can do

The steps of a session, without its buffers and timers: a call of the host is a sequence of them,
and so is a frame processed. Every invariant of the protocol is an invariant of `Step`.
-/

namespace MuxProtocol

/-! ### The frames a session sends -/

def synFrame (sid : UInt32) (metadata : Bytes) : Frame where
  type := muxTData
  flags := muxFSyn
  sid := sid
  payload := metadata

def dataFrame (sid : UInt32) (p : Bytes) : Frame where
  type := muxTData
  flags := 0
  sid := sid
  payload := p

def finFrame (sid : UInt32) : Frame where
  type := muxTData
  flags := muxFFin
  sid := sid
  payload := []

def rstFrame (sid code : UInt32) : Frame where
  type := muxTData
  flags := muxFRst
  sid := sid
  payload := bePut32 code

def creditFrame (sid k : UInt32) : Frame where
  type := muxTWindowUpdate
  flags := 0
  sid := sid
  payload := bePut32 k

def pingFrame (flags : UInt16) (nonce : Bytes) : Frame where
  type := muxTPing
  flags := flags
  sid := muxSidControl
  payload := nonce

def goawayFrame (reason lastSid : UInt32) : Frame where
  type := muxTGoaway
  flags := 0
  sid := muxSidControl
  payload := bePut32 reason ++ bePut32 lastSid

def capacityFrame (weight : UInt32) : Frame where
  type := muxTCapacity
  flags := 0
  sid := muxSidControl
  payload := bePut32 weight

/-- The bytes of one record. -/
def tlvBytes (tv : UInt16 × Bytes) : Bytes :=
  bePut16 tv.1 ++ bePut16 (.ofNat tv.2.length) ++ tv.2

def helloFrame (c : Core) (ack : Bool) : Frame where
  type := if ack then muxTHelloAck else muxTHello
  flags := 0
  sid := muxSidControl
  payload := (helloTlvs c).flatMap tlvBytes

/-! ### Changes of the state -/

namespace Core

@[simps] def push (c : Core) (e : Event) : Core := { c with queued := c.queued ++ [e] }

@[simps] def put (c : Core) (f : Frame) : Core := { c with sent := c.sent ++ [f] }

@[simps] def hear (c : Core) (f : Frame) : Core := { c with got := c.got ++ [f] }

@[simps] def die (c : Core) (code : UInt32) : Core :=
  { c with
    dead := true
    queued := if c.dead then c.queued else c.queued ++ [.fatal code] }

/-- The output buffer refuses a frame. -/
@[simps] def spill (c : Core) : Core :=
  { c with
    overflow := true
    dead := true
    queued := if c.dead then c.queued else c.queued ++ [.fatal muxCodeInternal] }

/-- The frame is sent, or the output buffer refuses it. -/
@[simps] def tryPut (c : Core) (ok : Bool) (f : Frame) : Core :=
  { c with
    sent := if ok then c.sent ++ [f] else c.sent
    overflow := c.overflow || !ok
    dead := c.dead || !ok
    queued := if ok || c.dead then c.queued else c.queued ++ [.fatal muxCodeInternal] }

/-- The session greets. -/
@[simps] def greet (c : Core) (ack ok : Bool) : Core :=
  { c.tryPut ok (helloFrame c ack) with helloSent := c.helloSent || ok }

@[simps] def edit (c : Core) (i : ℕ) (g : MuxStream → MuxStream) : Core :=
  { c with tab := c.tab.modify i g }

@[simps] def drop (c : Core) (i : ℕ) : Core :=
  { c with
    blockedCount :=
      if (c.tab.get i).any (·.sendBlocked) then c.blockedCount - 1 else c.blockedCount
    tab := c.tab.remove i }

@[simps] def block (c : Core) (i : ℕ) : Core :=
  { c with
    tab := c.tab.modify i fun st => { st with sendBlocked := true }
    blockedCount := c.blockedCount + 1 }

@[simps] def unblock (c : Core) (i : ℕ) : Core :=
  { c with
    tab := c.tab.modify i fun st => { st with sendBlocked := false }
    blockedCount := c.blockedCount - 1 }

/-- `n` bytes sent on the stream of slot `i`. -/
@[simps] def debit (c : Core) (i n : ℕ) : Core :=
  { c with
    tab := c.tab.modify i fun st => { st with sendWin := st.sendWin - n }
    sessSendWin := c.sessSendWin - n }

/-- The payload of a frame, if it has one, delivered on the stream of slot `i`. -/
@[simps] def deliver (c : Core) (i : ℕ) (f : Frame) : Core :=
  { c with
    tab := c.tab.modify i fun st =>
      { st with
        recvWin := st.recvWin - f.payload.length
        delivered := st.delivered + f.payload.length }
    sessRecvWin := c.sessRecvWin - f.payload.length
    queued := if f.payload = [] then c.queued else c.queued ++ [.data f.sid f.payload] }

/-- An id of our own is taken, and its record is in the table. -/
@[simps] def alloc (c : Core) (t : LinearProbe.Table MuxStream) : Core :=
  { c with tab := t, nextLocalSid := c.nextLocalSid + 2 }

/-- An id of the peer is taken. -/
@[simps] def seeSid (c : Core) (sid : UInt32) : Core := { c with maxRemoteSid := sid }

@[simps] def setTab (c : Core) (t : LinearProbe.Table MuxStream) : Core := { c with tab := t }

@[simps] def seeHello (c : Core) : Core := { c with peerHelloSeen := true }

/-- The limits of the peer's greeting. -/
@[simps] def setPeer (c : Core) (pm pi : UInt32) (sw : ℤ) : Core :=
  { c with peerMaxStreams := pm, peerInitWindow := pi, sessSendWin := sw }

@[simps] def noteAbort (c : Core) (code : UInt32) : Core := { c with aborts := c.aborts ++ [code] }

/-- The peer's credit to the connection. -/
@[simps] def raise (c : Core) (n : ℕ) : Core := { c with sessSendWin := c.sessSendWin + n }

/-- The host has consumed `n` bytes. -/
@[simps] def use (c : Core) (n : ℕ) : Core :=
  { c with sessRecvPending := c.sessRecvPending + toInt64 n, consumed := c.consumed + n }

/-- Our credit to the peer's connection. -/
@[simps] def grant (c : Core) (n : ℕ) : Core :=
  { c with sessRecvWin := c.sessRecvWin + n, sessRecvPending := c.sessRecvPending - n }

@[simps] def drain (c : Core) : Core := { c with localGoaway := true }

end Core

/-! ### Frames that are accepted, and frames that are not -/

/-- `mux_open` passes its checks. -/
structure OpenOk (c : Core) (metadata : Bytes) : Prop where
  alive : c.dead = false
  seen : c.peerHelloSeen = true
  staying : c.localGoaway = false
  bounded : metadata.length ≤ muxMaxMeta
  room : c.tab.count < c.peerMaxStreams.toNat
  sid_ne : c.nextLocalSid ≠ muxSidControl

/-- A stream of the peer is not refused. -/
structure Admits (c : Core) : Prop where
  room : c.tab.count < c.maxStreams.toNat
  staying : c.localGoaway = false

/-- What `mux_session_new` fixes. -/
def Core.config (c : Core) :
    MuxRole × UInt32 × UInt32 × UInt32 × UInt32 × UInt32 × Bytes × Bytes × Bytes :=
  (c.role, c.initWindow, c.sessionWindow, c.maxStreams, c.weight, c.heartbeatMs, c.peerId, c.auth,
    c.nonce)

/-- A frame that opens a stream and passes the checks. -/
structure SynOk (c : Core) (f : Frame) : Prop where
  seen : c.peerHelloSeen = true
  type : f.type = muxTData
  syn : f.has muxFSyn = true
  parity : f.sid &&& 1 = peerParity c.role
  sid_ne : f.sid ≠ muxSidControl
  absent : stFind c.tab f.sid = none
  fresh : c.maxRemoteSid < f.sid
  bounded : f.payload.length ≤ muxMaxMeta

/-- A frame of data that opens no stream. -/
structure DataOn (c : Core) (f : Frame) : Prop where
  seen : c.peerHelloSeen = true
  type : f.type = muxTData
  syn : f.has muxFSyn = false
  sid_ne : f.sid ≠ muxSidControl

/-- The payload, if there is one, is within both windows and before the peer's FIN. -/
structure Fits (c : Core) (f : Frame) (st : MuxStream) : Prop where
  life : f.payload ≠ [] → st.life ≠ .hclRemote
  sess : f.payload ≠ [] → (f.payload.length : ℤ) ≤ c.sessRecvWin
  strm : f.payload ≠ [] → (f.payload.length : ℤ) ≤ st.recvWin

/-- The credit of a frame. -/
structure CreditOn (c : Core) (f : Frame) : Prop where
  seen : c.peerHelloSeen = true
  type : f.type = muxTWindowUpdate
  four : f.payload.length = 4

/-- The frames answered with `FATAL`, with its code. -/
inductive Offends (c : Core) (f : Frame) : UInt32 → Prop
  | early : c.peerHelloSeen = false → f.type ≠ muxTHello → f.type ≠ muxTHelloAck →
      Offends c f muxCodeProtocol
  | type : f.type ≠ muxTData → f.type ≠ muxTWindowUpdate → f.type ≠ muxTPing →
      f.type ≠ muxTGoaway → f.type ≠ muxTHello → f.type ≠ muxTHelloAck →
      f.type ≠ muxTCapacity → Offends c f muxCodeProtocol
  | hello : f.type = muxTHello ∨ f.type = muxTHelloAck →
      f.sid ≠ muxSidControl ∨ c.peerHelloSeen = true → Offends c f muxCodeProtocol
  | syn : c.peerHelloSeen = true → f.type = muxTData → f.has muxFSyn = true →
      (f.sid &&& 1 ≠ peerParity c.role ∨ f.sid = muxSidControl ∨ (stFind c.tab f.sid).isSome
        ∨ f.sid ≤ c.maxRemoteSid ∨ f.payload.length > muxMaxMeta) → Offends c f muxCodeProtocol
  | zero : c.peerHelloSeen = true → f.type = muxTData → f.has muxFSyn = false →
      f.sid = muxSidControl → Offends c f muxCodeProtocol
  | overrun {i : ℕ} {st : MuxStream} : DataOn c f → stFind c.tab f.sid = some (i, st) →
      f.has muxFRst = false → f.payload ≠ [] → st.life ≠ .hclRemote →
      c.sessRecvWin < f.payload.length → Offends c f muxCodeFlowControl
  | credit : c.peerHelloSeen = true → f.type = muxTWindowUpdate → f.payload.length ≠ 4 →
      Offends c f muxCodeProtocol
  | ping : c.peerHelloSeen = true → f.type = muxTPing →
      f.sid ≠ muxSidControl ∨ f.payload.length ≠ 8 → Offends c f muxCodeProtocol
  | goaway : c.peerHelloSeen = true → f.type = muxTGoaway →
      f.sid ≠ muxSidControl ∨ f.payload.length < 8 → Offends c f muxCodeProtocol
  | capacity : c.peerHelloSeen = true → f.type = muxTCapacity →
      f.sid ≠ muxSidControl ∨ f.payload.length ≠ 4 → Offends c f muxCodeProtocol

/-- Why `on_data` resets a live stream, with the code it sends. -/
inductive Aborts (c : Core) (f : Frame) (st : MuxStream) : UInt32 → Prop
  | life : st.life = .hclRemote → Aborts c f st muxCodeProtocol
  | overrun : st.life ≠ .hclRemote → (f.payload.length : ℤ) ≤ c.sessRecvWin →
      st.recvWin < f.payload.length → Aborts c f st muxCodeFlowControl

/-! ### Steps -/

/-- What of a step its environment decides: the frame processed or that the bytes are none, that
the host opens a stream, writes or closes its side of one, the bytes it consumes (of the connection,
of the stream of a slot) and that the connection is credited for them, or that it asks for a control
frame. -/
inductive Act where
  | tau
  | open
  | hear (f : Frame)
  | garble
  | write
  | close (sid : UInt32)
  | use (n : ℕ)
  | useOn (i n : ℕ)
  | credit
  | control

/-- The control frames a host asks for. -/
inductive Control : Frame → Prop
  | capacity (weight : UInt32) : Control (capacityFrame weight)
  | goaway (reason lastSid : UInt32) : Control (goawayFrame reason lastSid)
  | ping (nonce : Bytes) : nonce.length = 8 → Control (pingFrame 0 nonce)

inductive Step : Core → Act → Core → Prop
  -- the host
  | opened {c : Core} {t i metadata} : OpenOk c metadata →
      stInsert c.tab (freshStream c c.nextLocalSid) = (t, some i) →
      Step c .open ((c.alloc t).put (synFrame c.nextLocalSid metadata))
  | openFailed {c : Core} {t i metadata} : OpenOk c metadata →
      stInsert c.tab (freshStream c c.nextLocalSid) = (t, some i) →
      Step c .open ((c.alloc t).spill.drop i)
  | block {c : Core} {i st} : c.tab.get i = some st → st.sendBlocked = false →
      st.sendWin ≤ 0 ∨ c.sessSendWin ≤ 0 → Step c .tau (c.block i)
  | short {c : Core} {i st} : c.tab.get i = some st → st.sendBlocked = true ∨ c.dead = true →
      Step c .tau (c.edit i fun st => { st with shortAt := some c.queued.length })
  | wrote {c : Core} {i st} {p : Bytes} : c.tab.get i = some st → c.dead = false →
      st.life ≠ .hclLocal → p ≠ [] → p.length ≤ muxMaxDataFrame → p.length ≤ st.sendWin →
      p.length ≤ c.sessSendWin →
      Step c .write ((c.debit i p.length).put (dataFrame st.sid p))
  | closedHalf {c : Core} {i st} : c.tab.get i = some st → c.dead = false → st.life = .open →
      Step c (.close st.sid)
        ((c.put (finFrame st.sid)).edit i fun st => { st with life := .hclLocal })
  | closedFull {c : Core} {i st} : c.tab.get i = some st → c.dead = false →
      st.life = .hclRemote → Step c (.close st.sid) ((c.put (finFrame st.sid)).drop i)
  | reset {c : Core} {i st} (ok : Bool) (code : UInt32) : c.tab.get i = some st →
      c.dead = false → Step c .tau ((c.tryPut ok (rstFrame st.sid code)).drop i)
  | use {c : Core} (n : ℕ) : c.dead = false → Step c (.use n) (c.use n)
  | credit {c : Core} {k : UInt32} : 0 < k.toNat → k.toNat ≤ c.sessRecvPending →
      Step c .credit ((c.grant k.toNat).put (creditFrame muxSidControl k))
  | useOn {c : Core} {i st} (n : ℕ) : c.tab.get i = some st →
      Step c (.useOn i n) (c.edit i fun st =>
        { st with recvPending := st.recvPending + toInt64 n, consumed := st.consumed + n })
  | creditOn {c : Core} {i st} {k : UInt32} : c.tab.get i = some st → 0 < k.toNat →
      k.toNat ≤ st.recvPending →
      Step c .tau ((c.edit i fun st =>
        { st with recvWin := st.recvWin + k.toNat, recvPending := st.recvPending - k.toNat }).put
          (creditFrame st.sid k))
  | control {c : Core} {f} : c.dead = false → Control f → Step c .control (c.put f)
  | drain {c : Core} : Step c .tau c.drain
  | spill {c : Core} : Step c .tau c.spill
  | expire {c : Core} : c.dead = false → Step c .tau (c.die muxCodeInternal)
  | wake {c : Core} {i st} : c.tab.get i = some st → st.sendBlocked = true → 0 < st.sendWin →
      Step c .tau ((c.unblock i).push (.writable st.sid))
  -- bytes received
  | garbled {c : Core} : c.dead = false → Step c .garble (c.die muxCodeProtocol)
  | offend {c : Core} {f code} : c.dead = false → Offends c f code →
      Step c (.hear f) ((c.hear f).die code)
  | helloBad {c : Core} {f pm pi sw e} : c.dead = false → c.peerHelloSeen = false →
      helloLoop (f.payload.length + 1) (c.hear f) {} f.view 0
        = ((c.hear f).setPeer pm pi sw, e, false) →
      Step c (.hear f) (((c.hear f).setPeer pm pi sw).die muxCodeProtocol)
  | hello {c : Core} {f pm pi sw e} : c.dead = false → c.peerHelloSeen = false →
      f.type = muxTHello ∨ f.type = muxTHelloAck → f.sid = muxSidControl →
      helloLoop (f.payload.length + 1) (c.hear f) {} f.view 0
        = ((c.hear f).setPeer pm pi sw, e, true) →
      (f.type = muxTHello → c.role = .acceptor → c.helloSent = true) →
      Step c (.hear f) (((c.hear f).setPeer pm pi sw).seeHello.push e.event)
  | helloReply {c : Core} {f pm pi sw e} (ok : Bool) : c.dead = false →
      c.peerHelloSeen = false → f.type = muxTHello → f.sid = muxSidControl →
      helloLoop (f.payload.length + 1) (c.hear f) {} f.view 0
        = ((c.hear f).setPeer pm pi sw, e, true) →
      c.role = .acceptor → c.helloSent = false →
      Step c (.hear f) ((((c.hear f).setPeer pm pi sw).seeHello.push e.event).greet true ok)
  | refused {c : Core} {f} (ok : Bool) : c.dead = false → SynOk c f →
      c.maxStreams.toNat ≤ c.tab.count ∨ c.localGoaway = true →
      Step c (.hear f) (((c.hear f).tryPut ok (rstFrame f.sid muxCodeRefused)).seeSid f.sid)
  | accepted {c : Core} {f t i} : c.dead = false → SynOk c f → Admits c →
      f.has muxFRst = false → f.has muxFFin = false →
      stInsert c.tab (freshStream c f.sid) = (t, some i) →
      Step c (.hear f) ((((c.hear f).setTab t).seeSid f.sid).push (.opened f.sid f.payload))
  | acceptedFin {c : Core} {f t i} : c.dead = false → SynOk c f → Admits c →
      f.has muxFRst = false → f.has muxFFin = true →
      stInsert c.tab (freshStream c f.sid) = (t, some i) →
      Step c (.hear f)
        ((((((c.hear f).setTab t).seeSid f.sid).push (.opened f.sid f.payload)).edit i
          fun st => { st with life := .hclRemote }).push (.closed f.sid))
  | acceptedRst {c : Core} {f t i} : c.dead = false → SynOk c f → Admits c →
      f.has muxFRst = true → stInsert c.tab (freshStream c f.sid) = (t, some i) →
      Step c (.hear f)
        ((((((c.hear f).setTab t).seeSid f.sid).push (.opened f.sid f.payload)).push
          (.reset f.sid 0)).drop i)
  | stray {c : Core} {f} : c.dead = false → DataOn c f → stFind c.tab f.sid = none →
      Step c (.hear f) (c.hear f)
  | resetBy {c : Core} {f i st} (code : UInt32) : c.dead = false → DataOn c f →
      stFind c.tab f.sid = some (i, st) → f.has muxFRst = true →
      Step c (.hear f) (((c.hear f).push (.reset f.sid code)).drop i)
  | aborted {c : Core} {f i st code} (ok : Bool) : c.dead = false → DataOn c f →
      stFind c.tab f.sid = some (i, st) → f.has muxFRst = false → f.payload ≠ [] →
      Aborts c f st code →
      Step c (.hear f)
        (((((c.hear f).noteAbort code).tryPut ok (rstFrame f.sid code)).push
          (.reset f.sid 0)).drop i)
  | data {c : Core} {f i st} : c.dead = false → DataOn c f → stFind c.tab f.sid = some (i, st) →
      f.has muxFRst = false → Fits c f st → f.has muxFFin = false →
      Step c (.hear f) ((c.hear f).deliver i f)
  | fin {c : Core} {f i st} : c.dead = false → DataOn c f → stFind c.tab f.sid = some (i, st) →
      f.has muxFRst = false → Fits c f st → f.has muxFFin = true → st.life ≠ .hclLocal →
      Step c (.hear f) ((((c.hear f).deliver i f).push (.closed f.sid)).edit i
        fun st => { st with life := .hclRemote })
  | finLast {c : Core} {f i st} : c.dead = false → DataOn c f →
      stFind c.tab f.sid = some (i, st) → f.has muxFRst = false → Fits c f st →
      f.has muxFFin = true → st.life = .hclLocal →
      Step c (.hear f) ((((c.hear f).deliver i f).push (.closed f.sid)).drop i)
  | credited {c : Core} {f} : c.dead = false → CreditOn c f → f.sid = muxSidControl →
      c.sessSendWin + (beLoad32 f.payload).toNat ≤ windowLimit →
      (c.sessSendWin ≤ 0 → 0 < c.sessSendWin + (beLoad32 f.payload).toNat → c.blockedCount = 0
        ∨ ∀ i st, c.tab.get i = some st → st.sendBlocked = true → st.sendWin ≤ 0) →
      Step c (.hear f) ((c.hear f).raise (beLoad32 f.payload).toNat)
  | creditedOver {c : Core} {f} : c.dead = false → CreditOn c f → f.sid = muxSidControl →
      windowLimit < c.sessSendWin + (beLoad32 f.payload).toNat →
      Step c (.hear f) (((c.hear f).raise (beLoad32 f.payload).toNat).die muxCodeFlowControl)
  | strayCredit {c : Core} {f} : c.dead = false → CreditOn c f → f.sid ≠ muxSidControl →
      stFind c.tab f.sid = none → Step c (.hear f) (c.hear f)
  | creditedOn {c : Core} {f i st} : c.dead = false → CreditOn c f → f.sid ≠ muxSidControl →
      stFind c.tab f.sid = some (i, st) →
      st.sendWin + (beLoad32 f.payload).toNat ≤ windowLimit →
      (st.sendBlocked = true → 0 < st.sendWin + (beLoad32 f.payload).toNat →
        c.sessSendWin ≤ 0) →
      Step c (.hear f) ((c.hear f).edit i fun st =>
        { st with sendWin := st.sendWin + (beLoad32 f.payload).toNat })
  | woken {c : Core} {f i st} : c.dead = false → CreditOn c f → f.sid ≠ muxSidControl →
      stFind c.tab f.sid = some (i, st) →
      st.sendWin + (beLoad32 f.payload).toNat ≤ windowLimit → st.sendBlocked = true →
      Step c (.hear f) ((((c.hear f).edit i fun st =>
        { st with sendWin := st.sendWin + (beLoad32 f.payload).toNat }).unblock i).push
          (.writable f.sid))
  | creditedOnOver {c : Core} {f i st} : c.dead = false → CreditOn c f → f.sid ≠ muxSidControl →
      stFind c.tab f.sid = some (i, st) →
      windowLimit < st.sendWin + (beLoad32 f.payload).toNat →
      Step c (.hear f) (((c.hear f).edit i fun st =>
        { st with sendWin := st.sendWin + (beLoad32 f.payload).toNat }).die muxCodeFlowControl)
  | pong {c : Core} {f} : c.dead = false → c.peerHelloSeen = true → f.type = muxTPing →
      Step c (.hear f) (c.hear f)
  | ping {c : Core} {f} (ok : Bool) : c.dead = false → c.peerHelloSeen = true →
      f.type = muxTPing → f.payload.length = 8 →
      Step c (.hear f) ((c.hear f).tryPut ok (pingFrame muxFAck f.payload))
  | notice {c : Core} {f} (e : Event) : c.dead = false → c.peerHelloSeen = true →
      (e = .goaway (beLoad32 f.payload) (beLoad32 (f.payload.drop 4)) ∧ f.type = muxTGoaway)
        ∨ (e = .capacity (beLoad32 f.payload) ∧ f.type = muxTCapacity) →
      Step c (.hear f) ((c.hear f).push e)

/-! ### The frames of a call -/

/-- Every frame that `recvLoop` processes satisfies `P` in the session that meets it, and bytes that
are no frame are met only where `garbled` allows it. -/
def EachFrame (P : Session → Frame → Prop) (garbled : Prop) : ℕ → Session → Bytes → Prop
  | 0, _, _ => True
  | n + 1, s, buf =>
    if buf = [] ∨ s.q.count ≥ muxEventQueueSoftCap then True
    else
      match muxParse buf with
      | .error .short => True
      | .error _ => garbled
      | .ok (f, used) =>
        P s f ∧ ((processFrame s f).dead = false →
          EachFrame P garbled n (processFrame s f) (buf.drop used))

instance EachFrame.decidable (P : Session → Frame → Prop) (garbled : Prop)
    [∀ s f, Decidable (P s f)] [Decidable garbled] :
    ∀ (n : ℕ) (s : Session) (buf : Bytes), Decidable (EachFrame P garbled n s buf)
  | 0, _, _ => inferInstanceAs (Decidable True)
  | n + 1, s, buf =>
    have : Decidable (match muxParse buf with
        | .error .short => True
        | .error _ => garbled
        | .ok (f, used) => P s f ∧ ((processFrame s f).dead = false →
          EachFrame P garbled n (processFrame s f) (buf.drop used))) :=
      match muxParse buf with
      | .error .short => inferInstanceAs (Decidable True)
      | .error .proto | .error .nospace | .error .param | .error .state | .error .nomem
      | .error .nostream => inferInstanceAs (Decidable garbled)
      | .ok (f, used) =>
        have := EachFrame.decidable P garbled n (processFrame s f) (buf.drop used)
        inferInstanceAs (Decidable (P s f ∧ ((processFrame s f).dead = false → _)))
    inferInstanceAs (Decidable (if buf = [] ∨ s.q.count ≥ muxEventQueueSoftCap then True else _))

end MuxProtocol
