import MuxProtocol.Frame
import MuxProtocol.Lib.LinearProbe
import MuxProtocol.Lib.RingQueue

/-!
# The session state machine

The model of `session.c`: stream lifecycle, two-level flow control, handshake and keepalive over
the framing codec. A session does no I/O. The host feeds it transport bytes (`muxRecv`) and time
(`muxOnTimer`), calls the stream operations, takes the bytes to send (`muxSendBuf`,
`muxSendAdvance`) and takes the events (`muxNextEvent`).

Allocations succeed, so the only failures of the output buffer are at its configured ceiling.
Window counters are `int64_t` in the source and integers here. The fields marked as history
record what has happened and are read by no branch.
-/

namespace MuxProtocol

open LinearProbe

/-! ### Constants -/

def muxDefaultInitWindow : UInt32 := 262144
def muxDefaultSessionWindow : UInt32 := 16777216
def muxDefaultMaxStreams : UInt32 := 65536
def muxMaxDataFrame : ℕ := 65536
def muxMaxMeta : ℕ := 8192
def muxDefaultMaxOutBuffer : UInt32 := 67108864
def muxEventQueueSoftCap : ℕ := 4096
def helloBlobMax : ℕ := 256

def muxCodeNoError : UInt32 := 0
def muxCodeProtocol : UInt32 := 1
def muxCodeFlowControl : UInt32 := 2
def muxCodeInternal : UInt32 := 4
def muxCodeRefused : UInt32 := 5

inductive MuxRole where
  | dialer
  | acceptor
  deriving DecidableEq, Repr

/-- `MUX_EV_*`, each with its member of the union. -/
inductive Event where
  | opened (sid : UInt32) (metadata : Bytes)
  | data (sid : UInt32) (bytes : Bytes)
  | closed (sid : UInt32)
  | reset (sid : UInt32) (code : UInt32)
  | writable (sid : UInt32)
  | peerHello (weight maxStreams initWindow : UInt32) (peerId auth nonce : Bytes)
  | capacity (weight : UInt32)
  | goaway (reason lastSid : UInt32)
  | fatal (code : UInt32)
  deriving DecidableEq, Repr

structure MuxConfig where
  initWindow : UInt32 := 0
  sessionWindow : UInt32 := 0
  maxStreams : UInt32 := 0
  heartbeatMs : UInt32 := 0
  keepaliveTimeoutMs : UInt32 := 0
  weight : UInt32 := 0
  maxOutBuffer : UInt32 := 0
  peerId : Bytes := []
  auth : Bytes := []
  nonce : Bytes := []

/-! ### Internal data structures -/

inductive Life where
  | open
  | hclLocal
  | hclRemote
  deriving DecidableEq, Repr

structure MuxStream where
  sid : UInt32
  life : Life
  sendBlocked : Bool
  sendWin : ℤ
  recvWin : ℤ
  recvPending : ℤ
  /-- History: the bytes of its `STREAM_DATA` events. -/
  delivered : ℕ
  /-- History: the bytes of the `mux_consume` calls that found it. -/
  consumed : ℕ
  /-- History: how many events were queued when `mux_write` last returned less than asked. -/
  shortAt : Option ℕ
  deriving DecidableEq, Repr

/-- The output buffer; `data` are its first `len` bytes. -/
structure OutBuf where
  data : Bytes
  cap : ℕ
  spos : ℕ
  deriving DecidableEq, Repr

/-- The part of the session that the protocol is about. -/
structure Core where
  role : MuxRole
  dead : Bool
  initWindow : UInt32
  sessionWindow : UInt32
  maxStreams : UInt32
  peerInitWindow : UInt32
  peerMaxStreams : UInt32
  sessSendWin : ℤ
  sessRecvWin : ℤ
  sessRecvPending : ℤ
  blockedCount : ℕ
  peerHelloSeen : Bool
  helloSent : Bool
  localGoaway : Bool
  peerId : Bytes
  auth : Bytes
  nonce : Bytes
  weight : UInt32
  heartbeatMs : UInt32
  nextLocalSid : UInt32
  maxRemoteSid : UInt32
  tab : Table MuxStream
  /-- History: the frames whose `emit` returned 0. -/
  sent : List Frame
  /-- History: the frames handed to `process_frame`. -/
  got : List Frame
  /-- History: the events queued. -/
  queued : List Event
  /-- History: the bytes of all `mux_consume` calls. -/
  consumed : ℕ
  /-- History: the codes of the resets `on_data` started. -/
  aborts : List UInt32
  /-- History: the output buffer has refused a frame at its ceiling. -/
  overflow : Bool

/-- What a session was at one moment, its two buffers and its configuration apart. -/
structure Snapshot extends Core where
  timerStarted : Bool
  pingOutstanding : Bool
  pingDueMs : UInt64
  pingSentMs : UInt64
  pingNonce : UInt64

/-- `struct mux_session`: the protocol's part, keepalive, and the two buffers. -/
structure Session extends Core where
  keepaliveTimeoutMs : UInt32
  timerStarted : Bool
  pingOutstanding : Bool
  pingDueMs : UInt64
  pingSentMs : UInt64
  pingNonce : UInt64
  maxOutBuffer : UInt32
  out : OutBuf
  q : RingQueue Event
  /-- History: the session as `raise_fatal` found it, with the bytes it had still to send. -/
  fell : Option (Snapshot × Bytes) := none

def Session.snapshot (s : Session) : Snapshot where
  toCore := s.toCore
  timerStarted := s.timerStarted
  pingOutstanding := s.pingOutstanding
  pingDueMs := s.pingDueMs
  pingSentMs := s.pingSentMs
  pingNonce := s.pingNonce

def muxSendBuf (s : Session) : Bytes := s.out.data.drop s.out.spos

/-! ### Event queue -/

def evqPush (s : Session) (e : Event) : Session :=
  { s with q := s.q.push e, queued := s.queued ++ [e] }

def raiseFatal (s : Session) (code : UInt32) : Session :=
  if s.dead then s
  else evqPush { s with dead := true, fell := some (s.snapshot, muxSendBuf s) } (.fatal code)

/-! ### Output buffer -/

/-- Double `c` until it reaches `want`. -/
def growTo (want : ℕ) : ℕ → ℕ → ℕ
  | 0, c => c
  | n + 1, c => if c < want then growTo want n (c * 2) else c

def obGrow (o : OutBuf) (need limit : ℕ) : OutBuf × Except MuxErr Unit :=
  let total := o.data.length + need
  if limit ≠ 0 ∧ total > limit then (o, .error .nospace)
  else ({ o with cap := growTo total total (if o.cap = 0 then 4096 else o.cap) }, .ok ())

def obReserve (o : OutBuf) (need limit : ℕ) : OutBuf × Except MuxErr Unit :=
  if o.data.length + need ≤ o.cap then (o, .ok ())
  else if 0 < o.spos then
    -- compact the bytes already sent before growing
    let o := { o with data := o.data.drop o.spos, spos := 0 }
    if o.data.length + need ≤ o.cap then (o, .ok ()) else obGrow o need limit
  else obGrow o need limit

/-- Append one frame to the output buffer. Past the ceiling the session is failed. -/
def emit (s : Session) (type : UInt8) (flags : UInt16) (sid : UInt32) (payload : Bytes) :
    Session × Except MuxErr Unit :=
  match obReserve s.out (muxHeaderSize + payload.length) s.maxOutBuffer.toNat with
  | (out, .error _) =>
    (raiseFatal { s with out, overflow := true } muxCodeInternal, .error .nospace)
  | (out, .ok ()) =>
    match muxCraft (out.cap - out.data.length) type flags sid payload with
    | .error e => ({ s with out }, .error e)
    | .ok bytes =>
      ({ s with
          out := { out with data := out.data ++ bytes }
          sent := s.sent ++ [{ type, flags, sid, payload }] }, .ok ())

/-! ### Stream table -/

def mixSid (sid : UInt32) : ℕ := ((sid.toUInt64 * 0x9e3779b97f4a7c15) >>> 32).toNat

/-- The slot of the stream and its record. -/
def stFind (t : Table MuxStream) (sid : UInt32) : Option (ℕ × MuxStream) :=
  (t.find mixSid MuxStream.sid sid).bind fun i => (t.get i).map (i, ·)

def stGrow (t : Table MuxStream) (wantCap : ℕ) : Table MuxStream :=
  t.rehashed mixSid MuxStream.sid (growTo wantCap wantCap (if t.cap = 0 then 64 else t.cap))

/-- Write the record of a fresh stream; the caller has checked that its id is absent. -/
def stInsert (t : Table MuxStream) (st : MuxStream) : Table MuxStream × Option ℕ :=
  let t :=
    if (t.count + t.tombs + 1) * 4 ≥ t.cap * 3 then stGrow t (max ((t.count + 1) * 2) 64) else t
  t.insert mixSid MuxStream.sid st

def stRemove (s : Session) (i : ℕ) : Session :=
  match s.tab.get i with
  | none => s
  | some st =>
    { s with
      blockedCount := if st.sendBlocked then s.blockedCount - 1 else s.blockedCount
      tab := s.tab.remove i }

/-- Mark or unmark the stream of slot `i` as blocked. -/
def setBlocked (s : Session) (i : ℕ) (blocked : Bool) : Session :=
  match s.tab.get i with
  | none => s
  | some st =>
    if blocked ∧ ¬ st.sendBlocked then
      { s with
        tab := s.tab.modify i fun st => { st with sendBlocked := true }
        blockedCount := s.blockedCount + 1 }
    else if ¬ blocked ∧ st.sendBlocked then
      { s with
        tab := s.tab.modify i fun st => { st with sendBlocked := false }
        blockedCount := s.blockedCount - 1 }
    else s

/-- The record of a stream just opened, by either side. -/
def freshStream (c : Core) (sid : UInt32) : MuxStream where
  sid := sid
  life := .open
  sendBlocked := false
  sendWin := c.peerInitWindow.toNat
  recvWin := c.initWindow.toNat
  recvPending := 0
  delivered := 0
  consumed := 0
  shortAt := none

/-! ### Handshake -/

/-- The records of a greeting, a blob only where it is not empty. -/
def helloTlvs (c : Core) : List (UInt16 × Bytes) :=
  [(muxTlvWeight, bePut32 c.weight), (muxTlvMaxStreams, bePut32 c.maxStreams),
    (muxTlvInitWindow, bePut32 c.initWindow), (muxTlvSessionWindow, bePut32 c.sessionWindow),
    (muxTlvHeartbeatMs, bePut32 c.heartbeatMs)]
  ++ (if c.peerId = [] then [] else [(muxTlvPeerId, c.peerId)])
  ++ (if c.auth = [] then [] else [(muxTlvAuth, c.auth)])
  ++ (if c.nonce = [] then [] else [(muxTlvNonce, c.nonce)])

/-- `muxTlvPut` chained over the records, from offset `off`. -/
def putTlvs : List (UInt16 × Bytes) → Bytes → ℕ → Except MuxErr (Bytes × ℕ)
  | [], blob, off => .ok (blob, off)
  | (t, v) :: tlvs, blob, off =>
    match muxTlvPut blob off t v with
    | (_, .error e) => .error e
    | (blob, .ok off) => putTlvs tlvs blob off

def sendHello (s : Session) (ack : Bool) : Session × Except MuxErr Unit :=
  match putTlvs (helloTlvs s.toCore) (List.replicate 1024 0) 0 with
  | .error e => (s, .error e)
  | .ok (blob, off) =>
    match emit s (if ack then muxTHelloAck else muxTHello) 0 muxSidControl (blob.take off) with
    | (s, .error e) => (s, .error e)
    | (s, .ok ()) => ({ s with helloSent := true }, .ok ())

/-- The `PEER_HELLO` event under construction. -/
structure HelloInfo where
  weight : UInt32 := 0
  maxStreams : UInt32 := 0
  initWindow : UInt32 := 0
  peerId : Bytes := []
  auth : Bytes := []
  nonce : Bytes := []

@[simp] def HelloInfo.event (e : HelloInfo) : Event :=
  .peerHello e.weight e.maxStreams e.initWindow e.peerId e.auth e.nonce

/-- One record of the peer's greeting. -/
def helloTlv (c : Core) (e : HelloInfo) (t : UInt16) (val : Bytes) : Core × HelloInfo :=
  if t = muxTlvWeight then
    if val.length = 4 then (c, { e with weight := beLoad32 val }) else (c, e)
  else if t = muxTlvMaxStreams then
    if val.length = 4 then
      ({ c with peerMaxStreams := beLoad32 val }, { e with maxStreams := beLoad32 val })
    else (c, e)
  else if t = muxTlvInitWindow then
    if val.length = 4 then
      ({ c with peerInitWindow := beLoad32 val }, { e with initWindow := beLoad32 val })
    else (c, e)
  else if t = muxTlvSessionWindow then
    if val.length = 4 then ({ c with sessSendWin := (beLoad32 val).toNat }, e) else (c, e)
  else if t = muxTlvPeerId then (c, { e with peerId := val })
  else if t = muxTlvAuth then (c, { e with auth := val })
  else if t = muxTlvNonce then (c, { e with nonce := val })
  else (c, e)

/-- The loop over the records of a greeting; the flag is whether it reached the end. Each record
takes at least 4 bytes, so the payload's length is enough fuel. -/
def helloLoop : ℕ → Core → HelloInfo → Option Bytes → ℕ → Core × HelloInfo × Bool
  | 0, c, e, _, _ => (c, e, false)
  | n + 1, c, e, payload, cursor =>
    match muxTlvNext payload cursor with
    | .error _ => (c, e, false)
    | .ok none => (c, e, true)
    | .ok (some (t, val, cursor)) =>
      let (c, e) := helloTlv c e t val
      helloLoop n c e payload cursor

def onHello (s : Session) (f : Frame) (ack : Bool) : Session :=
  if f.sid ≠ muxSidControl then raiseFatal s muxCodeProtocol
  else if s.peerHelloSeen then raiseFatal s muxCodeProtocol
  else
    match helloLoop (f.payload.length + 1) s.toCore {} f.view 0 with
    | (c, _, false) => raiseFatal { s with toCore := c } muxCodeProtocol
    | (c, e, true) =>
      let s := evqPush { s with toCore := { c with peerHelloSeen := true } } e.event
      if ¬ ack ∧ s.role = .acceptor ∧ ¬ s.helloSent then (sendHello s true).1 else s

/-! ### Flow-control crediting -/

/-- `credit_emit`: the session, the window and what is still pending. A round takes
`0xFFFFFFFF` of the credit or all of it. -/
def creditEmit : ℕ → Session → UInt32 → ℤ → ℤ → Session × ℤ × ℤ
  | 0, s, _, win, pending => (s, win, pending)
  | n + 1, s, sid, win, pending =>
    if 0 < pending then
      let chunk : UInt32 := if pending > 0xFFFFFFFF then 0xFFFFFFFF else .ofNat pending.toNat
      match emit s muxTWindowUpdate 0 sid (bePut32 chunk) with
      | (s, .error _) => (s, win, pending)
      | (s, .ok ()) => creditEmit n s sid (win + chunk.toNat) (pending - chunk.toNat)
    else (s, win, pending)

/-- The rounds `creditEmit` needs. -/
def creditRounds (pending : ℤ) : ℕ := pending.toNat / 0xFFFFFFFF + 1

def creditStream (s : Session) (i : ℕ) : Session :=
  match s.tab.get i with
  | none => s
  | some st =>
    if st.recvPending ≤ 0 then s
    else if st.recvPending * 2 < s.initWindow.toNat then s
    else
      let (s, win, pending) :=
        creditEmit (creditRounds st.recvPending) s st.sid st.recvWin st.recvPending
      { s with tab := s.tab.modify i fun st => { st with recvWin := win, recvPending := pending } }

def creditSession (s : Session) : Session :=
  if s.sessRecvPending ≤ 0 then s
  else if s.sessRecvPending * 2 < s.sessionWindow.toNat then s
  else
    let (s, win, pending) := creditEmit (creditRounds s.sessRecvPending) s muxSidControl
      s.sessRecvWin s.sessRecvPending
    { s with sessRecvWin := win, sessRecvPending := pending }

/-! ### Frame handlers -/

/-- The parity of the ids the peer opens. -/
def peerParity : MuxRole → UInt32
  | .dialer => 0
  | .acceptor => 1

/-- `on_data`, a frame that opens a stream. -/
def onSyn (s : Session) (f : Frame) : Session :=
  if ¬ s.peerHelloSeen then raiseFatal s muxCodeProtocol
  else if f.sid &&& 1 ≠ peerParity s.role then raiseFatal s muxCodeProtocol
  else if f.sid = muxSidControl then raiseFatal s muxCodeProtocol
  else if (stFind s.tab f.sid).isSome then raiseFatal s muxCodeProtocol
  else if f.sid ≤ s.maxRemoteSid then raiseFatal s muxCodeProtocol
  else if f.payload.length > muxMaxMeta then raiseFatal s muxCodeProtocol
  else if s.tab.count ≥ s.maxStreams.toNat ∨ s.localGoaway then
    { (emit s muxTData muxFRst f.sid (bePut32 muxCodeRefused)).1 with maxRemoteSid := f.sid }
  else
    match stInsert s.tab (freshStream s.toCore f.sid) with
    | (tab, none) => raiseFatal { s with tab } muxCodeInternal
    | (tab, some i) =>
      let s := evqPush { s with tab, maxRemoteSid := f.sid } (.opened f.sid f.payload)
      if f.has muxFRst then stRemove (evqPush s (.reset f.sid 0)) i
      else if f.has muxFFin then
        evqPush { s with tab := s.tab.modify i fun st => { st with life := .hclRemote } }
          (.closed f.sid)
      else s

/-- The stream of slot `i` is reset on our initiative. -/
def abortStream (s : Session) (sid : UInt32) (i : ℕ) (code : UInt32) : Session :=
  let s := (emit { s with aborts := s.aborts ++ [code] } muxTData muxFRst sid (bePut32 code)).1
  stRemove (evqPush s (.reset sid 0)) i

/-- Payload accepted on the stream of slot `i`. -/
def deliver (s : Session) (f : Frame) (i : ℕ) : Session :=
  evqPush
    { s with
      tab := s.tab.modify i fun st =>
        { st with
          recvWin := st.recvWin - f.payload.length
          delivered := st.delivered + f.payload.length }
      sessRecvWin := s.sessRecvWin - f.payload.length }
    (.data f.sid f.payload)

/-- The peer's half-close of the stream of slot `i`. -/
def onFin (s : Session) (f : Frame) (i : ℕ) (life : Life) : Session :=
  let s := evqPush s (.closed f.sid)
  if life = .hclLocal then stRemove s i
  else { s with tab := s.tab.modify i fun st => { st with life := .hclRemote } }

/-- `on_data`, a frame for the live stream `st` of slot `i`. -/
def onLive (s : Session) (f : Frame) (i : ℕ) (st : MuxStream) : Session :=
  if f.has muxFRst then
    let code := if f.payload.length ≥ 4 then beLoad32 f.payload else muxCodeNoError
    stRemove (evqPush s (.reset f.sid code)) i
  else if f.payload.length > 0 ∧ st.life = .hclRemote then
    abortStream s f.sid i muxCodeProtocol
  else if f.payload.length > 0 ∧ f.payload.length > s.sessRecvWin then
    raiseFatal s muxCodeFlowControl
  else if f.payload.length > 0 ∧ f.payload.length > st.recvWin then
    abortStream s f.sid i muxCodeFlowControl
  else
    let s := if f.payload.length > 0 then deliver s f i else s
    if f.has muxFFin then onFin s f i st.life else s

def onData (s : Session) (f : Frame) : Session :=
  if f.has muxFSyn then onSyn s f
  else if f.sid = muxSidControl then raiseFatal s muxCodeProtocol
  else
    match stFind s.tab f.sid with
    | none => s
    | some (i, st) => onLive s f i st

/-- The wake-up of slot `i` in the sweep over the table. -/
def wakeSlot (s : Session) (i : ℕ) : Session :=
  match s.tab.get i with
  | none => s
  | some st =>
    if st.sendBlocked ∧ st.sendWin > 0 then
      evqPush (setBlocked s i false) (.writable st.sid)
    else s

def sweep (s : Session) : Session := (List.range s.tab.cap).foldl wakeSlot s

/-- The largest window a peer may be granted. -/
def windowLimit : ℤ := 2 ^ 48

def onWindowUpdate (s : Session) (f : Frame) : Session :=
  if f.payload.length ≠ 4 then raiseFatal s muxCodeProtocol
  else
    let credit : ℤ := (beLoad32 f.payload).toNat
    if f.sid = muxSidControl then
      let wasBlocked := s.sessSendWin ≤ 0
      let s := { s with sessSendWin := s.sessSendWin + credit }
      if s.sessSendWin > windowLimit then raiseFatal s muxCodeFlowControl
      else if wasBlocked ∧ s.sessSendWin > 0 ∧ s.blockedCount > 0 then sweep s
      else s
    else
      match stFind s.tab f.sid with
      | none => s
      | some (i, st) =>
        let s := { s with
          tab := s.tab.modify i fun st => { st with sendWin := st.sendWin + credit } }
        if st.sendWin + credit > windowLimit then raiseFatal s muxCodeFlowControl
        else if st.sendBlocked ∧ st.sendWin + credit > 0 ∧ s.sessSendWin > 0 then
          evqPush (setBlocked s i false) (.writable f.sid)
        else s

def onPing (s : Session) (f : Frame) : Session :=
  if f.sid ≠ muxSidControl ∨ f.payload.length ≠ 8 then raiseFatal s muxCodeProtocol
  else if f.has muxFAck then { s with pingOutstanding := false }
  else (emit s muxTPing muxFAck muxSidControl f.payload).1

def onGoaway (s : Session) (f : Frame) : Session :=
  if f.sid ≠ muxSidControl then raiseFatal s muxCodeProtocol
  else if f.payload.length < 8 then raiseFatal s muxCodeProtocol
  else evqPush s (.goaway (beLoad32 f.payload) (beLoad32 (f.payload.drop 4)))

def onCapacity (s : Session) (f : Frame) : Session :=
  if f.sid ≠ muxSidControl then raiseFatal s muxCodeProtocol
  else if f.payload.length ≠ 4 then raiseFatal s muxCodeProtocol
  else evqPush s (.capacity (beLoad32 f.payload))

def processFrame (s : Session) (f : Frame) : Session :=
  let s := { s with got := s.got ++ [f] }
  if ¬ s.peerHelloSeen ∧ f.type ≠ muxTHello ∧ f.type ≠ muxTHelloAck then
    raiseFatal s muxCodeProtocol
  else if f.type = muxTData then onData s f
  else if f.type = muxTWindowUpdate then onWindowUpdate s f
  else if f.type = muxTPing then onPing s f
  else if f.type = muxTGoaway then onGoaway s f
  else if f.type = muxTHello then onHello s f false
  else if f.type = muxTHelloAck then onHello s f true
  else if f.type = muxTCapacity then onCapacity s f
  else raiseFatal s muxCodeProtocol

/-! ### Public API -/

def nz (v dflt : UInt32) : UInt32 := if v ≠ 0 then v else dflt

/-- The session `mux_session_new` fills in, before the dialer greets. -/
def initSession (cfg : MuxConfig) (role : MuxRole) : Session where
  role := role
  dead := false
  initWindow := nz cfg.initWindow muxDefaultInitWindow
  sessionWindow := nz cfg.sessionWindow muxDefaultSessionWindow
  maxStreams := nz cfg.maxStreams muxDefaultMaxStreams
  peerInitWindow := muxDefaultInitWindow
  peerMaxStreams := muxDefaultMaxStreams
  sessSendWin := muxDefaultSessionWindow.toNat
  sessRecvWin := (nz cfg.sessionWindow muxDefaultSessionWindow).toNat
  sessRecvPending := 0
  blockedCount := 0
  peerHelloSeen := false
  helloSent := false
  localGoaway := false
  peerId := cfg.peerId
  auth := cfg.auth
  nonce := cfg.nonce
  weight := cfg.weight
  nextLocalSid := match role with | .dialer => 1 | .acceptor => 2
  maxRemoteSid := 0
  tab := stGrow { slots := fun _ => .empty, cap := 0, count := 0, tombs := 0 }
    (max ((nz cfg.maxStreams muxDefaultMaxStreams).toNat * 2) 64)
  heartbeatMs := cfg.heartbeatMs
  keepaliveTimeoutMs :=
    if cfg.keepaliveTimeoutMs ≠ 0 then cfg.keepaliveTimeoutMs
    else if cfg.heartbeatMs ≠ 0 then cfg.heartbeatMs * 3 else 0
  timerStarted := false
  pingOutstanding := false
  pingDueMs := 0
  pingSentMs := 0
  pingNonce := 0
  maxOutBuffer := nz cfg.maxOutBuffer muxDefaultMaxOutBuffer
  out := { data := [], cap := 0, spos := 0 }
  q := .empty
  sent := []
  got := []
  queued := []
  consumed := 0
  aborts := []
  overflow := false

def muxSessionNew (cfg : MuxConfig) (role : MuxRole) : Option Session :=
  if cfg.peerId.length > helloBlobMax ∨ cfg.auth.length > helloBlobMax
      ∨ cfg.nonce.length > helloBlobMax then none
  else
    match role with
    | .acceptor => some (initSession cfg .acceptor)
    | .dialer =>
      match sendHello (initSession cfg .dialer) false with
      | (s, .ok ()) => some s
      | (_, .error _) => none

/-- The loop of `mux_recv`, with the bytes consumed. A frame takes at least 12 bytes, so the
buffer's length is enough fuel. -/
def recvLoop : ℕ → Session → Bytes → Session × ℕ
  | 0, s, _ => (s, 0)
  | n + 1, s, buf =>
    if buf = [] then (s, 0)
    -- leave the rest to the next call, once the host has drained its events
    else if s.q.count ≥ muxEventQueueSoftCap then (s, 0)
    else
      match muxParse buf with
      | .error .short => (s, 0)
      | .error _ => (raiseFatal s muxCodeProtocol, 0)
      | .ok (f, used) =>
        let s := processFrame s f
        -- the offending frame is not counted
        if s.dead then (s, 0)
        else
          let (s, c) := recvLoop n s (buf.drop used)
          (s, used + c)

def muxRecv (s : Session) (buf : Bytes) : Session × Except MuxErr ℕ :=
  if s.dead then (s, .error .state)
  else
    let (s, c) := recvLoop buf.length s buf
    (s, .ok c)

def muxOpen (s : Session) (metadata : Bytes) : Session × Except MuxErr UInt32 :=
  if s.dead then (s, .error .state)
  else if ¬ s.peerHelloSeen then (s, .error .state)
  else if s.localGoaway then (s, .error .state)
  else if metadata.length > muxMaxMeta then (s, .error .param)
  else if s.tab.count ≥ s.peerMaxStreams.toNat then (s, .error .nomem)
  else
    let sid := s.nextLocalSid
    if sid = muxSidControl then (s, .error .state)
    else
      let s := { s with nextLocalSid := s.nextLocalSid + 2 }
      match stInsert s.tab (freshStream s.toCore sid) with
      | (tab, none) => ({ s with tab }, .error .nomem)
      | (tab, some i) =>
        match emit { s with tab } muxTData muxFSyn sid metadata with
        | (s, .error _) => (stRemove s i, .error .nomem)
        | (s, .ok ()) => (s, .ok sid)

/-- The loop of `mux_write` over the bytes both windows allow, with the bytes placed. A round
places at least one, so their number is enough fuel. -/
def writeLoop : ℕ → Session → UInt32 → Bytes → Session × ℕ
  | 0, s, _, _ => (s, 0)
  | n + 1, s, sid, p =>
    if p = [] then (s, 0)
    else
      match emit s muxTData 0 sid (p.take muxMaxDataFrame) with
      | (s, .error _) => (s, 0)
      | (s, .ok ()) =>
        let (s, c) := writeLoop n s sid (p.drop muxMaxDataFrame)
        (s, (p.take muxMaxDataFrame).length + c)

/-- Whether a write on the stream of slot `i` was short, in its history. -/
def noteShort (s : Session) (i : ℕ) (short : Bool) : Session :=
  if short then
    { s with tab := s.tab.modify i fun st => { st with shortAt := some s.queued.length } }
  else s

/-- `n` is the length of an object in memory, so below `2 ^ 63`. -/
def muxWrite (s : Session) (sid : UInt32) (p : Bytes) : Session × Except MuxErr ℕ :=
  if s.dead then (s, .error .state)
  else
    match stFind s.tab sid with
    | none => (s, .error .nostream)
    | some (i, st) =>
      if st.life = .hclLocal then (s, .error .state)
      else
        let room := min st.sendWin s.sessSendWin
        if room ≤ 0 then (noteShort (setBlocked s i true) i (0 < p.length), .ok 0)
        else
          let want := if (p.length : ℤ) > room then room.toNat else p.length
          let (s, sent) := writeLoop want s sid (p.take want)
          let s := { s with
            tab := s.tab.modify i fun st => { st with sendWin := st.sendWin - sent }
            sessSendWin := s.sessSendWin - sent }
          let s :=
            if sent < p.length ∧ (st.sendWin - sent ≤ 0 ∨ s.sessSendWin ≤ 0) then
              setBlocked s i true
            else s
          (noteShort s i (sent < p.length), .ok sent)

def muxClose (s : Session) (sid : UInt32) : Session × Except MuxErr Unit :=
  if s.dead then (s, .error .state)
  else
    match stFind s.tab sid with
    | none => (s, .error .nostream)
    | some (i, st) =>
      if st.life = .hclLocal then (s, .ok ())
      else
        match emit s muxTData muxFFin sid [] with
        | (s, .error _) => (s, .error .nomem)
        | (s, .ok ()) =>
          if st.life = .hclRemote then (stRemove s i, .ok ())
          else
            ({ s with tab := s.tab.modify i fun st => { st with life := .hclLocal } }, .ok ())

def muxReset (s : Session) (sid : UInt32) (code : UInt32) : Session × Except MuxErr Unit :=
  if s.dead then (s, .error .state)
  else
    match stFind s.tab sid with
    | none => (s, .ok ())
    | some (i, _) => (stRemove (emit s muxTData muxFRst sid (bePut32 code)).1 i, .ok ())

/-- The conversion of a `size_t` to `int64_t`. -/
def toInt64 (n : ℕ) : ℤ := Int.bmod n (2 ^ 64)

def muxConsume (s : Session) (sid : UInt32) (n : ℕ) : Session × Except MuxErr Unit :=
  if s.dead then (s, .error .state)
  else if n = 0 then (s, .ok ())
  else
    let s := creditSession
      { s with
        sessRecvPending := s.sessRecvPending + toInt64 n
        consumed := s.consumed + n }
    match stFind s.tab sid with
    | none => (s, .ok ())
    | some (i, _) =>
      let s := { s with
        tab := s.tab.modify i fun st =>
          { st with recvPending := st.recvPending + toInt64 n, consumed := st.consumed + n } }
      (creditStream s i, .ok ())

def muxSendCapacity (s : Session) (weight : UInt32) : Session × Except MuxErr Unit :=
  if s.dead then (s, .error .state)
  else emit s muxTCapacity 0 muxSidControl (bePut32 weight)

def muxGoaway (s : Session) (reason : UInt32) : Session × Except MuxErr Unit :=
  if s.dead then (s, .error .state)
  else
    emit { s with localGoaway := true } muxTGoaway 0 muxSidControl
      (bePut32 reason ++ bePut32 s.maxRemoteSid)

/-- No timer is armed: `UINT64_MAX`. -/
def noDeadline : UInt64 := 0xFFFFFFFFFFFFFFFF

/-- The deadline `mux_on_timer` returns. -/
def nextDeadline (s : Session) : UInt64 :=
  if s.pingOutstanding ∧ s.keepaliveTimeoutMs ≠ 0
      ∧ s.pingSentMs + s.keepaliveTimeoutMs.toUInt64 < s.pingDueMs then
    s.pingSentMs + s.keepaliveTimeoutMs.toUInt64
  else s.pingDueMs

def muxOnTimer (s : Session) (nowMs : UInt64) : Session × UInt64 :=
  if s.dead ∨ s.heartbeatMs = 0 then (s, noDeadline)
  else if ¬ s.timerStarted then
    let s := { s with timerStarted := true, pingDueMs := nowMs + s.heartbeatMs.toUInt64 }
    (s, s.pingDueMs)
  -- the last keepalive went unanswered past the timeout
  else if s.pingOutstanding ∧ s.keepaliveTimeoutMs ≠ 0
      ∧ nowMs - s.pingSentMs ≥ s.keepaliveTimeoutMs.toUInt64 then
    (raiseFatal s muxCodeInternal, noDeadline)
  else
    let s :=
      if nowMs ≥ s.pingDueMs then
        match emit s muxTPing 0 muxSidControl
            (bePut32 (s.pingNonce >>> 32).toUInt32 ++ bePut32 s.pingNonce.toUInt32) with
        | (s, .error _) => s
        | (s, .ok ()) =>
          { s with
            pingOutstanding := true
            pingSentMs := nowMs
            pingNonce := s.pingNonce + 1
            pingDueMs := nowMs + s.heartbeatMs.toUInt64 }
      else s
    (s, nextDeadline s)

def muxOutPending (s : Session) : ℕ := s.out.data.length - s.out.spos

def muxSendAdvance (s : Session) (n : ℕ) : Session :=
  let spos := s.out.spos + min n (s.out.data.length - s.out.spos)
  -- fully drained: reuse the buffer from its start
  if spos = s.out.data.length then { s with out := { s.out with data := [], spos := 0 } }
  else { s with out := { s.out with spos } }

def muxNextEvent (s : Session) : Session × Option Event :=
  match s.q.pop with
  | none => (s, none)
  | some (e, q) => ({ s with q }, some e)

/-! ### Runs of one session -/

/-- A call of the host. -/
inductive Call where
  | recv (buf : Bytes)
  | open (metadata : Bytes)
  | write (sid : UInt32) (p : Bytes)
  | close (sid : UInt32)
  | reset (sid : UInt32) (code : UInt32)
  | consume (sid : UInt32) (n : ℕ)
  | sendCapacity (weight : UInt32)
  | goaway (reason : UInt32)
  | onTimer (nowMs : UInt64)
  | sendAdvance (n : ℕ)
  | nextEvent

/-- The session after a call. -/
def Session.call (s : Session) : Call → Session
  | .recv buf => (muxRecv s buf).1
  | .open metadata => (muxOpen s metadata).1
  | .write sid p => (muxWrite s sid p).1
  | .close sid => (muxClose s sid).1
  | .reset sid code => (muxReset s sid code).1
  | .consume sid n => (muxConsume s sid n).1
  | .sendCapacity weight => (muxSendCapacity s weight).1
  | .goaway reason => (muxGoaway s reason).1
  | .onTimer nowMs => (muxOnTimer s nowMs).1
  | .sendAdvance n => muxSendAdvance s n
  | .nextEvent => (muxNextEvent s).1

end MuxProtocol
