import MuxProtocol.Daemon

/-!
# The relay

One tunnel, and a socket for each of its streams: an edge opens a stream for every socket that its
public listener accepts, the other end dials its backend for every stream that the peer opens. Bytes
of a stream are credited when its socket takes them. The map from stream ids to connections is a
list here, the oldest entry first, and the buffers are lists of bytes.

The relay asks the event loop for the readiness of a socket that its connection can use. A handler
that changes a connection marks it dirty, and before the loop waits the interest of the marked ones
is brought up to date. An event may come for any socket at any time.
-/

namespace MuxProtocol

/-! ### State -/

/-- `relay_opts`, without the addresses. -/
structure RelayOpts where
  role : MuxRole
  token : Option Bytes := none
  peerId : Option Bytes := none
  weight : UInt32 := 0
  initWindow : UInt32 := 0
  sessionWindow : UInt32 := 0
  heartbeatMs : UInt32 := 0
  /-- There is a `public_listen_fd`. -/
  publicListen : Bool := false
  maxStreams : ℤ := 0
  /-- There is a `backend_host`. -/
  backend : Bool := false

/-- `conn`, of a slot in use. -/
structure RelayConn where
  sid : UInt32
  connecting : Bool := false
  sockEof : Bool := false
  streamFin : Bool := false
  sendBlocked : Bool := false
  gone : Bool := false
  s2m : Bytes := []
  m2s : Bytes := []
  /-- History: the bytes read from the socket. -/
  read : Bytes := []
  /-- History: the bytes that `mux_write` accepted. -/
  sent : Bytes := []
  /-- History: the bytes of its STREAM_DATA. -/
  surfaced : Bytes := []
  /-- History: the bytes written to the socket. -/
  written : Bytes := []
  /-- History: `mux_close` was called. -/
  finSent : Bool := false
  /-- History: `shutdown` was called. -/
  shut : Bool := false

namespace RelayConn

/-- Both directions are done. -/
def finished (c : RelayConn) : Bool :=
  c.sockEof && c.streamFin && c.m2s.isEmpty && c.s2m.isEmpty

/-! ### What happens to a connection -/

/-- STREAM_DATA. -/
def arrive (data : Bytes) (c : RelayConn) : RelayConn :=
  { c with m2s := c.m2s ++ data, surfaced := c.surfaced ++ data }

/-- STREAM_CLOSED. -/
def closed (c : RelayConn) : RelayConn := { c with streamFin := true }

/-- The socket takes `w` bytes, -/
def drain (w : ℕ) (c : RelayConn) : RelayConn :=
  { c with m2s := c.m2s.drop w, written := c.written ++ c.m2s.take w }

/-- and, after the last, is shut down. -/
def shutWr (c : RelayConn) : RelayConn := { c with shut := true }

/-- The socket gives the bytes `p`, of which the session takes `w`. -/
def input (p : Bytes) (w : ℕ) (c : RelayConn) : RelayConn :=
  { c with read := c.read ++ p, sent := c.sent ++ p.take w, s2m := c.s2m ++ p.drop w }

/-- The session takes `w` bytes that have waited, -/
def pass (w : ℕ) (c : RelayConn) : RelayConn :=
  { c with s2m := c.s2m.drop w, sent := c.sent ++ c.s2m.take w }

/-- and no more for now, -/
def block (c : RelayConn) : RelayConn := { c with sendBlocked := true }

/-- or all there were. -/
def unblock (c : RelayConn) : RelayConn := { c with sendBlocked := false }

/-- The socket has ended, -/
def eof (c : RelayConn) : RelayConn := { c with sockEof := true }

/-- and so has the stream on our side. -/
def fin (c : RelayConn) : RelayConn := { c with finSent := true }

def connected (c : RelayConn) : RelayConn := { c with connecting := false }

/-- The connection is given up. -/
def giveUp (c : RelayConn) : RelayConn := { c with gone := true }

/-- `conn_desired`: whether to poll for reading, and for writing. -/
def desired (c : RelayConn) : Bool × Bool :=
  if c.connecting then (false, true)
  else (!c.sockEof && c.s2m.isEmpty && !c.sendBlocked, !c.m2s.isEmpty)

end RelayConn

/-! ### Interest -/

/-- What the sockets of the slots are polled for. -/
structure Interest where
  /-- `cur_r` and `cur_w` of a slot; they are -1 for a fresh connection. -/
  cur : ℕ → Option (Bool × Bool) := fun _ => none
  inDirty : ℕ → Bool := fun _ => false
  dirty : List ℕ := []
  /-- What the event loop was last told for the socket of a slot. -/
  loop : ℕ → Option (Bool × Bool) := fun _ => none

namespace Interest

/-- A connection in use has a socket. -/
def apply (w : Interest) (i : ℕ) (want : Bool × Bool) : Interest :=
  if w.cur i = some want then w
  else
    { w with
      cur := Function.update w.cur i (some want)
      loop := Function.update w.loop i (some want) }

def mark (w : Interest) (i : ℕ) : Interest :=
  if w.inDirty i then w
  else { w with inDirty := Function.update w.inDirty i true, dirty := w.dirty ++ [i] }

/-- A slot for a connection. -/
def fresh (w : Interest) (i : ℕ) : Interest :=
  { w with cur := Function.update w.cur i none, inDirty := Function.update w.inDirty i false }

/-- The connection is destroyed. -/
def forget (w : Interest) (i : ℕ) : Interest :=
  { w with loop := Function.update w.loop i none, inDirty := Function.update w.inDirty i false }

/-- A round of the loop of `flush_dirty`. The list may hold slots given up or used again. -/
def flushOne (conns : ℕ → Option RelayConn) (w : Interest) (i : ℕ) : Interest :=
  match conns i with
  | none => w
  | some c =>
    if w.inDirty i then
      { w with inDirty := Function.update w.inDirty i false }.apply i c.desired
    else w

end Interest

/-- `struct relay`, with one tunnel and its session. -/
structure Relay where
  opt : RelayOpts
  mux : Session
  authed : Bool
  conns : ℕ → Option RelayConn
  connsCap : ℕ
  /-- The free slots, the next to be used first. -/
  freelist : List ℕ
  sidmap : List (UInt32 × ℕ)
  nactive : ℕ
  listenPaused : Bool
  stop : Bool
  recv : Bytes
  interest : Interest
  /-- History: the calls of `mux_consume`, with the stream and the bytes. -/
  credits : List (UInt32 × ℕ)
  /-- History: the connections destroyed, as they were. -/
  freed : List RelayConn
  /-- History: the STREAM_DATA that found no connection. -/
  strays : List Bytes

namespace Relay

/-! ### Slab and map -/

/-- A call on the session. -/
def call (r : Relay) (a : Call) : Relay :=
  { r with mux := r.mux.call a, credits := r.credits ++ a.credits }

def setConn (r : Relay) (i : ℕ) (c : RelayConn) : Relay :=
  { r with conns := Function.update r.conns i (some c) }

def modify (r : Relay) (i : ℕ) (g : RelayConn → RelayConn) : Relay :=
  match r.conns i with
  | none => r
  | some c => r.setConn i (g c)

def connApplyInterest (r : Relay) (i : ℕ) : Relay :=
  { r with interest := (r.conns i).elim r.interest fun c => r.interest.apply i c.desired }

def markDirty (r : Relay) (i : ℕ) : Relay := { r with interest := r.interest.mark i }

def flushDirty (r : Relay) : Relay :=
  { r with
    interest := { r.interest.dirty.foldl (.flushOne r.conns) r.interest with dirty := [] } }

/-- A slot for a connection; the slab doubles when it is full. -/
def connAlloc (r : Relay) (c : RelayConn) : Relay × ℕ :=
  match r.freelist with
  | i :: free => ({ r.setConn i c with freelist := free, interest := r.interest.fresh i }, i)
  | [] =>
    let cap := if r.connsCap ≠ 0 then r.connsCap * 2 else 64
    ({ r.setConn r.connsCap c with
        freelist := List.range' (r.connsCap + 1) (cap - r.connsCap - 1)
        connsCap := cap
        interest := r.interest.fresh r.connsCap }, r.connsCap)

def sidmapSet (r : Relay) (sid : UInt32) (i : ℕ) : Relay :=
  { r with sidmap := r.sidmap ++ [(sid, i)] }

def sidmapGet (r : Relay) (sid : UInt32) : Option ℕ := r.sidmap.lookup sid

def sidmapDel (r : Relay) (sid : UInt32) : Relay :=
  { r with sidmap := r.sidmap.eraseP (·.1 = sid) }

/-! ### Teardown -/

/-- A public connection fewer: the listener goes on where it was paused at the cap. -/
def publicGone (r : Relay) : Relay :=
  if r.opt.publicListen then
    let r := { r with nactive := r.nactive - 1 }
    if r.listenPaused ∧ (r.opt.maxStreams ≤ 0 ∨ (r.nactive : ℤ) < r.opt.maxStreams) then
      { r with listenPaused := false }
    else r
  else r

def connDestroy (r : Relay) (i : ℕ) : Relay :=
  match r.conns i with
  | none => r
  | some c =>
    let r := r.sidmapDel c.sid
    publicGone
      { r with
        conns := Function.update r.conns i none
        freelist := i :: r.freelist
        interest := r.interest.forget i
        freed := r.freed ++ [c] }

/-- The connection is given up. -/
def giveUp (r : Relay) (i : ℕ) : Relay :=
  (r.modify i (·.giveUp)).connDestroy i

def connMaybeFinish (r : Relay) (i : ℕ) : Relay :=
  match r.conns i with
  | none => r
  | some c => if c.gone || c.finished then r.connDestroy i else r

/-! ### Data movement -/

/-- The loop of `flush_to_socket`, and whether the socket has not failed. A socket out of answers
takes no more. -/
def socketLoop (i : ℕ) : List WriteAnswer → Relay → Relay × Bool
  | [], r => (r, true)
  | a :: as, r =>
    match r.conns i with
    | none => (r, true)
    | some c =>
      if c.m2s = [] then (r, true)
      else
        match a with
        | .wrote n =>
          let w := min n c.m2s.length
          if w = 0 then (r, false)
          else
            socketLoop i as ((r.setConn i (c.drain w)).call (.consume c.sid w))
        | .again => (r, true)
        | .error => (r, false)

/-- The stream has ended, and the socket has all of it. -/
def shutdown (r : Relay) (i : ℕ) : Relay :=
  match r.conns i with
  | none => r
  | some c =>
    if c.streamFin ∧ c.m2s = [] ∧ ¬ c.sockEof then r.setConn i c.shutWr else r

/-- A socket that has failed is not marked. -/
def flushToSocket (r : Relay) (i : ℕ) (answers : List WriteAnswer) : Relay × Bool :=
  match socketLoop i answers r with
  | (r, true) => ((r.shutdown i).markDirty i, true)
  | (r, false) => (r, false)

/-- The loop of `flush_to_mux`, and whether it has emptied the buffer. A round takes at least one
byte, so their number is enough fuel. -/
def muxLoop (i : ℕ) : ℕ → Relay → Relay × Bool
  | 0, r => (r, true)
  | n + 1, r =>
    match r.conns i with
    | none => (r, true)
    | some c =>
      if c.s2m = [] then (r, true)
      else
        let w := accepted (muxWrite r.mux c.sid c.s2m).2
        let r := r.call (.write c.sid c.s2m)
        let c := c.pass w
        -- what is left is compared with what was just taken
        if w = 0 ∨ w < c.s2m.length then (r.setConn i c.block, false)
        else muxLoop i n (r.setConn i c)

/-- The socket has ended and the session has all of it. -/
def closeStream (r : Relay) (i : ℕ) : Relay :=
  match r.conns i with
  | none => r
  | some c => (r.setConn i c.fin).call (.close c.sid)

/-- The end of `flush_to_mux`, with the buffer empty. -/
def flushed (r : Relay) (i : ℕ) : Relay :=
  match r.conns i with
  | none => r
  | some c =>
    let r := r.setConn i c.unblock
    let r := if c.sockEof then r.closeStream i else r
    r.markDirty i

def flushToMux (r : Relay) (i : ℕ) : Relay :=
  match muxLoop i (((r.conns i).map (·.s2m.length)).getD 0) r with
  | (r, true) => r.flushed i
  | (r, false) => r.markDirty i

/-! ### Events -/

/-- What the system answers while an event is handled: whether the backend can be dialled, and what
the socket takes. -/
structure EventAnswer where
  dialled : Bool := true
  writes : List WriteAnswer := []

def openBackendConn (r : Relay) (sid : UInt32) (dialled : Bool) : Relay :=
  if dialled = false then r.call (.reset sid muxCodeInternal)
  else
    let (r, i) := r.connAlloc { sid := sid, connecting := true }
    (r.sidmapSet sid i).connApplyInterest i

/-- STREAM_DATA. -/
def onStreamData (r : Relay) (sid : UInt32) (data : Bytes) (answers : List WriteAnswer) : Relay :=
  match r.sidmapGet sid with
  | none => { r with strays := r.strays ++ [data] }
  | some i =>
    match r.conns i with
    | none => { r with strays := r.strays ++ [data] }
    | some c =>
      let r := r.setConn i (c.arrive data)
      if c.connecting then r.markDirty i else (r.flushToSocket i answers).1

/-- STREAM_CLOSED. A failure of the socket is not noticed here. -/
def onStreamClosed (r : Relay) (sid : UInt32) (answers : List WriteAnswer) : Relay :=
  match r.sidmapGet sid with
  | none => r
  | some i =>
    let r := r.modify i (·.closed)
    let r := if (r.conns i).any (·.connecting) then r else (r.flushToSocket i answers).1
    r.connMaybeFinish i

/-- WRITABLE. -/
def onWritable (r : Relay) (sid : UInt32) : Relay :=
  if sid = muxSidControl then
    (List.range r.connsCap).foldl (fun r i =>
      if (r.conns i).any (·.sendBlocked) then r.flushToMux i else r) r
  else
    match r.sidmapGet sid with
    | none => r
    | some i => r.flushToMux i

section Handlers

variable (hmac : Hmac)

/-- PEER_HELLO. -/
def onPeerHello (r : Relay) (auth nonce : Bytes) : Relay :=
  match r.opt.token with
  | none => r
  | some token =>
    if proofPasses hmac token auth nonce then { r with authed := true }
    else { r.call (.goaway muxCodeRefused) with stop := true }

/-- A round of the loop of `handle_events`. -/
def onEvent (r : Relay) (a : EventAnswer) : Event → Relay
  | .peerHello _ _ _ _ auth nonce => r.onPeerHello hmac auth nonce
  | .opened sid _ =>
    if r.opt.backend then r.openBackendConn sid a.dialled
    else r.call (.reset sid muxCodeRefused)
  | .data sid data => r.onStreamData sid data a.writes
  | .closed sid => r.onStreamClosed sid a.writes
  | .reset sid _ =>
    match r.sidmapGet sid with
    | none => r
    | some i => r.giveUp i
  | .writable sid => r.onWritable sid
  | .goaway _ _ | .capacity _ => r
  | .fatal _ => { r with stop := true }

/-- An event, if there is one, taken from the queue and handled. -/
def nextEvent (r : Relay) (a : EventAnswer) : Relay :=
  match (muxNextEvent r.mux).2 with
  | none => r
  | some ev => (r.call .nextEvent).onEvent hmac a ev

/-- The events that can be taken before the queue is empty: while they are handled the session may
queue FATAL, and nothing else. -/
def eventsLeft (r : Relay) : ℕ := r.mux.q.count + if r.mux.dead then 0 else 1

/-- `handle_events`; the answers are by the number of the event. -/
def handleEvents (r : Relay) (ans : ℕ → EventAnswer) : Relay :=
  (fun r => r.nextEvent hmac (ans r.mux.popped.length))^[r.eventsLeft] r

end Handlers

/-! ### Sockets -/

/-- The public connections are at the cap. -/
def full (r : Relay) : Prop := 0 < r.opt.maxStreams ∧ r.opt.maxStreams ≤ r.nactive

instance full.decidable (r : Relay) : Decidable r.full := inferInstanceAs (Decidable (_ ∧ _))

/-- A socket from the listener, with the address of its client. -/
def acceptOne (r : Relay) (peer : Bytes) : Relay :=
  if r.authed = false then r
  else
    match (muxOpen r.mux peer).2 with
    | .error _ => r.call (.open peer)
    | .ok sid =>
      let (r, i) := (r.call (.open peer)).connAlloc { sid := sid }
      let r := r.sidmapSet sid i
      { r with nactive := r.nactive + 1 }.connApplyInterest i

/-- `accept_public`, with the sockets that wait. -/
def acceptPublic : List Bytes → Relay → Relay
  | [], r => if r.full then { r with listenPaused := true } else r
  | peer :: peers, r =>
    if r.full then { r with listenPaused := true } else acceptPublic peers (r.acceptOne peer)

/-- The listener is ready; it is registered with the event loop only where there is one. -/
def onListener (r : Relay) (peers : List Bytes) : Relay :=
  if r.opt.publicListen then acceptPublic peers r else r

/-- The bytes of one `read` from a socket. -/
def readMax : ℕ := 32768

/-- The socket has ended. -/
def onSockEof (r : Relay) (i : ℕ) : Relay :=
  match r.conns i with
  | none => r
  | some c =>
    let r := r.setConn i c.eof
    let r := if c.s2m = [] then r.closeStream i else r
    (r.markDirty i).connMaybeFinish i

/-- The loop of `on_sock_readable`. A socket out of answers has nothing to read. -/
def readLoop (i : ℕ) : List ReadAnswer → Relay → Relay
  | [], r => r
  | a :: as, r =>
    match r.conns i with
    | none => r
    | some c =>
      match a with
      | .bytes b =>
        let p := b.take readMax
        if p = [] then r.onSockEof i
        else
          match (muxWrite r.mux c.sid p).2 with
          | .error _ => (r.call (.write c.sid p)).giveUp i
          | .ok w =>
            let r := r.call (.write c.sid p)
            if w < p.length then (r.setConn i (c.input p w).block).markDirty i
            else readLoop i as (r.setConn i (c.input p w))
      | .eof => r.onSockEof i
      | .again => r
      | .error => r.giveUp i

def onSockReadable (r : Relay) (i : ℕ) (answers : List ReadAnswer) : Relay :=
  match r.conns i with
  | none => r
  | some c => if c.s2m ≠ [] then r else readLoop i answers r

/-- The peer is told that the connection is given up. -/
def resetConn (r : Relay) (i : ℕ) : Relay :=
  match r.conns i with
  | none => r
  | some c => (r.call (.reset c.sid muxCodeInternal)).giveUp i

/-- A socket that was connecting is connected. -/
def sockConnected (r : Relay) (i : ℕ) (c : RelayConn) : Relay :=
  if c.connecting then (r.setConn i c.connected).markDirty i else r

def onSockWritable (r : Relay) (i : ℕ) (sockErr : Bool) (answers : List WriteAnswer) : Relay :=
  match r.conns i with
  | none => r
  | some c =>
    if c.connecting && sockErr then r.resetConn i
    else
      match (r.sockConnected i c).flushToSocket i answers with
      | (r, false) => r.resetConn i
      | (r, true) => r.connMaybeFinish i

/-! ### The tunnel -/

def tunnelFlush : List WriteAnswer → Relay → Relay × Bool :=
  sendLoop (fun r => some r.mux) fun r n => r.call (.sendAdvance n)

section Loop

variable (hmac : Hmac)

/-- `mux_recv` over the receive buffer, and the events; the result is that of `mux_recv`. -/
def pumpRecv (r : Relay) (ans : ℕ → EventAnswer) : Relay × Except MuxErr ℕ :=
  let c := (muxRecv r.mux r.recv).2
  let r := (r.call (.recv r.recv)).handleEvents hmac ans
  ({ r with recv := r.recv.drop (accepted c) }, c)

def tunnelReader (ans : ℕ → EventAnswer) : Reader Relay where
  recv r := r.recv
  stash r b := { r with recv := r.recv ++ b }
  pump r := r.pumpRecv hmac ans

def tunnelRead (ans : ℕ → EventAnswer) : List ReadAnswer → Relay → Relay × Bool :=
  (tunnelReader hmac ans).readLoop

/-! ### The main loop -/

/-- What the event loop reports, with what the system answers while it is handled. -/
inductive Ready where
  | tunnel (readable writable : Bool) (reads : List ReadAnswer) (writes : List WriteAnswer)
  | listener (peers : List Bytes)
  | conn (i : ℕ) (readable writable : Bool) (sockErr : Bool) (reads : List ReadAnswer)
      (writes : List WriteAnswer)

/-- One report; the result is whether the loop over them goes on. -/
def onReady (r : Relay) (ans : ℕ → EventAnswer) : Ready → Relay × Bool
  | .tunnel readable writable reads writes =>
    match if readable then tunnelRead hmac ans reads r else (r, true) with
    | (r, false) => ({ r with stop := true }, false)
    | (r, true) => (if r.stop = false ∧ writable then (tunnelFlush writes r).1 else r, true)
  | .listener peers => (r.onListener peers, true)
  | .conn i readable writable sockErr reads writes =>
    let r := if writable then r.onSockWritable i sockErr writes else r
    (if readable then r.onSockReadable i reads else r, true)

/-- The reports, until one ends the tunnel. -/
def onAllReady (ans : ℕ → EventAnswer) : List Ready → Relay → Relay
  | [], r => r
  | e :: es, r =>
    match r.onReady hmac ans e with
    | (r, true) => onAllReady ans es r
    | (r, false) => r

/-- What the system answers in an iteration of the main loop. -/
structure Answers where
  now : UInt64 := 0
  event : ℕ → EventAnswer := fun _ => {}
  before : List WriteAnswer := []
  after : List WriteAnswer := []
  ready : List Ready := []

/-- An iteration of the main loop of `relay_run`; the result is whether the loop goes on, but for
the test of `stop` that the next iteration makes. -/
def runLoop (r : Relay) (a : Answers) : Relay × Bool :=
  let r := (r.call (.onTimer a.now)).handleEvents hmac a.event
  if r.stop then (r, false)
  else
    match tunnelFlush a.before r with
    | (r, false) => (r, false)
    | (r, true) =>
      match tunnelFlush a.after (onAllReady hmac a.event a.ready r.flushDirty) with
      | (r, false) => (r, false)
      | (r, true) => (r.flushDirty, true)

/-! ### One thing at a time -/

/-- What the loop is made of: the timer, an event, bytes in the receive buffer and `mux_recv` over
it, bytes sent, the end of the tunnel; the interest brought up to date; the listener, with the
sockets that wait; and a socket that can be read or written. -/
inductive Move where
  | timer (now : UInt64)
  | event (a : EventAnswer)
  | stash (b : Bytes)
  | recv
  | advance (n : ℕ)
  | halt
  | flushDirty
  | listener (peers : List Bytes)
  | readable (i : ℕ) (answers : List ReadAnswer)
  | writable (i : ℕ) (sockErr : Bool) (answers : List WriteAnswer)

def move (r : Relay) : Move → Relay
  | .timer now => r.call (.onTimer now)
  | .event a => r.nextEvent hmac a
  | .stash b => { r with recv := b }
  | .recv => r.call (.recv r.recv)
  | .advance n => r.call (.sendAdvance n)
  | .halt => { r with stop := true }
  | .flushDirty => r.flushDirty
  | .listener peers => r.onListener peers
  | .readable i answers => r.onSockReadable i answers
  | .writable i sockErr answers => r.onSockWritable i sockErr answers

/-- A move, or a whole iteration of the main loop. -/
def turn (r : Relay) : Move ⊕ Answers → Relay
  | .inl m => r.move hmac m
  | .inr a => (r.runLoop hmac a).1

/-- The configuration of the session, with the random bytes of its nonce. -/
def buildCfg (opt : RelayOpts) (nonce : Nonce) : MuxConfig where
  initWindow := opt.initWindow
  sessionWindow := opt.sessionWindow
  heartbeatMs := nz opt.heartbeatMs 15000
  weight := opt.weight
  peerId := opt.peerId.getD []
  nonce := if opt.token.isSome then nonce else []
  auth := match opt.token with
    | none => []
    | some token => muxAuthProof hmac token nonce

/-- `relay_new`, with the tunnel connected. -/
def relayNew (opt : RelayOpts) (nonce : Nonce) : Option Relay :=
  (muxSessionNew (buildCfg hmac opt nonce) opt.role).map fun s =>
    { opt
      mux := s
      authed := opt.token.isNone
      conns := fun _ => none
      connsCap := 0
      freelist := []
      sidmap := []
      nactive := 0
      listenPaused := false
      stop := false
      recv := []
      interest := {}
      credits := []
      freed := []
      strays := [] }

end Loop

end Relay

end MuxProtocol
