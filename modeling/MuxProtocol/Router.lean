import MuxProtocol.Daemon
import Mathlib.Data.List.AList
import Mathlib.Data.List.FinRange

/-!
# The edge-peer router

Tunnels to `ne` edges, whose streams come in, and to `nw` workers, to which they go out; a route is
a stream of each spliced together. Bytes are credited to the session they come from when the other
accepts them. The maps from stream ids to routes are finite maps here, and the buffers lists of
bytes.
-/

namespace MuxProtocol

/-! ### State -/

/-- `ep_config`, without the addresses. -/
structure EpConfig where
  token : Option Bytes := none
  peerId : Option Bytes := none
  initWindow : UInt32 := 0
  sessionWindow : UInt32 := 0
  heartbeatMs : UInt32 := 0

/-- `conn_t`, a tunnel. -/
structure EpConn where
  /-- There is a socket. -/
  fd : Bool := false
  connecting : Bool := false
  mux : Option Session := none
  ready : Bool := false
  recv : Bytes := []
  nextAttempt : UInt64 := 0
  weight : UInt32 := 0
  swrrCw : ℤ := 0
  inflight : UInt32 := 0
  /-- From stream ids to the addresses of routes. -/
  routes : AList fun _ : UInt32 => ℕ := ∅
  /-- History: the calls of `mux_consume` on the session, with the stream and the bytes. -/
  credits : List (UInt32 × ℕ) := []

-- for the numerals of tunnels, where there are one or two of a kind
instance neZero_one : NeZero 1 := ⟨Nat.one_ne_zero⟩

instance neZero_two : NeZero 2 := ⟨Nat.succ_ne_zero 1⟩

inductive Tunnel (ne nw : ℕ) where
  | edge (i : Fin ne)
  | worker (j : Fin nw)
  deriving DecidableEq

/-- The ends of a route. -/
inductive Side where
  | up
  | down
  deriving DecidableEq

def Side.other : Side → Side
  | .up => .down
  | .down => .up

def Tunnel.side {ne nw : ℕ} : Tunnel ne nw → Side
  | .edge _ => .up
  | .worker _ => .down

structure Route (ne nw : ℕ) where
  edgeIdx : Fin ne
  upSid : UInt32
  workerIdx : Fin nw
  downSid : UInt32
  u2w : Bytes := []
  w2u : Bytes := []
  upFin : Bool := false
  downFin : Bool := false
  gone : Bool := false

namespace Route

variable {ne nw : ℕ}

def tunnel (r : Route ne nw) : Side → Tunnel ne nw
  | .up => .edge r.edgeIdx
  | .down => .worker r.workerIdx

def sid (r : Route ne nw) : Side → UInt32
  | .up => r.upSid
  | .down => r.downSid

/-- The bytes from a side that the other has not accepted. -/
def pend (r : Route ne nw) : Side → Bytes
  | .up => r.u2w
  | .down => r.w2u

def setPend (r : Route ne nw) (b : Bytes) : Side → Route ne nw
  | .up => { r with u2w := b }
  | .down => { r with w2u := b }

/-- The FIN of a side was seen. -/
def fin (r : Route ne nw) : Side → Bool
  | .up => r.upFin
  | .down => r.downFin

def setFin (r : Route ne nw) : Side → Route ne nw
  | .up => { r with upFin := true }
  | .down => { r with downFin := true }

end Route

/-- `struct ep_state`, with the routes allocated. -/
structure Router (ne nw : ℕ) where
  cfg : EpConfig
  conn : Tunnel ne nw → EpConn
  heap : ℕ → Option (Route ne nw)
  /-- The address of the next route. -/
  next : ℕ
  /-- History: the routes freed, as they were. -/
  freed : List (Route ne nw)

namespace Router

variable {ne nw : ℕ}

def modify (e : Router ne nw) (t : Tunnel ne nw) (g : EpConn → EpConn) : Router ne nw :=
  { e with conn := Function.update e.conn t (g (e.conn t)) }

/-- A call on the session of a tunnel. The source makes none where there is no session. -/
def call (e : Router ne nw) (t : Tunnel ne nw) (a : Call) : Router ne nw :=
  match (e.conn t).mux with
  | none => e
  | some s =>
    e.modify t fun c => { c with mux := some (s.call a), credits := c.credits ++ a.credits }

/-- The bytes that `mux_write` accepts on the session of a tunnel. -/
def accepts (e : Router ne nw) (t : Tunnel ne nw) (sid : UInt32) (p : Bytes) : ℕ :=
  match (e.conn t).mux with
  | none => 0
  | some s => accepted (muxWrite s sid p).2

/-! ### The greeting -/

section Auth

variable (hmac : Hmac)

/-- The configuration of a new session, with the random bytes of its nonce. -/
def connBuildCfg (cfg : EpConfig) (nonce : Nonce) : MuxConfig where
  initWindow := cfg.initWindow
  sessionWindow := cfg.sessionWindow
  heartbeatMs := nz cfg.heartbeatMs 15000
  weight := 1
  peerId := cfg.peerId.getD []
  nonce := if cfg.token.isSome then nonce else []
  auth := match cfg.token with
    | none => []
    | some token => muxAuthProof hmac token nonce

def checkAuth (e : Router ne nw) (auth nonce : Bytes) : Bool :=
  match e.cfg.token with
  | none => true
  | some token => proofPasses hmac token auth nonce

end Auth

/-! ### Balancing -/

/-- A round of the loop of `pick_worker`, over the sum of the weights and the best so far. -/
def pickStep (acc : Router ne nw × ℤ × Option (Fin nw × ℤ)) (j : Fin nw) :
    Router ne nw × ℤ × Option (Fin nw × ℤ) :=
  let (e, total, best) := acc
  let w := e.conn (.worker j)
  if w.ready = false ∨ w.weight = 0 then acc
  else
    let cw := w.swrrCw + w.weight.toNat
    (e.modify (.worker j) fun w => { w with swrrCw := cw }, total + w.weight.toNat,
      match best with
      | none => some (j, cw)
      | some (b, bestCw) => if cw > bestCw then some (j, cw) else some (b, bestCw))

def pickWorker (e : Router ne nw) : Router ne nw × Option (Fin nw) :=
  match (List.finRange nw).foldl pickStep (e, 0, none) with
  | (e, _, none) => (e, none)
  | (e, total, some (j, _)) =>
    (e.modify (.worker j) fun w => { w with swrrCw := w.swrrCw - total }, some j)

/-! ### Routes -/

def routeNew (e : Router ne nw) (i : Fin ne) (upSid : UInt32) (j : Fin nw) (downSid : UInt32) :
    Router ne nw :=
  let p := e.next
  let e := e.modify (.edge i) fun c => { c with routes := c.routes.insert upSid p }
  let e := e.modify (.worker j) fun c =>
    { c with routes := c.routes.insert downSid p, inflight := c.inflight + 1 }
  { e with
    heap := Function.update e.heap p
      (some { edgeIdx := i, upSid := upSid, workerIdx := j, downSid := downSid })
    next := p + 1 }

def routeFree (e : Router ne nw) (p : ℕ) : Router ne nw :=
  match e.heap p with
  | none => e
  | some r =>
    let e := e.modify (.edge r.edgeIdx) fun c => { c with routes := c.routes.erase r.upSid }
    let e := e.modify (.worker r.workerIdx) fun c =>
      { c with
        routes := c.routes.erase r.downSid
        inflight := if c.inflight ≠ 0 then c.inflight - 1 else c.inflight }
    { e with heap := Function.update e.heap p none, freed := e.freed ++ [r] }

/-- The route of a stream, with its address. -/
def find (e : Router ne nw) (t : Tunnel ne nw) (sid : UInt32) : Option (ℕ × Route ne nw) :=
  ((e.conn t).routes.lookup sid).bind fun p => (e.heap p).map (p, ·)

/-- The session of a tunnel is there. -/
def hasMux (e : Router ne nw) (t : Tunnel ne nw) : Bool := (e.conn t).mux.isSome

def setRoute (e : Router ne nw) (p : ℕ) (r : Route ne nw) : Router ne nw :=
  { e with heap := Function.update e.heap p (some r) }

/-- The bytes `data` of the stream `srcSid`, behind those pending. -/
def fwd (e : Router ne nw) (src : Tunnel ne nw) (srcSid : UInt32) (dst : Tunnel ne nw)
    (dstSid : UInt32) (pend data : Bytes) : Router ne nw × Bytes :=
  -- keep order
  if pend ≠ [] then (e, pend ++ data)
  else
    let w := e.accepts dst dstSid data
    let e := e.call dst (.write dstSid data)
    let e := if w > 0 then e.call src (.consume srcSid w) else e
    (e, if w < data.length then pend ++ data.drop w else pend)

/-- The loop of `flush_pend`. A round takes at least one byte, so their number is enough fuel. -/
def flushLoop (src : Tunnel ne nw) (srcSid : UInt32) (dst : Tunnel ne nw) (dstSid : UInt32) :
    ℕ → Router ne nw → Bytes → Router ne nw × Bytes
  | 0, e, pend => (e, pend)
  | n + 1, e, pend =>
    if pend = [] then (e, pend)
    else
      let w := e.accepts dst dstSid pend
      let e := e.call dst (.write dstSid pend)
      if w = 0 then (e, pend)
      else flushLoop src srcSid dst dstSid n (e.call src (.consume srcSid w)) (pend.drop w)

def flushPend (e : Router ne nw) (src : Tunnel ne nw) (srcSid : UInt32) (dst : Tunnel ne nw)
    (dstSid : UInt32) (pend : Bytes) : Router ne nw × Bytes :=
  flushLoop src srcSid dst dstSid pend.length e pend

def routeKill (e : Router ne nw) (p : ℕ) (rstUp rstDown : Bool) : Router ne nw :=
  match e.heap p with
  | none => e
  | some r =>
    if r.gone then e
    else
      let e := e.setRoute p { r with gone := true }
      let e := if rstUp then e.call (.edge r.edgeIdx) (.reset r.upSid muxCodeInternal) else e
      let e :=
        if rstDown then e.call (.worker r.workerIdx) (.reset r.downSid muxCodeInternal) else e
      e.routeFree p

/-! ### Events

The handlers of an edge's events and of a worker's have these branches in common, with the sides
exchanged. Only those of a worker make sure that the other side has a session. -/

/-- STREAM_DATA from the side of `t`. -/
def onStreamData (e : Router ne nw) (t : Tunnel ne nw) (sid : UInt32) (data : Bytes) :
    Router ne nw :=
  match e.find t sid with
  | none => e
  | some (p, r) =>
    let o := t.side.other
    if e.hasMux (r.tunnel o) = false then e
    else
      let (e, pend) := e.fwd t (r.sid t.side) (r.tunnel o) (r.sid o) (r.pend t.side) data
      e.setRoute p (r.setPend pend t.side)

/-- WRITABLE: the window of `t` has reopened. -/
def onWritable (e : Router ne nw) (t : Tunnel ne nw) (sid : UInt32) : Router ne nw :=
  match e.find t sid with
  | none => e
  | some (p, r) =>
    let o := t.side.other
    if e.hasMux (r.tunnel o) = false then e
    else
      let (e, pend) := e.flushPend (r.tunnel o) (r.sid o) t (r.sid t.side) (r.pend o)
      e.setRoute p (r.setPend pend o)

/-- STREAM_CLOSED from the side of `t`. -/
def onStreamClosed (e : Router ne nw) (t : Tunnel ne nw) (sid : UInt32) : Router ne nw :=
  match e.find t sid with
  | none => e
  | some (p, r) =>
    let o := t.side.other
    if e.hasMux (r.tunnel o) = false then e
    else
      let (e, pend) := e.flushPend t (r.sid t.side) (r.tunnel o) (r.sid o) (r.pend t.side)
      let e := e.call (r.tunnel o) (.close (r.sid o))
      let e := e.setRoute p ((r.setPend pend t.side).setFin t.side)
      if r.fin o then e.routeFree p else e

section Handlers

variable (hmac : Hmac)

/-- A round of the loop of `on_up_events`. -/
def onUpEvent (e : Router ne nw) (i : Fin ne) : Event → Router ne nw
  | .peerHello _ _ _ _ auth nonce =>
    if e.checkAuth hmac auth nonce then e.modify (.edge i) fun c => { c with ready := true }
    else e.call (.edge i) (.goaway muxCodeRefused)
  | .opened sid metadata =>
    match e.pickWorker with
    | (e, none) => e.call (.edge i) (.reset sid muxCodeRefused)
    | (e, some j) =>
      match (e.conn (.worker j)).mux with
      | none => e
      | some w =>
        match (muxOpen w metadata).2 with
        | .error _ =>
          (e.call (.worker j) (.open metadata)).call (.edge i) (.reset sid muxCodeRefused)
        | .ok ds => (e.call (.worker j) (.open metadata)).routeNew i sid j ds
  | .data sid data => e.onStreamData (.edge i) sid data
  | .writable sid => e.onWritable (.edge i) sid
  | .closed sid => e.onStreamClosed (.edge i) sid
  | .reset sid _ =>
    match e.find (.edge i) sid with
    | none => e
    | some (p, _) => e.routeKill p false true
  | .capacity _ | .goaway _ _ | .fatal _ => e

/-- A round of the loop of `on_worker_events`. -/
def onWorkerEvent (e : Router ne nw) (j : Fin nw) : Event → Router ne nw
  | .peerHello weight _ _ _ auth nonce =>
    if e.checkAuth hmac auth nonce then
      e.modify (.worker j) fun c => { c with ready := true, weight := nz weight 1, swrrCw := 0 }
    else e.call (.worker j) (.goaway muxCodeRefused)
  | .capacity weight => e.modify (.worker j) fun c => { c with weight := weight }
  | .data sid data => e.onStreamData (.worker j) sid data
  | .writable sid => e.onWritable (.worker j) sid
  | .closed sid => e.onStreamClosed (.worker j) sid
  | .reset sid _ =>
    match e.find (.worker j) sid with
    | none => e
    | some (p, _) => e.routeKill p true false
  -- workers never open toward us
  | .opened sid _ => e.call (.worker j) (.reset sid muxCodeRefused)
  | .goaway _ _ | .fatal _ => e

def onEvent (e : Router ne nw) : Tunnel ne nw → Event → Router ne nw
  | .edge i => e.onUpEvent hmac i
  | .worker j => e.onWorkerEvent hmac j

/-- An event, if there is one, taken from the queue and handled. -/
def nextEvent (e : Router ne nw) (t : Tunnel ne nw) : Router ne nw :=
  match (e.conn t).mux.bind fun s => (muxNextEvent s).2 with
  | none => e
  | some ev => (e.call t .nextEvent).onEvent hmac t ev

/-- The events that can be taken before the queue is empty: while they are handled the session may
queue FATAL, and nothing else. -/
def eventsLeft (e : Router ne nw) (t : Tunnel ne nw) : ℕ :=
  match (e.conn t).mux with
  | none => 0
  | some s => s.q.count + if s.dead then 0 else 1

/-- `on_up_events` or `on_worker_events`. -/
def onEvents (e : Router ne nw) (t : Tunnel ne nw) : Router ne nw :=
  (fun e => e.nextEvent hmac t)^[e.eventsLeft t] e

/-! ### Tunnels -/

/-- The routes of a tunnel that has died are reset on their other side, -/
def resetRoutes (e : Router ne nw) (t : Tunnel ne nw) : Router ne nw :=
  (e.conn t).routes.entries.foldl (fun e en =>
    match e.heap en.2 with
    | none => e
    | some r =>
      if r.gone then e
      else e.call (r.tunnel t.side.other) (.reset (r.sid t.side.other) muxCodeInternal)) e

/-- and freed: as long as the map has an entry, the first. -/
def freeRoutes (t : Tunnel ne nw) : ℕ → Router ne nw → Router ne nw
  | 0, e => e
  | n + 1, e =>
    match (e.conn t).routes.entries with
    | [] => e
    | en :: _ =>
      match e.heap en.2 with
      | none => e
      | some r => freeRoutes t n ((e.setRoute en.2 { r with gone := true }).routeFree en.2)

/-- `drop_edge_routes` or `drop_worker_routes`. -/
def dropRoutes (e : Router ne nw) (t : Tunnel ne nw) : Router ne nw :=
  let e := e.resetRoutes t
  freeRoutes t (e.conn t).routes.entries.length e

def connTeardown (e : Router ne nw) (t : Tunnel ne nw) (now : UInt64) : Router ne nw :=
  (e.dropRoutes t).modify t fun c =>
    { c with
      mux := none
      fd := false
      connecting := false
      ready := false
      recv := []
      inflight := 0
      nextAttempt := now + 500
      credits := [] }

def connFlush (t : Tunnel ne nw) : List WriteAnswer → Router ne nw → Router ne nw × Bool :=
  sendLoop (fun e => (e.conn t).mux) fun e n => e.call t (.sendAdvance n)

/-- `mux_recv` over the receive buffer, and the events; the result is that of `mux_recv`. -/
def connPump (e : Router ne nw) (t : Tunnel ne nw) : Router ne nw × Except MuxErr ℕ :=
  match (e.conn t).mux with
  | none => (e, .error .param)
  | some s =>
    let c := (muxRecv s (e.conn t).recv).2
    let e := (e.call t (.recv (e.conn t).recv)).onEvents hmac t
    (e.modify t fun k => { k with recv := k.recv.drop (accepted c) }, c)

def connReader (t : Tunnel ne nw) : Reader (Router ne nw) where
  recv e := (e.conn t).recv
  stash e b := e.modify t fun c => { c with recv := c.recv ++ b }
  pump e := e.connPump hmac t

def connRead (t : Tunnel ne nw) : List ReadAnswer → Router ne nw → Router ne nw × Bool :=
  (connReader hmac t).readLoop

/-- A tunnel that is down is dialled, unless it is too early. -/
def connTickConnect (e : Router ne nw) (t : Tunnel ne nw) (now : UInt64) (dialled : Bool)
    (failedAt : UInt64) : Router ne nw :=
  if (e.conn t).fd ∨ now < (e.conn t).nextAttempt then e
  else if dialled = false then e.modify t fun c => { c with nextAttempt := failedAt + 1000 }
  else e.modify t fun c => { c with fd := true, connecting := true }

/-- The socket has connected, or not. -/
def connFinishConnect (e : Router ne nw) (t : Tunnel ne nw) (err : Bool)
    (nonce : Nonce) (failedAt : UInt64) (answers : List WriteAnswer) :
    Router ne nw :=
  let failed := e.modify t fun c => { c with fd := false, nextAttempt := failedAt + 1000 }
  if err then failed
  else
    match muxSessionNew (connBuildCfg hmac e.cfg nonce) .dialer with
    | none => failed
    | some s =>
      (connFlush t answers (e.modify t fun c => { c with mux := some s, connecting := false })).1

/-! ### The main loop -/

/-- What the system answers on one tunnel in one iteration of the main loop. -/
structure Answers where
  tickAt : UInt64 := 0
  dialled : Bool := true
  tickFailedAt : UInt64 := 0
  timerFlush : List WriteAnswer := []
  /-- POLLIN, POLLOUT, and POLLHUP or POLLERR, in `revents`. -/
  pollIn : Bool := false
  pollOut : Bool := false
  pollErr : Bool := false
  sockErr : Bool := false
  nonce : Nonce := zeroNonce
  finishFailedAt : UInt64 := 0
  finishFlush : List WriteAnswer := []
  reads : List ReadAnswer := []
  writes : List WriteAnswer := []
  downAt : UInt64 := 0
  lastFlush : List WriteAnswer := []

/-- All tunnels, in the order of the source. -/
def tunnels (ne nw : ℕ) : List (Tunnel ne nw) :=
  (List.finRange ne).map .edge ++ (List.finRange nw).map .worker

/-- Keepalive, the events and a flush, for a tunnel with a session. -/
def connTimer (e : Router ne nw) (t : Tunnel ne nw) (now : UInt64) (answers : List WriteAnswer) :
    Router ne nw :=
  if e.hasMux t then
    (connFlush t answers ((e.call t (.onTimer now)).onEvents hmac t)).1
  else e

/-- What a tunnel is polled for: to connect, to read unless too much is to be sent, to write if
something is. -/
def pollIn (c : EpConn) : Bool :=
  !c.connecting && (c.mux.map muxOutPending).getD 0 < 4 * 1024 * 1024

def pollOut (c : EpConn) : Bool := c.connecting || (c.mux.map muxOutPending).getD 0 ≠ 0

/-- The turn of a tunnel after `poll`, for which it was set up as in `polled`; and whether the
tunnel goes on. -/
def connTurn (e : Router ne nw) (polled : EpConn) (t : Tunnel ne nw) (a : Answers) :
    Router ne nw × Bool :=
  let readable := a.pollIn && pollIn polled || a.pollErr
  let writable := a.pollOut && pollOut polled
  if polled.fd = false then (e, true)
  else if (e.conn t).connecting then
    (if writable || a.pollErr then
      e.connFinishConnect hmac t a.sockErr a.nonce a.finishFailedAt a.finishFlush
    else e, true)
  else
    match if readable then connRead hmac t a.reads e else (e, true) with
    | (e, false) => (e.connTeardown t a.downAt, false)
    | (e, true) =>
      match if (e.conn t).fd && writable then connFlush t a.writes e else (e, true) with
      | (e, false) => (e.connTeardown t a.downAt, false)
      | (e, true) => (e, true)

/-- The tunnels are dialled where they are down, and the timers run. -/
def beforePoll (e : Router ne nw) (now : UInt64) (ans : Tunnel ne nw → Answers) : Router ne nw :=
  let e := (tunnels ne nw).foldl (fun e t =>
    e.connTickConnect t (ans t).tickAt (ans t).dialled (ans t).tickFailedAt) e
  (tunnels ne nw).foldl (fun e t => e.connTimer hmac t now (ans t).timerFlush) e

/-- What `poll` finds is handled, and what the routes have produced is sent. -/
def afterPoll (e : Router ne nw) (ans : Tunnel ne nw → Answers) : Router ne nw :=
  let polled := e.conn
  let e := (tunnels ne nw).foldl (fun e t => (e.connTurn hmac (polled t) t (ans t)).1) e
  (tunnels ne nw).foldl (fun e t =>
    if e.hasMux t then (connFlush t (ans t).lastFlush e).1 else e) e

/-- An iteration of the main loop of `ep_run`; `poll` may be interrupted. -/
def epRunLoop (e : Router ne nw) (now : UInt64) (interrupted : Bool)
    (ans : Tunnel ne nw → Answers) : Router ne nw :=
  let e := e.beforePoll hmac now ans
  if interrupted then e else e.afterPoll hmac ans

/-! ### One thing at a time -/

/-- What the loop is made of, on one tunnel: to dial and to connect, the timer, an event, bytes in
the receive buffer and `mux_recv` over it, bytes sent, the end of the tunnel. -/
inductive Move (ne nw : ℕ) where
  | tick (t : Tunnel ne nw) (now : UInt64) (dialled : Bool) (failedAt : UInt64)
  | finish (t : Tunnel ne nw) (err : Bool) (nonce : Nonce)
      (failedAt : UInt64)
  | timer (t : Tunnel ne nw) (now : UInt64)
  | event (t : Tunnel ne nw)
  | stash (t : Tunnel ne nw) (b : Bytes)
  | recv (t : Tunnel ne nw)
  | advance (t : Tunnel ne nw) (n : ℕ)
  | teardown (t : Tunnel ne nw) (now : UInt64)

def move (e : Router ne nw) : Move ne nw → Router ne nw
  | .tick t now dialled failedAt => e.connTickConnect t now dialled failedAt
  | .finish t err nonce failedAt =>
    if (e.conn t).fd && (e.conn t).connecting then
      e.connFinishConnect hmac t err nonce failedAt []
    else e
  | .timer t now => e.call t (.onTimer now)
  | .event t => e.nextEvent hmac t
  | .stash t b => e.modify t fun c => { c with recv := b }
  | .recv t => e.call t (.recv (e.conn t).recv)
  | .advance t n => e.call t (.sendAdvance n)
  | .teardown t now => e.connTeardown t now

end Handlers

/-- The state of `ep_run` before its loop. -/
def start (ne nw : ℕ) (cfg : EpConfig) : Router ne nw where
  cfg := cfg
  conn := fun _ => {}
  heap := fun _ => none
  next := 0
  freed := []

end Router

end MuxProtocol
