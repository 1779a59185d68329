import MuxProtocol.Daemon
import Mathlib.Data.List.AList

/-!
# The client library of the workers

A thread of the library owns the session and the tunnel. The threads of the application share the
streams with it: a buffer each way, and lists of the streams that have work for the thread or news
for the application. All of this is under one lock, so a call is one step. A call that waits is a
step only where its condition holds. Memory is never short; the map from stream ids to streams is a
finite map here, and the buffers are lists of bytes.
-/

namespace MuxProtocol

/-! ### State -/

/-- `lp_config`, without the addresses. -/
structure LpConfig where
  /-- There is a `listen_addr`. -/
  listens : Bool := false
  token : Option Bytes := none
  peerId : Option Bytes := none
  weight : UInt32 := 0
  initWindow : UInt32 := 0
  sessionWindow : UInt32 := 0
  heartbeatMs : UInt32 := 0

/-- The bits `LP_ACCEPT`, `LP_READABLE`, `LP_WRITABLE` and `LP_CLOSED`. -/
structure LpBits where
  accept : Bool := false
  readable : Bool := false
  writable : Bool := false
  closed : Bool := false
  deriving DecidableEq, Repr

def LpBits.or (a b : LpBits) : LpBits where
  accept := a.accept || b.accept
  readable := a.readable || b.readable
  writable := a.writable || b.writable
  closed := a.closed || b.closed

/-- `lp_event`, with the address of the stream. -/
structure LpEvent where
  stream : ℕ
  events : LpBits
  deriving DecidableEq, Repr

/-- `struct lp_stream`. -/
structure LpStream where
  sid : UInt32
  /-- It is in the registry. -/
  inReg : Bool := false
  rbuf : Bytes := []
  wbuf : Bytes := []
  /-- The bytes read that `mux_consume` was not called for. -/
  consumePending : ℕ := 0
  eof : Bool := false
  reset : Bool := false
  appClosed : Bool := false
  finSent : Bool := false
  protoDone : Bool := false
  metadata : Bytes := []
  inPending : Bool := false
  evPending : LpBits := {}
  inReady : Bool := false
  wantWritable : Bool := false
  /-- History: the number of the session it was opened in. -/
  born : ℕ
  /-- History: the application has it. -/
  handed : Bool := false
  /-- History: the bytes of its STREAM_DATA. -/
  surfaced : Bytes := []
  /-- History: the bytes that the application has read. -/
  returned : Bytes := []
  /-- History: the bytes taken from the application. -/
  written : Bytes := []
  /-- History: the bytes that `mux_write` accepted. -/
  sent : Bytes := []
  /-- History: STREAM_CLOSED came. -/
  told : Bool := false
  /-- History: it was reported READABLE after all that has come, and after the last LP_AGAIN. -/
  reported : Bool := false

namespace LpStream

/-- There is something for the application to read: bytes, or the end. -/
def holds (st : LpStream) : Bool := st.rbuf ≠ [] || st.eof || st.reset

/-! ### What happens to a stream -/

/-- STREAM_DATA. -/
def arrive (data : Bytes) (st : LpStream) : LpStream :=
  { st with rbuf := st.rbuf ++ data, surfaced := st.surfaced ++ data, reported := false }

/-- STREAM_CLOSED. -/
def closed (st : LpStream) : LpStream :=
  { st with
    eof := true
    protoDone := st.protoDone || st.finSent
    told := true
    reported := false }

/-- STREAM_RESET, or the end of the tunnel. -/
def aborted (st : LpStream) : LpStream :=
  { st with reset := true, eof := true, protoDone := true, reported := false }

/-- On the pending list, -/
def pend (st : LpStream) : LpStream := { st with inPending := true }

/-- and off it. -/
def unpend (st : LpStream) : LpStream := { st with inPending := false }

/-- What is left of a stream without its session. -/
def bereave (st : LpStream) : LpStream := { st with inPending := false, inReg := false }

/-- News for the application, -/
def mark (bits : LpBits) (st : LpStream) : LpStream :=
  { st with evPending := st.evPending.or bits, inReady := true }

/-- and the news reported, unless the application no longer cares. -/
def unmark (st : LpStream) : LpStream :=
  { st with
    inReady := false
    evPending := {}
    reported := st.reported || (st.evPending.readable && !st.appClosed) }

/-- The application reads `n` bytes, or what there is. -/
def read (n : ℕ) (st : LpStream) : LpStream :=
  { st with
    rbuf := st.rbuf.drop n
    consumePending := st.consumePending + (st.rbuf.take n).length
    returned := st.returned ++ st.rbuf.take n }

def write (b : Bytes) (st : LpStream) : LpStream :=
  { st with wbuf := st.wbuf ++ b, written := st.written ++ b }

/-- The session accepts `w` bytes. -/
def send (w : ℕ) (st : LpStream) : LpStream :=
  { st with wbuf := st.wbuf.drop w, sent := st.sent ++ st.wbuf.take w }

/-- `mux_consume` was called for all that was read. -/
def credited (st : LpStream) : LpStream := { st with consumePending := 0 }

/-- There is room for the application to write. -/
def sated (st : LpStream) : LpStream := { st with wantWritable := false }

/-- The FIN is sent. -/
def finish (st : LpStream) : LpStream :=
  { st with finSent := true, protoDone := st.protoDone || st.eof }

end LpStream

/-- `struct lp_client`, with the streams allocated. -/
structure LpClient where
  cfg : LpConfig
  stopping : Bool := false
  /-- There is a tunnel. -/
  fd : Bool := false
  mux : Option Session := none
  authed : Bool := false
  recv : Bytes := []
  /-- The registry, from stream ids to the addresses of streams. -/
  reg : AList fun _ : UInt32 => ℕ := ∅
  accept : List ℕ := []
  pending : List ℕ := []
  all : List ℕ := []
  pollMode : Bool := false
  /-- The bytes in the notify pipe. -/
  notify : ℕ := 0
  notified : Bool := false
  ready : List ℕ := []
  heap : ℕ → Option LpStream := fun _ => none
  /-- The address of the next stream. -/
  next : ℕ := 0
  /-- History: the number of sessions so far. -/
  epoch : ℕ := 0
  /-- History: the calls made for streams on the present session, each with the number of the
  session in which its stream was opened. -/
  issued : List (ℕ × Call) := []
  /-- History: the streams freed, as they were. -/
  freed : List (ℕ × LpStream) := []

/-- Above this backlog a write waits. -/
def lpWbufHigh : ℕ := 2 ^ 20

def lpAgain : ℤ := -2

namespace LpClient

/-- A call on the session. The source makes none where there is no session. -/
def call (c : LpClient) (a : Call) : LpClient := { c with mux := c.mux.map (·.call a) }

/-- A call on the session for the stream `st`. -/
def issue (c : LpClient) (st : LpStream) (a : Call) : LpClient :=
  { c.call a with issued := c.issued ++ [(st.born, a)] }

/-- The bytes that `mux_write` accepts. -/
def accepts (c : LpClient) (sid : UInt32) (p : Bytes) : ℕ :=
  match c.mux with
  | none => 0
  | some s => accepted (muxWrite s sid p).2

def modify (c : LpClient) (p : ℕ) (g : LpStream → LpStream) : LpClient :=
  { c with heap := Function.update c.heap p ((c.heap p).map g) }

/-! ### Lists -/

def regPut (c : LpClient) (sid : UInt32) (p : ℕ) : LpClient :=
  match c.reg.lookup sid with
  -- the entry is overwritten, and the stream not marked
  | some _ => { c with reg := c.reg.insert sid p }
  | none => { c with reg := c.reg.insert sid p }.modify p fun st => { st with inReg := true }

/-- The stream of a stream id, with its address. -/
def regGet (c : LpClient) (sid : UInt32) : Option (ℕ × LpStream) :=
  (c.reg.lookup sid).bind fun p => (c.heap p).map (p, ·)

def pendingPush (c : LpClient) (p : ℕ) : LpClient :=
  if (c.heap p).any LpStream.inPending then c
  else { c with pending := p :: c.pending }.modify p (·.pend)

def notifyRaise (c : LpClient) : LpClient :=
  if c.pollMode = false ∨ c.notified then c
  else { c with notified := true, notify := c.notify + 1 }

def readyMark (c : LpClient) (p : ℕ) (bits : LpBits) : LpClient :=
  if c.pollMode = false then c
  else
    ({ c with ready := if (c.heap p).any LpStream.inReady then c.ready else p :: c.ready }.modify p
      (·.mark bits)).notifyRaise

/-! ### Streams -/

/-- The stream is at the address `c.next`. -/
def streamNew (c : LpClient) (sid : UInt32) (metadata : Bytes) : LpClient :=
  { c with
    heap := Function.update c.heap c.next (some { sid, metadata, born := c.epoch })
    all := c.next :: c.all
    next := c.next + 1 }

def streamTryFree (c : LpClient) (p : ℕ) : LpClient :=
  match c.heap p with
  | none => c
  | some st =>
    if ¬ (st.protoDone ∧ st.appClosed) then c
    -- freed after it drains
    else if st.inPending ∨ st.inReady then c
    else
      { c with
        reg := if st.inReg then c.reg.erase st.sid else c.reg
        all := c.all.erase p
        heap := Function.update c.heap p none
        freed := c.freed ++ [(p, st)] }

/-! ### The events of the session -/

def onOpened (c : LpClient) (sid : UInt32) (metadata : Bytes) : LpClient :=
  let p := c.next
  let c := (c.streamNew sid metadata).regPut sid p
  { c with accept := c.accept ++ [p] }.notifyRaise

def onData (c : LpClient) (p : ℕ) (data : Bytes) : LpClient :=
  (c.modify p (·.arrive data)).readyMark p { readable := true }

def onClosed (c : LpClient) (p : ℕ) : LpClient :=
  ((c.modify p (·.closed)).readyMark p { readable := true, closed := true }).streamTryFree p

def onReset (c : LpClient) (p : ℕ) : LpClient :=
  ((c.modify p (·.aborted)).readyMark p { readable := true, closed := true }).streamTryFree p

def onWritable (c : LpClient) (p : ℕ) (st : LpStream) : LpClient :=
  if st.wbuf ≠ [] then c.pendingPush p else c

section Handlers

variable (hmac : Hmac)

def onPeerHello (c : LpClient) (auth nonce : Bytes) : LpClient :=
  match c.cfg.token with
  | none => { c with authed := true }
  | some token =>
    let c := { c with authed := proofPasses hmac token auth nonce }
    if c.authed then c else c.call (.goaway muxCodeRefused)

/-- A round of the loop of `handle_events`. -/
def onEvent (c : LpClient) : Event → LpClient
  | .peerHello _ _ _ _ auth nonce => c.onPeerHello hmac auth nonce
  | .opened sid metadata => c.onOpened sid metadata
  | .data sid data =>
    match c.regGet sid with
    | none => c
    | some (p, _) => c.onData p data
  | .closed sid =>
    match c.regGet sid with
    | none => c
    | some (p, _) => c.onClosed p
  | .reset sid _ =>
    match c.regGet sid with
    | none => c
    | some (p, _) => c.onReset p
  | .writable sid =>
    match c.regGet sid with
    | none => c
    | some (p, st) => c.onWritable p st
  | .capacity _ | .goaway _ _ | .fatal _ => c

/-- An event, if there is one, taken from the queue and handled. -/
def nextEvent (c : LpClient) : LpClient :=
  match c.mux.bind fun s => (muxNextEvent s).2 with
  | none => c
  | some ev => (c.call .nextEvent).onEvent hmac ev

/-- The events that can be taken before the queue is empty: while they are handled the session may
queue FATAL, and nothing else. -/
def eventsLeft (c : LpClient) : ℕ :=
  match c.mux with
  | none => 0
  | some s => s.q.count + if s.dead then 0 else 1

def handleEvents (c : LpClient) : LpClient := (fun c => c.nextEvent hmac)^[c.eventsLeft] c

end Handlers

/-! ### The requests of the application -/

/-- The loop of `flush_wbuf`. A round takes at least one byte, so their number is enough fuel. -/
def flushLoop (p : ℕ) : ℕ → LpClient → LpClient
  | 0, c => c
  | n + 1, c =>
    match c.heap p with
    | none => c
    | some st =>
      if st.wbuf = [] then c
      else
        let w := c.accepts st.sid st.wbuf
        let c := c.issue st (.write st.sid st.wbuf)
        if w = 0 then c else flushLoop p n (c.modify p (·.send w))

/-- A stream below half of the mark has room again. -/
def signalRoom (c : LpClient) (p : ℕ) : LpClient :=
  match c.heap p with
  | none => c
  | some st =>
    if st.wbuf.length ≤ lpWbufHigh / 2 ∧ st.wantWritable then
      (c.modify p (·.sated)).readyMark p { writable := true }
    else c

def flushWbuf (c : LpClient) (p : ℕ) : LpClient :=
  match c.heap p with
  | none => c
  | some st => if st.wbuf = [] then c else (flushLoop p st.wbuf.length c).signalRoom p

def creditRead (c : LpClient) (p : ℕ) : LpClient :=
  match c.heap p with
  | none => c
  | some st =>
    if st.consumePending > 0 then
      (c.issue st (.consume st.sid st.consumePending)).modify p (·.credited)
    else c

/-- The FIN is sent only when the whole backlog is. -/
def sendFin (c : LpClient) (p : ℕ) : LpClient :=
  match c.heap p with
  | none => c
  | some st =>
    if st.appClosed ∧ st.finSent = false ∧ st.wbuf = [] then
      (c.issue st (.close st.sid)).modify p (·.finish)
    else c

def processPending (c : LpClient) (p : ℕ) : LpClient :=
  (((c.creditRead p).flushWbuf p).sendFin p).streamTryFree p

/-- The head of the pending list. -/
def workNext (c : LpClient) : LpClient :=
  match c.pending with
  | [] => c
  | p :: ps =>
    ({ c with pending := ps }.modify p (·.unpend)).processPending p

/-- The source takes the list first. As nothing is added to it meanwhile, this is the same. -/
def runPending (c : LpClient) : LpClient := workNext^[c.pending.length] c

/-! ### The tunnel -/

def tunnelFlush : List WriteAnswer → LpClient → LpClient × Bool :=
  sendLoop mux fun c n => c.call (.sendAdvance n)

section Handlers

variable (hmac : Hmac)

/-- The result is that of `mux_recv`. -/
def tunnelPump (c : LpClient) : LpClient × Except MuxErr ℕ :=
  match c.mux with
  | none => (c, .error .param)
  | some s =>
    let cc := (muxRecv s c.recv).2
    let c := (c.call (.recv c.recv)).handleEvents hmac
    ({ c with recv := c.recv.drop (accepted cc) }, cc)

def tunnelReader : Reader LpClient where
  recv c := c.recv
  stash c b := { c with recv := c.recv ++ b }
  pump c := c.tunnelPump hmac

def tunnelRead : List ReadAnswer → LpClient → LpClient × Bool := (tunnelReader hmac).readLoop

end Handlers

/-- What `session_down` does to each stream, -/
def lose (c : LpClient) (p : ℕ) : LpClient :=
  (c.modify p fun st => if st.protoDone then st else st.aborted).readyMark p
    { readable := true, closed := true }

/-- and to each afterwards. -/
def unlink (c : LpClient) (p : ℕ) : LpClient :=
  c.modify p (·.bereave)

/-- Nothing is pending or in the registry any more, and the session is gone. -/
def hangUp (c : LpClient) : LpClient :=
  { c.all.foldl unlink c with
    pending := []
    reg := ∅
    mux := none
    fd := false
    authed := false
    recv := []
    issued := [] }

def sessionDown (c : LpClient) : LpClient :=
  let c := (c.all.foldl lose c).hangUp
  -- those that the application has released
  c.all.foldl streamTryFree c

section Handlers

variable (hmac : Hmac)

/-- The configuration of a new session, with the random bytes of its nonce. -/
def buildCfg (cfg : LpConfig) (nonce : Nonce) : MuxConfig where
  initWindow := cfg.initWindow
  sessionWindow := cfg.sessionWindow
  heartbeatMs := nz cfg.heartbeatMs 15000
  weight := nz cfg.weight 1
  peerId := cfg.peerId.getD []
  nonce := if cfg.token.isSome then nonce else []
  auth := match cfg.token with
    | none => []
    | some token => muxAuthProof hmac token nonce

/-- The end of `session_up`, with the tunnel connected. -/
def sessionUp (c : LpClient) (nonce : Nonce) : LpClient :=
  match muxSessionNew (buildCfg hmac c.cfg nonce)
    (if c.cfg.listens then .acceptor else .dialer) with
  | none => c
  | some s => { c with mux := some s, fd := true, epoch := c.epoch + 1 }

end Handlers

/-! ### The calls of the application

What a call returns is `none` where it waits, and changes nothing. -/

/-- The head of the accept queue. -/
def acceptPop (c : LpClient) : LpClient × Option ℕ :=
  match c.accept with
  | [] => (c, none)
  | p :: ps => ({ c with accept := ps }.modify p fun st => { st with handed := true }, some p)

def lpAccept (c : LpClient) : LpClient × Option (Option ℕ) :=
  if c.accept = [] ∧ c.stopping = false then (c, none)
  else
    let (c, p) := c.acceptPop
    (c, some p)

/-- Bytes for the application, to be credited by the thread of the library. -/
def takeRead (c : LpClient) (p : ℕ) (st : LpStream) (n : ℕ) : LpClient × ℤ × Bytes :=
  ((c.modify p (·.read n)).pendingPush p, (st.rbuf.take n).length, st.rbuf.take n)

/-- Bytes of the application, to be sent by the thread of the library. -/
def putWrite (c : LpClient) (p : ℕ) (b : Bytes) : LpClient × ℤ :=
  ((c.modify p (·.write b)).pendingPush p, b.length)

/-- Of the stream `st` at `p`. -/
def lpRead (c : LpClient) (p : ℕ) (st : LpStream) (n : ℕ) : LpClient × Option (ℤ × Bytes) :=
  if n = 0 then (c, some (0, []))
  else if st.rbuf = [] ∧ st.eof = false ∧ st.reset = false ∧ c.stopping = false then (c, none)
  else if st.reset then (c, some (-1, []))
  else if st.rbuf = [] then (c, some (0, []))
  else ((c.takeRead p st n).1, some (c.takeRead p st n).2)

def lpReadNb (c : LpClient) (p : ℕ) (st : LpStream) (n : ℕ) : LpClient × ℤ × Bytes :=
  if n = 0 then (c, 0, [])
  else if st.reset then (c, -1, [])
  else if st.rbuf = [] then
    if st.eof then (c, 0, [])
    else (c.modify p fun st => { st with reported := false }, lpAgain, [])
  else c.takeRead p st n

def lpWrite (c : LpClient) (p : ℕ) (st : LpStream) (b : Bytes) : LpClient × Option ℤ :=
  if b = [] then (c, some 0)
  else if st.wbuf.length ≥ lpWbufHigh ∧ st.reset = false ∧ st.finSent = false
      ∧ c.stopping = false then (c, none)
  else if st.reset ∨ st.finSent ∨ c.stopping then (c, some (-1))
  else ((c.putWrite p b).1, some (c.putWrite p b).2)

def lpWriteNb (c : LpClient) (p : ℕ) (st : LpStream) (b : Bytes) : LpClient × ℤ :=
  if b = [] then (c, 0)
  else if st.reset ∨ st.finSent ∨ c.stopping then (c, -1)
  else if st.wbuf.length ≥ lpWbufHigh then
    (c.modify p fun st => { st with wantWritable := true }, lpAgain)
  else c.putWrite p b

def lpClose (c : LpClient) (p : ℕ) : LpClient :=
  (c.modify p fun st => { st with appClosed := true }).pendingPush p

def lpFileno (c : LpClient) : LpClient := { c with pollMode := true }

/-- The loop of `lp_poll` over the accept queue, with space for so many events. -/
def pollAccept : ℕ → LpClient → LpClient × List LpEvent
  | 0, c => (c, [])
  | n + 1, c =>
    match c.acceptPop with
    | (c, none) => (c, [])
    | (c, some p) =>
      let (c, evs) := pollAccept n c
      (c, { stream := p, events := { accept := true } } :: evs)

/-- The head of the ready list: its event, or none if the application no longer cares. -/
def readyPop (c : LpClient) : LpClient × List LpEvent :=
  match c.ready with
  | [] => (c, [])
  | p :: ps =>
    match c.heap p with
    | none => ({ c with ready := ps }, [])
    | some st =>
      let c := { c with ready := ps }.modify p (·.unmark)
      if st.appClosed then (c.streamTryFree p, [])
      else (c, [{ stream := p, events := st.evPending }])

/-- The loop of `lp_poll` over the ready list. A round shortens it, so its length is enough fuel. -/
def pollReady : ℕ → ℕ → LpClient → LpClient × List LpEvent
  | 0, _, c => (c, [])
  | f + 1, n, c =>
    if n = 0 ∨ c.ready = [] then (c, [])
    else
      let (c, ev) := c.readyPop
      let (c, evs) := pollReady f (n - ev.length) c
      (c, ev ++ evs)

/-- The pipe is drained first, and gets a byte at the end if there is more than fits. -/
def lpPoll (c : LpClient) (max : ℕ) : LpClient × List LpEvent :=
  if max = 0 then (c, [])
  else
    let (c, evs) := pollAccept max { c with notify := 0, notified := false }
    let (c, evs') := pollReady c.ready.length (max - evs.length) c
    (if c.accept ≠ [] ∨ c.ready ≠ [] then { c with notified := false }.notifyRaise else c,
      evs ++ evs')

def lpDisconnect (c : LpClient) : LpClient := { c with stopping := true }

/-- A call of the application. -/
inductive AppCall where
  | accept
  | read (p n : ℕ)
  | readNb (p n : ℕ)
  | write (p : ℕ) (b : Bytes)
  | writeNb (p : ℕ) (b : Bytes)
  | close (p : ℕ)
  | fileno
  | poll (max : ℕ)
  | disconnect
  deriving DecidableEq

/-- A stream that the application has and has not closed: it uses no other. -/
def handle (c : LpClient) (p : ℕ) : Option LpStream :=
  (c.heap p).filter fun st => st.handed && !st.appClosed

def app (c : LpClient) : AppCall → LpClient
  | .accept => c.lpAccept.1
  | .read p n => ((c.handle p).map fun st => (c.lpRead p st n).1).getD c
  | .readNb p n => ((c.handle p).map fun st => (c.lpReadNb p st n).1).getD c
  | .write p b => ((c.handle p).map fun st => (c.lpWrite p st b).1).getD c
  | .writeNb p b => ((c.handle p).map fun st => (c.lpWriteNb p st b).1).getD c
  | .close p => ((c.handle p).map fun _ => c.lpClose p).getD c
  | .fileno => c.lpFileno
  | .poll max => (c.lpPoll max).1
  | .disconnect => c.lpDisconnect

/-! ### The thread of the library -/

section Handlers

variable (hmac : Hmac)

/-- What happens outside in an iteration of the loop of `io_main`. -/
structure IoInput where
  /-- The calls of the application while the thread connects. -/
  dialCalls : List AppCall := []
  /-- The nonce of the new session, if there is a connection. -/
  nonce : Option Nonce := none
  flush : List WriteAnswer := []
  /-- The calls of the application while the thread is in `poll`. -/
  pollCalls : List AppCall := []
  pollFailed : Bool := false
  /-- POLLIN, POLLOUT, and POLLHUP or POLLERR, in `revents`. -/
  pollIn : Bool := false
  pollOut : Bool := false
  pollErr : Bool := false
  reads : List ReadAnswer := []
  writes : List WriteAnswer := []
  now : UInt64 := 0
  lastFlush : List WriteAnswer := []

/-- Without a tunnel, `session_up`. -/
def ioConnect (c : LpClient) (a : IoInput) : LpClient :=
  if c.fd then c
  else
    let c := a.dialCalls.foldl app c
    match a.nonce with
    | none => c
    | some nonce => c.sessionUp hmac nonce

/-- What `poll` finds is handled, and the timer runs. -/
def ioAfterPoll (c : LpClient) (outPending : ℕ) (a : IoInput) : LpClient :=
  let readable := a.pollIn && outPending < 4 * 1024 * 1024 || a.pollErr
  let writable := a.pollOut && outPending ≠ 0
  if a.pollFailed then c.sessionDown
  else
    match if c.fd && readable then tunnelRead hmac a.reads c else (c, true) with
    | (c, false) => c.sessionDown
    | (c, true) =>
      match if c.fd && writable then tunnelFlush a.writes c else (c, true) with
      | (c, false) => c.sessionDown
      | (c, true) =>
        (tunnelFlush a.lastFlush ((c.call (.onTimer a.now)).handleEvents hmac)).1

/-- An iteration of the loop of `io_main`. -/
def ioLoop (c : LpClient) (a : IoInput) : LpClient :=
  if c.stopping then c
  else
    let c := c.ioConnect hmac a
    if c.fd = false then c
    else
      match tunnelFlush a.flush c.runPending with
      | (c, false) => c.sessionDown
      | (c, true) =>
        (a.pollCalls.foldl app c).ioAfterPoll hmac ((c.mux.map muxOutPending).getD 0) a

/-- Before the tunnel is dropped the output is flushed, round by round, with calls of the
application in between. -/
def drainOut : List (List WriteAnswer × List AppCall) → LpClient → LpClient
  | [], c => c
  | (ws, calls) :: as, c =>
    if (c.mux.map muxOutPending).getD 0 = 0 then c
    else
      match tunnelFlush ws c with
      | (c, false) => c
      | (c, true) =>
        if (c.mux.map muxOutPending).getD 0 = 0 then c else drainOut as (calls.foldl app c)

/-- The end of `io_main`. -/
def ioExit (c : LpClient) (rounds : List (List WriteAnswer × List AppCall)) : LpClient :=
  (if c.mux.isSome && c.fd then drainOut (rounds.take 100) c.runPending else c).sessionDown

/-! ### One thing at a time -/

/-- A call of the application, or what the loop is made of: to connect, a stream of the pending
list, bytes in the receive buffer and `mux_recv` over it, an event, the timer, bytes sent, the end
of the tunnel. -/
inductive Move where
  | app (a : AppCall)
  | up (nonce : Nonce)
  | work
  | stash (b : Bytes)
  | recv
  | event
  | timer (now : UInt64)
  | advance (n : ℕ)
  | down

def move (c : LpClient) : Move → LpClient
  | .app a => c.app a
  | .up nonce => if c.fd then c else c.sessionUp hmac nonce
  | .work => if c.fd then c.workNext else c
  | .stash b => { c with recv := b }
  | .recv => c.call (.recv c.recv)
  | .event => c.nextEvent hmac
  | .timer now => c.call (.onTimer now)
  | .advance n => c.call (.sendAdvance n)
  | .down => c.sessionDown

end Handlers

end LpClient

/-- The client of `lp_connect`. -/
def lpConnect (cfg : LpConfig) : LpClient := { cfg }

end MuxProtocol
