import MuxProtocol.Session
import MuxProtocol.Lib.Run

/-!
# Two sessions joined by a transport

Two ends, each with its session and its host, and a byte channel in each direction. Bytes leave a
session through `mux_send_buf` and `mux_send_advance`, any number at a time, and enter its peer
through `mux_recv`, any number at a time; what `mux_recv` does not consume stays in front of what
comes later.
-/

namespace MuxProtocol

/-- A call that a host makes of its own accord, not for the transport. -/
def Call.OfHost : Call → Prop
  | .recv _ | .sendAdvance _ => False
  | _ => True

/-- One end of a connection. -/
structure Party where
  session : Session
  /-- The bytes that have left the peer and that `mux_recv` has not consumed: the tail that the host
  keeps and, behind it, the channel. -/
  inbox : Bytes
  /-- History: the bytes that `mux_write` has accepted, with their stream. -/
  accepted : List (UInt32 × Bytes)

namespace Party

inductive Move where
  | call (a : Call) (h : a.OfHost)
  /-- The transport takes up to `n` bytes off the output. -/
  | transmit (n : ℕ)
  /-- `mux_recv` is given the first `n` bytes that wait. -/
  | receive (n : ℕ)

/-- The call of the session that a move is. -/
def Move.toCall (p : Party) : Move → Call
  | .call a _ => a
  | .transmit n => .sendAdvance n
  | .receive n => .recv (p.inbox.take n)

/-- What a call of `mux_write` accepts. -/
def acceptedBy (s : Session) : Call → List (UInt32 × Bytes)
  | .write sid p =>
    match (muxWrite s sid p).2 with
    | .ok n => [(sid, p.take n)]
    | .error _ => []
  | _ => []

/-- A move of `p`, next to its peer `q`. -/
def move (p q : Party) : Move → Party × Party
  | .call a _ =>
    ({ p with session := p.session.call a, accepted := p.accepted ++ acceptedBy p.session a }, q)
  | .transmit n =>
    ({ p with session := muxSendAdvance p.session n },
      { q with inbox := q.inbox ++ (muxSendBuf p.session).take n })
  | .receive n =>
    match muxRecv p.session (p.inbox.take n) with
    | (s, .ok c) => ({ p with session := s, inbox := p.inbox.drop c }, q)
    | (s, .error _) => ({ p with session := s }, q)

/-- The bytes accepted on the stream `sid`. -/
def acceptedOn (p : Party) (sid : UInt32) : Bytes :=
  (p.accepted.filter (·.1 = sid)).flatMap Prod.snd

/-- The bytes under way from `p` to `q`: those in the channel, and those that wait in the output. -/
def underWay (p q : Party) : Bytes := q.inbox ++ muxSendBuf p.session

end Party

/-- The two ends, of which one moves; the flag says which. -/
def link (l : Party × Party) : Bool × Party.Move → Party × Party
  | (false, m) => l.1.move l.2 m
  | (true, m) => (l.2.move l.1 m).swap

/-- Two new sessions, with the channels empty. -/
def connect (a b : Session) : Party × Party := (⟨a, [], []⟩, ⟨b, [], []⟩)

/-- The frames at the front of some bytes. -/
def framesIn : ℕ → Bytes → List Frame
  | 0, _ => []
  | n + 1, buf =>
    match muxParse buf with
    | .error _ => []
    | .ok (f, used) => f :: framesIn n (buf.drop used)

/-- The frames under way from `p` to `q`. -/
def inFlight (p q : Party) : List Frame := framesIn (p.underWay q).length (p.underWay q)

end MuxProtocol
