import MuxProtocol.Session

/-!
# What the daemons share

The proof in the greeting of a tunnel's peer, with the HMAC a parameter; the loops over
the socket of a tunnel, with the answers of the system; and what a host has seen of its session.
-/

namespace MuxProtocol

/-! ### The proof of the peer -/

def sha256DigestLen : ℕ := 32

abbrev Digest := { d : Bytes // d.length = sha256DigestLen }

/-- A function of a key and a message. -/
abbrev Hmac := Bytes → Bytes → Digest

/-- The random bytes of a greeting. -/
abbrev Nonce := { b : Bytes // b.length = 16 }

/-- The bytes of `mux/v1/auth`. -/
def authContext : Bytes := [0x6d, 0x75, 0x78, 0x2f, 0x76, 0x31, 0x2f, 0x61, 0x75, 0x74, 0x68]

def zeroNonce : Nonce := ⟨List.replicate 16 0, rfl⟩

def muxAuthProof (hmac : Hmac) (token nonce : Bytes) : Digest :=
  hmac token (authContext ++ nonce.take 256)

/-- No byte differs. -/
def ctEqual (a b : Bytes) : Bool := (List.zipWith (· ^^^ ·) a b).foldl (· ||| ·) 0 == 0

/-- The check that each daemon with a token makes of a greeting. -/
def proofPasses (hmac : Hmac) (token auth nonce : Bytes) : Bool :=
  auth.length = sha256DigestLen && ctEqual (muxAuthProof hmac token nonce) auth

/-! ### Sockets -/

/-- What `read` returns: bytes, of which it takes as many as there is space for; 0; -1 with EAGAIN
or EWOULDBLOCK; -1 with another error. -/
inductive ReadAnswer where
  | bytes (b : Bytes)
  | eof
  | again
  | error
  deriving DecidableEq, Repr

/-- What `write` returns; no daemon goes on after a `write` of 0 bytes. -/
inductive WriteAnswer where
  | wrote (n : ℕ)
  | again
  | error
  deriving DecidableEq, Repr

/-- The size of the receive buffers. -/
def recvCap : ℕ := 262144

section Tunnel

variable {σ : Type}

/-- The loop with which a host sends the output of its session; the result is whether the socket has
not failed. A socket out of answers takes nothing. -/
def sendLoop (mux : σ → Option Session) (advance : σ → ℕ → σ) : List WriteAnswer → σ → σ × Bool
  | [], x => (x, true)
  | a :: as, x =>
    match mux x with
    | none => (x, true)
    | some s =>
      if muxOutPending s = 0 then (x, true)
      else
        match a with
        | .wrote n => if n = 0 then (x, false) else sendLoop mux advance as (advance x n)
        | .again => (x, true)
        | .error => (x, false)

/-- What the loop that reads a tunnel does with its host: it looks at the receive buffer, adds bytes
to it, and has `mux_recv` called with it and the events handled. -/
structure Reader (σ : Type) where
  recv : σ → Bytes
  stash : σ → Bytes → σ
  pump : σ → σ × Except MuxErr ℕ

namespace Reader

variable (h : Reader σ)

/-- A round of the loop with no space in the buffer, and what the loop returns if it does. -/
def makeRoom (x : σ) : σ × Option Bool :=
  if (h.recv x).length < recvCap then (x, none)
  else
    match h.pump x with
    | (x, .error _) => (x, some false)
    | (x, .ok 0) => (x, some true)
    | (x, .ok _) => (x, none)

/-- The result is whether the tunnel goes on. A socket out of answers has nothing to read. -/
def readLoop : List ReadAnswer → σ → σ × Bool
  | [], x =>
    match h.makeRoom x with
    | (x, some ok) => (x, ok)
    | (x, none) => (x, true)
  | a :: as, x =>
    match h.makeRoom x with
    | (x, some ok) => (x, ok)
    | (x, none) =>
      match a with
      | .bytes b =>
        let space := recvCap - (h.recv x).length
        let b := b.take space
        if b = [] then (x, false)
        else
          match h.pump (h.stash x b) with
          | (x, .error _) => (x, false)
          | (x, .ok _) => if b.length < space then (x, true) else readLoop as x
      | .eof => (x, false)
      | .again => (x, true)
      | .error => (x, false)

end Reader

end Tunnel

/-! ### The session of a host -/

/-- The events that the host has taken. -/
def Session.popped (s : Session) : List Event := s.queued.take (s.queued.length - s.q.count)

/-- The bytes that `mux_write` accepts; it returns a negative number instead of none on an error. -/
def accepted (r : Except MuxErr ℕ) : ℕ := r.toOption.getD 0

/-- What a call passes to `mux_consume`, with its stream. -/
def Call.credits : Call → List (UInt32 × ℕ)
  | .consume sid n => [(sid, n)]
  | _ => []

/-- The bytes passed to `mux_consume` in all. -/
def passed (cr : List (UInt32 × ℕ)) : ℕ := (cr.map Prod.snd).sum

/-- The bytes passed to `mux_consume` for a stream. -/
def creditOf (sid : UInt32) (cr : List (UInt32 × ℕ)) : ℕ := passed (cr.filter (·.1 = sid))

end MuxProtocol
