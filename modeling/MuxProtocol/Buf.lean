import MuxProtocol.Lib.HeadBuffer
import MuxProtocol.Session

/-!
# Byte buffers

The relay, the router and libpeer have each a `buf_t` of their own. The struct is the same; they
differ in when an append moves the bytes to the front and in when a drained buffer starts over. The
output buffer of a session, too, is a block of memory with two positions in it.
-/

namespace MuxProtocol

/-- `buf_t`. The bytes of `data` that nothing was written to are arbitrary. -/
abbrev Buf := HeadBuffer UInt8

/-- As it is at first, without memory. -/
def Buf.new (data : ℕ → UInt8) : Buf where
  data := data
  cap := 0
  head := 0
  len := 0

/-- The block grows by doubling until `n` more bytes fit. -/
def bufGrow (b : Buf) (n : ℕ) : Buf :=
  if b.len + n > b.cap then
    { b with cap := growTo (b.len + n) (b.len + n) (if b.cap = 0 then 4096 else b.cap) }
  else b

/-- The end of all three `buf_append`. -/
def bufStore (b : Buf) (p : Bytes) : Buf := (bufGrow b p.length).write p

/-! ### The relay -/

def Relay.bufAppend (b : Buf) (p : Bytes) : Buf :=
  if p.length = 0 then b
  else bufStore (if b.head > 0 then b.compact else b) p

def Relay.bufConsume (b : Buf) (n : ℕ) : Buf :=
  let b := b.skip n
  if b.head ≥ b.len then b.rewind else b

/-! ### The router -/

def Router.bufAppend (b : Buf) (p : Bytes) : Buf :=
  if p.length = 0 then b
  else
    let b := if b.head = b.len then b.rewind else b
    let b := if b.head > 0 ∧ b.len + p.length > b.cap then b.compact else b
    bufStore b p

/-- `flush_pend`, of which `w` bytes were taken. -/
def Router.bufConsume (b : Buf) (w : ℕ) : Buf :=
  let b := b.skip w
  if b.head = b.len then b.rewind else b

/-! ### libpeer -/

def LpClient.bufAppend (b : Buf) (p : Bytes) : Buf :=
  if p.length = 0 then b
  else
    let b := if b.head > 0 ∧ b.head = b.len then b.rewind else b
    let b := if b.head > 0 ∧ b.len + p.length > b.cap then b.compact else b
    bufStore b p

/-- `flush_wbuf` and `lp_read`, which take `take` bytes. -/
def LpClient.bufConsume (b : Buf) (take : ℕ) : Buf :=
  let b := b.skip take
  if b.head = b.len then b.rewind else b

/-! ### The output buffer of a session -/

namespace OutCells

def obGrow (o : Buf) (need limit : ℕ) : Buf × Except MuxErr Unit :=
  let total := o.len + need
  if limit ≠ 0 ∧ total > limit then (o, .error .nospace)
  else ({ o with cap := growTo total total (if o.cap = 0 then 4096 else o.cap) }, .ok ())

def obReserve (o : Buf) (need limit : ℕ) : Buf × Except MuxErr Unit :=
  if o.len + need ≤ o.cap then (o, .ok ())
  else if 0 < o.head then
    let o := o.compact
    if o.len + need ≤ o.cap then (o, .ok ()) else obGrow o need limit
  else obGrow o need limit

def emit (o : Buf) (limit : ℕ) (type : UInt8) (flags : UInt16) (sid : UInt32) (payload : Bytes) :
    Buf × Except MuxErr Unit :=
  match obReserve o (muxHeaderSize + payload.length) limit with
  | (o, .error _) => (o, .error .nospace)
  | (o, .ok ()) =>
    match muxCraft (o.cap - o.len) type flags sid payload with
    | .error e => (o, .error e)
    | .ok bytes => (o.write bytes, .ok ())

def sendAdvance (o : Buf) (n : ℕ) : Buf :=
  let o := o.skip (min n (o.len - o.head))
  if o.head = o.len then o.rewind else o

end OutCells

/-- The output buffer of a session whose bytes are in a block of memory. -/
def OutBuf.ofCells (o : Buf) : OutBuf where
  data := { o with head := 0 : Buf }.toList
  cap := o.cap
  spos := o.head

end MuxProtocol
