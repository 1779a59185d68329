import Mathlib.Algebra.Group.Nat.Defs
import Mathlib.Data.Nat.Notation
import Mathlib.Tactic.Common

/-!
# The framing codec

The wire format of `frame.c`: a 12-byte big-endian header, version, type, flags, stream id and
payload length, then the payload. `muxParse` takes one frame off the front of a buffer and
`muxCraft` writes one. The control payloads are lists of type-length-value records, appended by
`muxTlvPut` and walked by `muxTlvNext`.
-/

namespace MuxProtocol

/-- The negative return codes of the library. -/
inductive MuxErr where
  | short
  | proto
  | nospace
  | param
  | state
  | nomem
  | nostream
  deriving DecidableEq, Repr

def muxVersion : UInt8 := 0x01
def muxHeaderSize : ℕ := 12
/-- 16 MiB. -/
def muxMaxPayload : ℕ := 16777216
/-- The stream id of the control frames. -/
def muxSidControl : UInt32 := 0

def muxTData : UInt8 := 0x00
def muxTWindowUpdate : UInt8 := 0x01
def muxTPing : UInt8 := 0x02
def muxTGoaway : UInt8 := 0x03
def muxTHello : UInt8 := 0x10
def muxTHelloAck : UInt8 := 0x11
def muxTCapacity : UInt8 := 0x12

def muxFSyn : UInt16 := 0x0001
def muxFAck : UInt16 := 0x0002
def muxFFin : UInt16 := 0x0004
def muxFRst : UInt16 := 0x0008

def muxTlvPeerId : UInt16 := 0x0001
def muxTlvWeight : UInt16 := 0x0002
def muxTlvMaxStreams : UInt16 := 0x0003
def muxTlvAuth : UInt16 := 0x0004
def muxTlvInitWindow : UInt16 := 0x0005
def muxTlvHeartbeatMs : UInt16 := 0x0006
def muxTlvSessionWindow : UInt16 := 0x0007
def muxTlvNonce : UInt16 := 0x0008

/-- A byte string. -/
abbrev Bytes := List UInt8

/-! ### Big-endian load and store -/

def bePut16 (v : UInt16) : Bytes := [.ofNat (v.toNat / 2 ^ 8), .ofNat v.toNat]

def bePut32 (v : UInt32) : Bytes :=
  [.ofNat (v.toNat / 2 ^ 24), .ofNat (v.toNat / 2 ^ 16), .ofNat (v.toNat / 2 ^ 8), .ofNat v.toNat]

def beGet16 (a b : UInt8) : UInt16 := .ofNat (a.toNat * 2 ^ 8 + b.toNat)

def beGet32 (a b c d : UInt8) : UInt32 :=
  .ofNat (a.toNat * 2 ^ 24 + b.toNat * 2 ^ 16 + c.toNat * 2 ^ 8 + d.toNat)

/-- The load from the front of a buffer the caller has checked to be long enough. -/
def beLoad32 : Bytes → UInt32
  | a :: b :: c :: d :: _ => beGet32 a b c d
  | _ => 0

/-! ### Framing -/

/-- A decoded frame; its length field is the length of the payload. -/
structure Frame where
  ver : UInt8 := muxVersion
  type : UInt8
  flags : UInt16
  sid : UInt32
  payload : Bytes
  deriving DecidableEq, Repr

/-- The payload pointer, NULL when the frame has none. -/
def Frame.view (f : Frame) : Option Bytes := if f.payload = [] then none else some f.payload

/-- The flag `m` is set. -/
def Frame.has (f : Frame) (m : UInt16) : Bool := f.flags &&& m != 0

/-- One frame from the front of `buf`, with the number of bytes it takes. -/
def muxParse : Bytes → Except MuxErr (Frame × ℕ)
  | ver :: type :: f₀ :: f₁ :: s₀ :: s₁ :: s₂ :: s₃ :: l₀ :: l₁ :: l₂ :: l₃ :: rest =>
    let plen := (beGet32 l₀ l₁ l₂ l₃).toNat
    -- version and length are checked before the payload is waited for
    if ver ≠ muxVersion then .error .proto
    else if plen > muxMaxPayload then .error .proto
    else if rest.length < plen then .error .short
    else .ok ({ ver, type, flags := beGet16 f₀ f₁, sid := beGet32 s₀ s₁ s₂ s₃,
                payload := rest.take plen }, muxHeaderSize + plen)
  | _ => .error .short

def muxCraftHeader (cap : ℕ) (type : UInt8) (flags : UInt16) (sid : UInt32) (plen : ℕ) :
    Except MuxErr Bytes :=
  if plen > muxMaxPayload then .error .proto
  else if cap < muxHeaderSize then .error .nospace
  else .ok (muxVersion :: type :: (bePut16 flags ++ bePut32 sid ++ bePut32 (.ofNat plen)))

/-- A whole frame, into a destination of `cap` bytes. -/
def muxCraft (cap : ℕ) (type : UInt8) (flags : UInt16) (sid : UInt32) (payload : Bytes) :
    Except MuxErr Bytes :=
  if payload.length > muxMaxPayload then .error .proto
  else if cap < muxHeaderSize + payload.length then .error .nospace
  else (muxCraftHeader cap type flags sid payload.length).map (· ++ payload)

/-! ### Type-length-value records -/

/-- Write one record at `off`: the buffer afterwards, and the offset past the record. The offset is
returned as an `int`, so the buffer has less than `2 ^ 31` bytes. -/
def muxTlvPut (buf : Bytes) (off : ℕ) (t : UInt16) (val : Bytes) : Bytes × Except MuxErr ℕ :=
  if off > buf.length then (buf, .error .nospace)
  else if buf.length - off < 4 + val.length then (buf, .error .nospace)
  else
    (buf.take off ++ (bePut16 t ++ bePut16 (.ofNat val.length) ++ val)
      ++ buf.drop (off + 4 + val.length), .ok (off + 4 + val.length))

/-- The record at `cursor` and the cursor past it, or `none` at the end of the buffer. -/
def muxTlvNext (buf : Option Bytes) (cursor : ℕ) : Except MuxErr (Option (UInt16 × Bytes × ℕ)) :=
  match buf with
  | none => .error .param
  | some buf =>
    if cursor = buf.length then .ok none
    else
      match buf.drop cursor with
      | t₀ :: t₁ :: v₀ :: v₁ :: rest =>
        let vl := (beGet16 v₀ v₁).toNat
        if rest.length < vl then .error .proto
        else .ok (some (beGet16 t₀ t₁, rest.take vl, cursor + 4 + vl))
      | _ => .error .proto

end MuxProtocol
