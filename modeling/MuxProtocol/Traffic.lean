import MuxProtocol.Protocol
import MuxProtocol.Proofs.Codec

/-!
# The traffic of a connection

What a list of frames means to the two ends of a connection: the messages of one stream, the bytes
and the credit that count against the connection window, the streams opened.
-/

namespace MuxProtocol

/-! ### One stream -/

/-- A frame, as the stream it is for sees it. -/
inductive Msg where
  | syn
  /-- A SYN that ends the stream too, with FIN or with RST: no session sends one. -/
  | synEnd (rst : Bool)
  | rst
  | data (p : Bytes) (fin : Bool)
  | credit (n : ℕ)
  deriving DecidableEq, Repr

namespace Msg

def bytes : Msg → Bytes
  | .data p _ => p
  | _ => []

def grant : Msg → ℕ
  | .credit n => n
  | _ => 0

def isData : Msg → Bool
  | .data _ _ => true
  | _ => false

def isFin : Msg → Bool
  | .data _ fin => fin
  | _ => false

def isSyn : Msg → Bool
  | .syn => true
  | .synEnd _ => true
  | _ => false

end Msg

/-- What a frame says to its stream. -/
def Frame.said (f : Frame) : Option Msg :=
  if f.type = muxTData then
    some (if f.has muxFSyn then
        if f.has muxFRst then .synEnd true else if f.has muxFFin then .synEnd false else .syn
      else if f.has muxFRst then .rst else .data f.payload (f.has muxFFin))
  else if f.type = muxTWindowUpdate then some (.credit (beLoad32 f.payload).toNat)
  else none

/-- What a frame says to the stream `sid`. -/
def Frame.msg (sid : UInt32) (f : Frame) : Option Msg := if f.sid = sid then f.said else none

def msgs (sid : UInt32) (fs : List Frame) : List Msg := fs.filterMap (Frame.msg sid)

def bytesOf (ms : List Msg) : Bytes := ms.flatMap Msg.bytes

def grantOf (ms : List Msg) : ℕ := (ms.map Msg.grant).sum

/-- An event, as the host of its stream sees it. -/
inductive Notice where
  | opened
  | data (p : Bytes)
  | closed
  | reset
  | writable
  deriving DecidableEq, Repr

def Notice.bytes : Notice → Bytes
  | .data p => p
  | _ => []

/-- What an event says of the stream `sid`. -/
def Event.notice (sid : UInt32) : Event → Option Notice
  | .opened id _ => if id = sid then some .opened else none
  | .data id p => if id = sid then some (.data p) else none
  | .closed id => if id = sid then some .closed else none
  | .reset id _ => if id = sid then some .reset else none
  | .writable id => if id = sid then some .writable else none
  | _ => none

def notices (sid : UInt32) (q : List Event) : List Notice := q.filterMap (Event.notice sid)

/-- The bytes that the events deliver on the stream `sid`. -/
def streamBytes (sid : UInt32) (q : List Event) : Bytes := (notices sid q).flatMap Notice.bytes

/-! ### The connection -/

/-- What a frame takes from the connection window: the payload of data, not of SYN or RST. -/
def Frame.cost (f : Frame) : ℕ :=
  if f.type = muxTData ∧ f.has muxFSyn = false ∧ f.has muxFRst = false then f.payload.length else 0

/-- What a frame grants to the connection window. -/
def Frame.grant (f : Frame) : ℕ :=
  if f.type = muxTWindowUpdate ∧ f.sid = muxSidControl then (beLoad32 f.payload).toNat else 0

def costOf (fs : List Frame) : ℕ := (fs.map Frame.cost).sum

def grantsOf (fs : List Frame) : ℕ := (fs.map Frame.grant).sum

/-! ### Streams opened -/

def Frame.isSyn (f : Frame) : Bool := f.type = muxTData ∧ f.has muxFSyn

/-- The ids of the streams opened. -/
def synIds (fs : List Frame) : List UInt32 := (fs.filter Frame.isSyn).map Frame.sid

theorem Frame.said_isSyn {f : Frame} {m : Msg} (h : f.said = some m) : m.isSyn = f.isSyn := by
  unfold Frame.said at h
  by_cases ht : f.type = muxTData
  · rw [if_pos ht, Option.some_inj] at h
    rw [← h]
    by_cases hs : f.has muxFSyn = true
    · rw [if_pos hs]
      split_ifs <;> simp [Frame.isSyn, ht, hs, Msg.isSyn]
    · rw [if_neg hs]
      split_ifs <;> simp [Frame.isSyn, hs, Msg.isSyn]
  · rw [if_neg ht] at h
    split_ifs at h
    cases h
    simp [Frame.isSyn, ht, Msg.isSyn]

theorem Frame.said_of_isSyn {f : Frame} (h : f.isSyn = true) : ∃ m, f.said = some m := by
  simp only [Frame.isSyn, decide_eq_true_eq] at h
  exact ⟨_, by rw [Frame.said, if_pos h.1]⟩

/-! ### Lists of frames -/

section Lists

variable (sid : UInt32) (f : Frame) (fs gs : List Frame) (ms ns : List Msg)

@[simp] theorem msgs_nil : msgs sid [] = [] := rfl

@[simp] theorem msgs_append : msgs sid (fs ++ gs) = msgs sid fs ++ msgs sid gs := by
  simp [msgs]

theorem msgs_singleton : msgs sid [f] = (f.msg sid).toList := by
  rcases h : f.msg sid <;> simp [msgs, h]

@[simp] theorem bytesOf_nil : bytesOf [] = [] := rfl

@[simp] theorem bytesOf_append : bytesOf (ms ++ ns) = bytesOf ms ++ bytesOf ns := by
  simp [bytesOf]

@[simp] theorem bytesOf_singleton (m : Msg) : bytesOf [m] = m.bytes := by simp [bytesOf]

@[simp] theorem grantOf_nil : grantOf [] = 0 := rfl

@[simp] theorem grantOf_append : grantOf (ms ++ ns) = grantOf ms + grantOf ns := by
  simp [grantOf]

@[simp] theorem grantOf_singleton (m : Msg) : grantOf [m] = m.grant := by simp [grantOf]

@[simp] theorem costOf_nil : costOf [] = 0 := rfl

@[simp] theorem costOf_append : costOf (fs ++ gs) = costOf fs + costOf gs := by simp [costOf]

@[simp] theorem costOf_singleton : costOf [f] = f.cost := by simp [costOf]

@[simp] theorem grantsOf_nil : grantsOf [] = 0 := rfl

@[simp] theorem grantsOf_append : grantsOf (fs ++ gs) = grantsOf fs + grantsOf gs := by
  simp [grantsOf]

@[simp] theorem grantsOf_singleton : grantsOf [f] = f.grant := by simp [grantsOf]

@[simp] theorem synIds_nil : synIds [] = [] := rfl

@[simp] theorem synIds_append : synIds (fs ++ gs) = synIds fs ++ synIds gs := by simp [synIds]

theorem synIds_singleton : synIds [f] = if f.isSyn then [f.sid] else [] := by
  unfold synIds
  by_cases h : f.isSyn <;> simp [h]

variable {fs gs}

theorem msgs_mono (h : fs <+: gs) : msgs sid fs <+: msgs sid gs := h.filterMap _

theorem synIds_mono (h : fs <+: gs) : synIds fs <+: synIds gs := (h.filter _).map _

theorem costOf_le (h : fs <+: gs) : costOf fs ≤ costOf gs := by
  obtain ⟨r, rfl⟩ := h
  simp

theorem grantsOf_le (h : fs <+: gs) : grantsOf fs ≤ grantsOf gs := by
  obtain ⟨r, rfl⟩ := h
  simp

variable {ms ns}

theorem bytesOf_mono (h : ms <+: ns) : bytesOf ms <+: bytesOf ns := by
  obtain ⟨r, rfl⟩ := h
  simp

theorem grantOf_le (h : ms <+: ns) : grantOf ms ≤ grantOf ns := by
  obtain ⟨r, rfl⟩ := h
  simp

end Lists

/-! ### The frames of a session -/

section Frames

variable (sid sid' k : UInt32) (p : Bytes) {f : Frame}

/-! The flags of the frames, tested. -/

theorem syn_has_syn : (muxFSyn &&& muxFSyn != 0) = true := by decide

theorem syn_has_rst : (muxFSyn &&& muxFRst != 0) = false := by decide

theorem syn_has_fin : (muxFSyn &&& muxFFin != 0) = false := by decide

theorem fin_has_syn : (muxFFin &&& muxFSyn != 0) = false := by decide

theorem fin_has_rst : (muxFFin &&& muxFRst != 0) = false := by decide

theorem fin_has_fin : (muxFFin &&& muxFFin != 0) = true := by decide

theorem rst_has_syn : (muxFRst &&& muxFSyn != 0) = false := by decide

theorem rst_has_rst : (muxFRst &&& muxFRst != 0) = true := by decide

theorem credit_ne_data : muxTWindowUpdate ≠ muxTData := by decide

@[simp] theorem msg_synFrame :
    (synFrame sid' p).msg sid = if sid' = sid then some .syn else none := by
  simp only [Frame.msg, Frame.said, synFrame, Frame.has, syn_has_syn, syn_has_rst, syn_has_fin,
    if_true, Bool.false_eq_true, if_false]

@[simp] theorem msg_dataFrame :
    (dataFrame sid' p).msg sid = if sid' = sid then some (.data p false) else none := by
  simp [Frame.msg, Frame.said, dataFrame, Frame.has]

@[simp] theorem msg_finFrame :
    (finFrame sid').msg sid = if sid' = sid then some (.data [] true) else none := by
  simp only [Frame.msg, Frame.said, finFrame, Frame.has, fin_has_syn, fin_has_rst, fin_has_fin,
    if_true, Bool.false_eq_true, if_false]

@[simp] theorem msg_rstFrame :
    (rstFrame sid' k).msg sid = if sid' = sid then some .rst else none := by
  simp only [Frame.msg, Frame.said, rstFrame, Frame.has, rst_has_syn, rst_has_rst, if_true,
    Bool.false_eq_true, if_false]

@[simp] theorem msg_creditFrame :
    (creditFrame sid' k).msg sid = if sid' = sid then some (.credit k.toNat) else none := by
  simp only [Frame.msg, Frame.said, creditFrame, credit_ne_data, if_true, if_false, beLoad32_put']

theorem msg_of_type (h1 : f.type ≠ muxTData) (h2 : f.type ≠ muxTWindowUpdate) :
    f.msg sid = none := by
  simp [Frame.msg, Frame.said, h1, h2]

theorem cost_of_type (h : f.type ≠ muxTData) : f.cost = 0 := by simp [Frame.cost, h]

theorem grant_of_type (h : f.type ≠ muxTWindowUpdate) : f.grant = 0 := by simp [Frame.grant, h]

theorem isSyn_of_type (h : f.type ≠ muxTData) : f.isSyn = false := by simp [Frame.isSyn, h]

@[simp] theorem cost_synFrame : (synFrame sid p).cost = 0 := by
  simp only [Frame.cost, synFrame, Frame.has, syn_has_syn, Bool.true_eq_false, false_and, and_false,
    if_false]

@[simp] theorem cost_dataFrame : (dataFrame sid p).cost = p.length := by
  simp [Frame.cost, dataFrame, Frame.has]

@[simp] theorem cost_finFrame : (finFrame sid).cost = 0 := by
  simp [Frame.cost, finFrame]

@[simp] theorem cost_rstFrame : (rstFrame sid k).cost = 0 := by
  simp only [Frame.cost, rstFrame, Frame.has, rst_has_rst, Bool.true_eq_false, and_false, if_false]

@[simp] theorem cost_creditFrame : (creditFrame sid k).cost = 0 := cost_of_type credit_ne_data

@[simp] theorem grant_synFrame : (synFrame sid p).grant = 0 := grant_of_type credit_ne_data.symm

@[simp] theorem grant_dataFrame : (dataFrame sid p).grant = 0 := grant_of_type credit_ne_data.symm

@[simp] theorem grant_finFrame : (finFrame sid).grant = 0 := grant_of_type credit_ne_data.symm

@[simp] theorem grant_rstFrame : (rstFrame sid k).grant = 0 := grant_of_type credit_ne_data.symm

@[simp] theorem grant_creditFrame :
    (creditFrame sid k).grant = if sid = muxSidControl then k.toNat else 0 := by
  simp [Frame.grant, creditFrame]

@[simp] theorem sid_synFrame : (synFrame sid p).sid = sid := rfl

@[simp] theorem isSyn_synFrame : (synFrame sid p).isSyn = true := by
  simp only [Frame.isSyn, synFrame, Frame.has, syn_has_syn, true_and, decide_true]

@[simp] theorem isSyn_dataFrame : (dataFrame sid p).isSyn = false := by
  simp [Frame.isSyn, dataFrame, Frame.has]

@[simp] theorem isSyn_finFrame : (finFrame sid).isSyn = false := by
  simp [Frame.isSyn, finFrame, Frame.has, fin_has_syn]

@[simp] theorem isSyn_rstFrame : (rstFrame sid k).isSyn = false := by
  simp [Frame.isSyn, rstFrame, Frame.has, rst_has_syn]

@[simp] theorem isSyn_creditFrame : (creditFrame sid k).isSyn = false :=
  isSyn_of_type credit_ne_data

/-- A frame of the session and not of a stream: it moves no bytes and no credit. -/
structure Frame.Mute (f : Frame) : Prop where
  not_data : f.type ≠ muxTData
  not_credit : f.type ≠ muxTWindowUpdate

theorem mute_pingFrame (flags : UInt16) : (pingFrame flags p).Mute :=
  ⟨by simp only [pingFrame]; decide, by simp only [pingFrame]; decide⟩

theorem mute_helloFrame (c : Core) (ack : Bool) : (helloFrame c ack).Mute := by
  cases ack
  · exact ⟨by simp only [helloFrame]; decide, by simp only [helloFrame]; decide⟩
  · exact ⟨by simp only [helloFrame]; decide, by simp only [helloFrame]; decide⟩

theorem Control.mute (h : Control f) : f.Mute := by
  cases h with
  | capacity => exact ⟨by simp only [capacityFrame]; decide, by simp only [capacityFrame]; decide⟩
  | goaway => exact ⟨by simp only [goawayFrame]; decide, by simp only [goawayFrame]; decide⟩
  | ping => exact mute_pingFrame _ _

theorem Frame.Mute.msg (h : f.Mute) : f.msg sid = none := msg_of_type sid h.1 h.2

theorem Frame.Mute.cost (h : f.Mute) : f.cost = 0 := cost_of_type h.1

theorem Frame.Mute.grant (h : f.Mute) : f.grant = 0 := grant_of_type h.2

theorem Frame.Mute.isSyn (h : f.Mute) : f.isSyn = false := isSyn_of_type h.1

end Frames

end MuxProtocol
