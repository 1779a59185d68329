import MuxProtocol.Buf
import MuxProtocol.Proofs.Store

/-!
# The three byte buffers are one queue

Whatever is appended and consumed, the buffers of the relay, of the router and of libpeer hold the
same bytes, although they move them to the front at different times.
-/

namespace MuxProtocol

open HeadBuffer QueueOp

variable {b : Buf} {p : Bytes}

theorem bufGrow_ok (h : b.Ok) (n : ℕ) :
    (bufGrow b n).Ok ∧ (bufGrow b n).len + n ≤ (bufGrow b n).cap := by
  unfold bufGrow
  split
  · have hfits : b.len + n ≤ growTo (b.len + n) (b.len + n) (if b.cap = 0 then 4096 else b.cap) :=
      want_le_growTo_self (by split <;> omega)
    exact ⟨h.resize (by omega), hfits⟩
  · exact ⟨h, by omega⟩

theorem toList_bufGrow (b : Buf) (n : ℕ) : (bufGrow b n).toList = b.toList := by
  unfold bufGrow
  split <;> rfl

theorem bufStore_ok (h : b.Ok) (p) : (bufStore b p).Ok := by
  obtain ⟨hok, hroom⟩ := bufGrow_ok h p.length
  exact hok.write hroom

theorem toList_bufStore (h : b.Ok) (p) : (bufStore b p).toList = b.toList ++ p := by
  rw [bufStore, toList_write (bufGrow_ok h p.length).1.head_le, toList_bufGrow]

theorem compact_ite (h : b.Ok) (c : Prop) [Decidable c] :
    (if c then b.compact else b).Ok ∧ (if c then b.compact else b).toList = b.toList := by
  split
  · exact ⟨h.compact, b.toList_compact⟩
  · exact ⟨h, rfl⟩

theorem rewind_ite (h : b.Ok) {c : Prop} [Decidable c] (hc : c → b.len ≤ b.head) :
    (if c then b.rewind else b).Ok ∧ (if c then b.rewind else b).toList = b.toList := by
  split
  · exact ⟨.rewind b, by rw [toList_eq_nil (hc ‹_›)]; rfl⟩
  · exact ⟨h, rfl⟩

/-- An append that first makes room in some way that keeps the bytes. -/
theorem append_of_room {b' : Buf} (h : b.Ok) (h' : b'.Ok ∧ b'.toList = b.toList) (p : Bytes) :
    (if p.length = 0 then b else bufStore b' p).Ok
      ∧ (if p.length = 0 then b else bufStore b' p).toList = b.toList ++ p := by
  split
  · rename_i hp
    rw [List.length_eq_zero_iff.1 hp, List.append_nil]
    exact ⟨h, rfl⟩
  · rw [toList_bufStore h'.1, h'.2]
    exact ⟨bufStore_ok h'.1 p, rfl⟩

theorem Relay.bufAppend_spec (h : b.Ok) (p) :
    (Relay.bufAppend b p).Ok ∧ (Relay.bufAppend b p).toList = b.toList ++ p :=
  append_of_room h (compact_ite h _) p

theorem Router.bufAppend_spec (h : b.Ok) (p) :
    (Router.bufAppend b p).Ok ∧ (Router.bufAppend b p).toList = b.toList ++ p := by
  obtain ⟨h1, h2⟩ := rewind_ite h (c := b.head = b.len) fun he => he.ge
  exact append_of_room h ((compact_ite h1 _).imp_right (·.trans h2)) p

theorem LpClient.bufAppend_spec (h : b.Ok) (p) :
    (LpClient.bufAppend b p).Ok ∧ (LpClient.bufAppend b p).toList = b.toList ++ p := by
  obtain ⟨h1, h2⟩ := rewind_ite h (c := b.head > 0 ∧ b.head = b.len) fun he => he.2.ge
  exact append_of_room h ((compact_ite h1 _).imp_right (·.trans h2)) p

theorem Relay.bufConsume_spec (h : b.Ok) {n : ℕ} (hn : n ≤ b.len - b.head) :
    (Relay.bufConsume b n).Ok ∧ (Relay.bufConsume b n).toList = b.toList.drop n := by
  rw [← toList_skip]
  exact rewind_ite (h.skip hn) id

theorem Router.bufConsume_spec (h : b.Ok) {n : ℕ} (hn : n ≤ b.len - b.head) :
    (Router.bufConsume b n).Ok ∧ (Router.bufConsume b n).toList = b.toList.drop n := by
  rw [← toList_skip]
  exact rewind_ite (h.skip hn) fun he => he.ge

theorem Relay.buf_queue : Queue Relay.bufAppend Relay.bufConsume where
  append_ok h p := (Relay.bufAppend_spec h p).1
  toList_append h p := (Relay.bufAppend_spec h p).2
  consume_ok h _ hn := (Relay.bufConsume_spec h hn).1
  toList_consume h _ hn := (Relay.bufConsume_spec h hn).2

theorem Router.buf_queue : Queue Router.bufAppend Router.bufConsume where
  append_ok h p := (Router.bufAppend_spec h p).1
  toList_append h p := (Router.bufAppend_spec h p).2
  consume_ok h _ hn := (Router.bufConsume_spec h hn).1
  toList_consume h _ hn := (Router.bufConsume_spec h hn).2

theorem LpClient.buf_queue : Queue LpClient.bufAppend LpClient.bufConsume where
  append_ok h p := (LpClient.bufAppend_spec h p).1
  toList_append h p := (LpClient.bufAppend_spec h p).2
  consume_ok h _ hn := (Router.bufConsume_spec h hn).1
  toList_consume h _ hn := (Router.bufConsume_spec h hn).2

/-- The positions are in order, and the buffer holds what was appended but for what was consumed. -/
def Buf.Holds (b : Buf) (ops : List (QueueOp UInt8)) : Prop :=
  b.head ≤ b.len ∧ b.len ≤ b.cap ∧ b.toList = (appended ops).drop (consumed ops)

/-- Each of the buffers, from its first use on. -/
theorem byte_queues_agree (data : ℕ → UInt8) (ops : List (QueueOp UInt8)) (h : Within 0 ops) :
    (run Relay.bufAppend Relay.bufConsume (.new data) ops).Holds ops
      ∧ (run Router.bufAppend Router.bufConsume (.new data) ops).Holds ops
      ∧ (run LpClient.bufAppend LpClient.bufConsume (.new data) ops).Holds ops := by
  have hnew : (Buf.new data).Ok := ⟨le_rfl, le_rfl⟩
  have hnil : (Buf.new data).toList = [] := toList_eq_nil le_rfl
  have hrun : ∀ {append consume}, Queue append consume →
      Buf.Holds (run append consume (Buf.new data) ops) ops := by
    intro append consume hq
    obtain ⟨hok, hlist⟩ := hq.run_spec ops hnew h
    rw [hnil, List.nil_append] at hlist
    exact ⟨hok.head_le, hok.len_le, hlist⟩
  exact ⟨hrun Relay.buf_queue, hrun Router.buf_queue, hrun LpClient.buf_queue⟩

/-- An append behind a consumed part, which only the relay moves to the front, then a drain and an
append that makes the buffer grow. -/
def bufRun : List (QueueOp UInt8) :=
  [.append [1, 2, 3], .consume 2, .append [4], .consume 2, .append (List.replicate 4097 5),
    .consume 4096]

theorem byte_queues_agree_bufRun :
    Within 0 bufRun ∧ (appended bufRun).drop (consumed bufRun) = [5]
      ∧ (run Relay.bufAppend Relay.bufConsume (.new fun _ => 0) bufRun).Holds bufRun
      ∧ (run Router.bufAppend Router.bufConsume (.new fun _ => 0) bufRun).Holds bufRun
      ∧ (run LpClient.bufAppend LpClient.bufConsume (.new fun _ => 0) bufRun).Holds bufRun :=
  ⟨by decide +kernel, by decide +kernel, byte_queues_agree _ bufRun (by decide +kernel)⟩

end MuxProtocol
