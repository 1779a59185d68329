import MuxProtocol.Proofs.Calls

/-!
# Bounded buffering

What a receiver has granted, what it still owes in credit and what its host has not consumed add
up to the window it announced, for the connection and for each stream. The peer's frames are
arbitrary; of the host only that it consumes no more than was delivered to it.
-/

namespace MuxProtocol

open LinearProbe Machine Core Event

/-! ### Bytes delivered -/

/-- The bytes an event delivers. -/
def Event.size : Event → ℕ
  | .data _ bytes => bytes.length
  | _ => 0

/-- The bytes the events deliver. -/
def deliveredBytes (q : List Event) : ℕ := (q.map Event.size).sum

@[simp] theorem deliveredBytes_nil : deliveredBytes [] = 0 := rfl

@[simp] theorem deliveredBytes_append (q q') :
    deliveredBytes (q ++ q') = deliveredBytes q + deliveredBytes q' := by
  simp [deliveredBytes]

@[simp] theorem deliveredBytes_cons (e : Event) (q) :
    deliveredBytes (e :: q) = e.size + deliveredBytes q := by
  simp [deliveredBytes]

@[simp] theorem deliveredBytes_ite (p : Prop) [Decidable p] (q q') :
    deliveredBytes (if p then q else q')
      = if p then deliveredBytes q else deliveredBytes q' := by
  split <;> rfl

theorem deliveredBytes_deliver (q) (f : Frame) :
    deliveredBytes (if f.payload = [] then q else q ++ [.data f.sid f.payload])
      = deliveredBytes q + f.payload.length := by
  by_cases hp : f.payload = []
  · simp [hp]
  · simp [hp, size]

theorem toInt64_of_lt {n : ℕ} (h : n < 2 ^ 63) : toInt64 n = n := by
  unfold toInt64
  rw [Int.bmod_def]
  split <;> omega

/-! ### The invariant -/

/-- The account of one stream; `w` is the window announced. -/
structure Balanced (w : UInt32) (st : MuxStream) : Prop where
  sum : st.recvWin + st.recvPending + (st.delivered - st.consumed) = w.toNat
  win : 0 ≤ st.recvWin
  pending : 0 ≤ st.recvPending
  used : st.consumed ≤ st.delivered

structure Bounded (c : Core) : Prop where
  wf : TabWf c.tab
  stream : Every c.tab (Balanced c.initWindow)
  sum : c.sessRecvWin + c.sessRecvPending + (deliveredBytes c.queued - c.consumed)
    = c.sessionWindow.toNat
  win : 0 ≤ c.sessRecvWin
  pending : 0 ≤ c.sessRecvPending
  used : c.consumed ≤ deliveredBytes c.queued

/-- The host consumes what was delivered to it and no more. -/
def Prudent (c : Core) : Act → Prop
  | .use n => c.consumed + n ≤ deliveredBytes c.queued
  | .useOn i n => ∀ st, c.tab.get i = some st → st.consumed + n ≤ st.delivered
  | _ => True

section Steps

variable {c c' : Core} {a : Act}

theorem balanced_fresh (c : Core) (sid) : Balanced c.initWindow (freshStream c sid) :=
  ⟨by simp [freshStream], by simp [freshStream], by simp [freshStream], by simp [freshStream]⟩

theorem Balanced.congr {w} {st st' : MuxStream} (h : Balanced w st) (h1 : st'.recvWin = st.recvWin)
    (h2 : st'.recvPending = st.recvPending) (h3 : st'.delivered = st.delivered)
    (h4 : st'.consumed = st.consumed) : Balanced w st' :=
  ⟨by rw [h1, h2, h3, h4]; exact h.sum, by rw [h1]; exact h.win, by rw [h2]; exact h.pending,
    by rw [h3, h4]; exact h.used⟩

/-- A payload that fits moves from the window to what is unconsumed. -/
theorem Balanced.deliver {w} {st : MuxStream} (h : Balanced w st) {n : ℕ} {l}
    (hn : (n : ℤ) ≤ st.recvWin) : Balanced w
      { st with life := l, recvWin := st.recvWin - n, delivered := st.delivered + n } := by
  have h1 := h.sum
  have h2 := h.used
  exact ⟨by push_cast; omega, by dsimp only; omega, h.pending, by dsimp only; omega⟩

theorem Fits.le_strm {f : Frame} {st : MuxStream} (h : Fits c f st) (hw : 0 ≤ st.recvWin) :
    (f.payload.length : ℤ) ≤ st.recvWin := by
  by_cases hp : f.payload = []
  · simpa [hp] using hw
  · exact h.strm hp

theorem Fits.le_sess {f : Frame} {st} (h : Fits c f st) (hw : 0 ≤ c.sessRecvWin) :
    (f.payload.length : ℤ) ≤ c.sessRecvWin := by
  by_cases hp : f.payload = []
  · simpa [hp] using hw
  · exact h.sess hp

/-- A step keeps the account of every stream. -/
theorem Step.balanced (h : Step c a c') (ha : Prudent c a) (hi : Bounded c) :
    Every c'.tab (Balanced c'.initWindow) := by
  have hb := hi.stream
  have hw := hi.wf
  have hfresh := balanced_fresh c
  cases h with
  | opened _ h | accepted _ _ _ _ _ h => simpa using hb.insert hw h (hfresh _)
  | openFailed _ h | acceptedRst _ _ _ _ h => simpa using (hb.insert hw h (hfresh _)).remove
  | acceptedFin _ _ _ _ _ h =>
    simp only [push_tab, edit_tab, seeSid_tab, setTab_tab, push_initWindow,
      edit_initWindow, seeSid_initWindow, setTab_initWindow, hear_initWindow]
    exact (hb.insert hw h (hfresh _)).modify fun _ h => h.congr rfl rfl rfl rfl
  | block | short | wrote | closedHalf | wake | creditedOn | creditedOnOver =>
    simp only [block_tab, edit_tab, put_tab, debit_tab, push_tab, unblock_tab, die_tab, hear_tab,
      block_initWindow, edit_initWindow, put_initWindow, debit_initWindow, push_initWindow,
      unblock_initWindow, die_initWindow, hear_initWindow]
    exact hb.modify fun _ h => h.congr rfl rfl rfl rfl
  | woken =>
    simp only [push_tab, unblock_tab, edit_tab, hear_tab, Table.modify_modify,
      push_initWindow, unblock_initWindow, edit_initWindow, hear_initWindow]
    exact hb.modify fun _ h => h.congr rfl rfl rfl rfl
  | @useOn i st n hg =>
    have hn := ha st hg
    obtain ⟨h1, h2, h3, h4⟩ := hb i st hg
    have := c.initWindow.toNat_lt
    refine hb.modify_at hg ⟨?_, h2, ?_, hn⟩
    · rw [toInt64_of_lt (by omega)]
      push_cast
      omega
    · dsimp only
      rw [toInt64_of_lt (by omega)]
      omega
  | @creditOn i st k hg hk hle =>
    obtain ⟨h1, h2, h3, h4⟩ := hb i st hg
    simp only [put_tab, edit_tab, put_initWindow, edit_initWindow]
    refine hb.modify_at hg ⟨?_, ?_, ?_, h4⟩
    all_goals dsimp only
    all_goals omega
  | data _ _ hf _ hfit =>
    obtain ⟨hg, -⟩ := stFind_some hw hf
    simp only [deliver_tab, hear_tab, deliver_initWindow, hear_initWindow]
    exact hb.modify_at hg ((hb _ _ hg).deliver (hfit.le_strm (hb _ _ hg).win))
  | fin _ _ hf _ hfit =>
    obtain ⟨hg, -⟩ := stFind_some hw hf
    simp only [push_tab, edit_tab, deliver_tab, hear_tab, Table.modify_modify,
      push_initWindow, edit_initWindow, deliver_initWindow, hear_initWindow]
    exact hb.modify_at hg ((hb _ _ hg).deliver (hfit.le_strm (hb _ _ hg).win))
  | finLast _ _ hf _ hfit =>
    obtain ⟨hg, -⟩ := stFind_some hw hf
    simp only [push_tab, drop_tab, deliver_tab, hear_tab, push_initWindow,
      drop_initWindow, deliver_initWindow, hear_initWindow]
    exact (hb.modify_at hg ((hb _ _ hg).deliver (hfit.le_strm (hb _ _ hg).win))).remove
  | closedFull | reset | resetBy | aborted => simpa using hb.remove
  | _ => simpa using hb

/-- A step keeps the account of the connection. -/
theorem Step.account (h : Step c a c') (ha : Prudent c a) (hi : Bounded c) :
    c'.sessRecvWin + c'.sessRecvPending + (deliveredBytes c'.queued - c'.consumed)
        = c'.sessionWindow.toNat
      ∧ 0 ≤ c'.sessRecvWin ∧ 0 ≤ c'.sessRecvPending ∧ c'.consumed ≤ deliveredBytes c'.queued := by
  obtain ⟨hw, -, h1, h2, h3, h4⟩ := hi
  have hlt := c.sessionWindow.toNat_lt
  cases h with
  | use n _ =>
    have hn : c.consumed + n ≤ deliveredBytes c.queued := ha
    simp only [use_sessRecvWin, use_sessRecvPending, use_queued, use_consumed, use_sessionWindow]
    rw [toInt64_of_lt (by omega)]
    omega
  | credit hk hle =>
    simp only [put_sessRecvWin, grant_sessRecvWin, put_sessRecvPending,
      grant_sessRecvPending, put_queued, grant_queued, put_consumed,
      grant_consumed, put_sessionWindow, grant_sessionWindow]
    omega
  | @data f i st _ _ _ _ hfit | @fin f i st _ _ _ _ hfit | @finLast f i st _ _ _ _ hfit =>
    have hle := hfit.le_sess h2
    simp [deliveredBytes_deliver, size, -deliveredBytes_ite]
    omega
  | notice e _ _ he =>
    have hz : e.size = 0 := by rcases he with ⟨rfl, -⟩ | ⟨rfl, -⟩ <;> rfl
    simp [hz]
    omega
  | _ =>
    simp [size]
    omega

theorem Step.bounded (h : Step c a c') (ha : Prudent c a) (hi : Bounded c) : Bounded c' := by
  obtain ⟨h1, h2, h3, h4⟩ := h.account ha hi
  exact ⟨h.tabWf hi.wf, h.balanced ha hi, h1, h2, h3, h4⟩

end Steps

/-! ### Runs -/

/-- The host consumes what was delivered to it and no more: of a live stream, that stream's bytes;
and in all, of live streams and of those that are gone, the bytes of all events. -/
def ConsumesDelivered (s : Session) : Call → Prop
  | .consume sid n => s.consumed + n ≤ deliveredBytes s.queued
    ∧ ∀ r ∈ stFind s.tab sid, r.2.consumed + n ≤ r.2.delivered
  | _ => True

instance ConsumesDelivered.decidable (s : Session) :
    ∀ a, Decidable (ConsumesDelivered s a)
  | .consume _ _ => inferInstanceAs (Decidable (_ ∧ _))
  | .recv _ | .open _ | .write _ _ | .close _ | .reset _ _ | .sendCapacity _ | .goaway _
  | .onTimer _ | .sendAdvance _ | .nextEvent => inferInstanceAs (Decidable True)

theorem ConsumesDelivered.permits {s : Session} {a} (hw : s.toCore.Wf) (h : ConsumesDelivered s a) :
    Permits Prudent s a := by
  refine ⟨fun _ => trivial, fun _ _ => eachFrame_of_forall (fun _ _ _ _ _ => trivial)
    (fun _ => trivial) _ _ _, fun _ _ _ => trivial, fun _ _ _ _ => trivial,
    fun _ _ _ => trivial, ?_,
    fun _ _ _ => trivial, fun _ _ _ => trivial, fun _ _ _ => trivial⟩
  intro sid n ha _
  subst ha
  refine ⟨h.1, fun _ _ => trivial, fun c i st hc hf st' hg => ?_⟩
  rw [hc, (stFind_some hw.tab hf).1] at hg
  cases hg
  exact h.2 (i, st) hf

theorem bounded_start (cfg role) : Bounded (startCore cfg role) := by
  obtain ⟨hw, hnone⟩ := startCore_tab cfg role
  have hempty : Every (startCore cfg role).tab (Balanced (startCore cfg role).initWindow) :=
    fun i st hg => by simp [hnone i] at hg
  cases role
  · exact ⟨hw, hempty, by simp [startCore, initSession], by simp [startCore, initSession],
      by simp [startCore, initSession], by simp [startCore, initSession]⟩
  · exact ⟨hw, hempty, by simp [startCore, initSession], by simp [startCore, initSession],
      by simp [startCore, initSession], by simp [startCore, initSession]⟩

/-- Buffering is bounded against any peer. In every state a session reaches with a host that
consumes what was delivered: the window of a live stream, the credit it is owed and its unconsumed
bytes add up to `init_window`; those of the connection, the bytes of streams gone included, to
`session_window`; and no term is negative. -/
theorem bounded_buffering {cfg : MuxConfig} {role : MuxRole} {s₀ s : Session}
    (h₀ : muxSessionNew cfg role = some s₀)
    (h : Reach (ofFun Session.call) ConsumesDelivered s₀ s) :
    (∀ i st, s.tab.get i = some st →
      st.recvWin + st.recvPending + (st.delivered - st.consumed) = s.initWindow.toNat
        ∧ 0 ≤ st.recvWin ∧ 0 ≤ st.recvPending ∧ st.consumed ≤ st.delivered
        ∧ st.delivered - st.consumed ≤ s.initWindow.toNat)
      ∧ s.sessRecvWin + s.sessRecvPending + (deliveredBytes s.queued - s.consumed)
        = s.sessionWindow.toNat
      ∧ 0 ≤ s.sessRecvWin ∧ 0 ≤ s.sessRecvPending ∧ s.consumed ≤ deliveredBytes s.queued
      ∧ deliveredBytes s.queued - s.consumed ≤ s.sessionWindow.toNat := by
  obtain ⟨hcore, hw, -⟩ := muxSessionNew_spec h₀
  have hi : Bounded s.toCore :=
    (Session.reach_steps h hw fun _ _ hw => ConsumesDelivered.permits hw).inv
      (hcore ▸ bounded_start cfg role) fun _ _ _ hi ha hs => hs.bounded ha hi
  obtain ⟨-, hstream, h1, h2, h3, h4⟩ := hi
  refine ⟨fun i st hg => ?_, h1, h2, h3, h4, by omega⟩
  obtain ⟨h5, h6, h7, h8⟩ := hstream i st hg
  exact ⟨h5, h6, h7, h8, by omega⟩

/-- Five bytes from a dialer, of which the host consumes three. -/
def fiveBytesRun : List Call :=
  [.recv (encode { type := muxTHello, flags := 0, sid := muxSidControl
                   payload := tlvBytes (muxTlvWeight, bePut32 1) }
      ++ encode (synFrame 1 []) ++ encode (dataFrame 1 [1, 2, 3, 4, 5])), .consume 1 3]

theorem bounded_buffering_fiveBytesRun :
    ∃ s, s = fiveBytesRun.foldl Session.call (initSession { maxStreams := 1 } .acceptor)
      ∧ deliveredBytes s.queued = 5 ∧ s.consumed = 3
      ∧ s.sessRecvWin + s.sessRecvPending + 2 = s.sessionWindow.toNat := by
  have hnew : muxSessionNew { maxStreams := 1 } .acceptor
      = some (initSession { maxStreams := 1 } .acceptor) := rfl
  obtain ⟨-, h, -⟩ := bounded_buffering hnew (.foldl fiveBytesRun (by decide +kernel))
  have h5 : deliveredBytes (fiveBytesRun.foldl Session.call
      (initSession { maxStreams := 1 } .acceptor)).queued = 5 := by decide +kernel
  have h3 : (fiveBytesRun.foldl Session.call
      (initSession { maxStreams := 1 } .acceptor)).consumed = 3 := by decide +kernel
  generalize fiveBytesRun.foldl Session.call (initSession { maxStreams := 1 } .acceptor) = s
    at h h5 h3
  exact ⟨s, rfl, h5, h3, by omega⟩

end MuxProtocol
