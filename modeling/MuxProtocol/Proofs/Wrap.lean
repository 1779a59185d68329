import MuxProtocol.Proofs.Backpressure
import MuxProtocol.Proofs.OpenIds

/-!
# A stream id used twice

After `2 ^ 31` streams a worker's session opens its next under the id 1 again. Where the first
stream of that id is still open, two routes end in it: the worker's map has the later one, and what
comes for the earlier is handled for that. -/

namespace MuxProtocol

open LinearProbe Machine List Option Function Route MuxStream EpConn Table

/-! ### Sessions -/

section Sessions

variable {s : Session} {st st' : MuxStream} {sid : UInt32} {j : ℕ} {ev : Event}

theorem stInsert_double {t : Table MuxStream} (h : t.Single mixSid MuxStream.sid st) (st') :
    ∃ t' j, stInsert t st' = (t', some j) ∧ t'.Double mixSid MuxStream.sid st j st' := by
  have hpos := pos_of_pow h.wf.pow
  unfold stInsert
  by_cases hfull : (t.count + t.tombs + 1) * 4 ≥ t.cap * 3
  · simp only [if_pos hfull]
    have hcap : 64 ≤ growTo (max ((t.count + 1) * 2) 64) (max ((t.count + 1) * 2) 64) t.cap :=
      (Nat.le_max_right ..).trans (want_le_growTo_self hpos)
    unfold stGrow
    rw [if_neg (by omega)]
    refine (h.rehashed (growTo_pow h.wf.pow) (by omega)).insert ?_ st'
    change t.count + 0 + 1 < growTo _ _ _
    rw [h.count_eq] at hcap ⊢
    omega
  · simp only [if_neg hfull]
    exact h.insert (by omega) st'

theorem find_home {t : Table MuxStream} (h : TabWf t)
    (hs : t.slots (mixSid st.sid % t.cap) = .used st) :
    stFind t st.sid = some (mixSid st.sid % t.cap, st) := by
  rw [stFind, Table.find_home h hs, Option.bind_some, Table.get_eq_some.2 hs, Option.map_some]

/-- A worker's session with nothing to send and no events, and with room for two streams, bytes of
both and bytes from both. -/
structure AtRest (s : Session) : Prop where
  roomy : Roomy s
  alive : s.dead = false
  seen : s.peerHelloSeen = true
  staying : s.localGoaway = false
  cap : 2 ≤ s.peerMaxStreams.toNat
  sends : 0 < s.sessSendWin
  receives : 2 ≤ s.sessRecvWin
  window : s.initWindow = 1
  drained : s.q.toList = []

theorem AtRest.open (h : AtRest s) (ht : s.tab.Single mixSid MuxStream.sid st)
    (hsid : s.nextLocalSid ≠ muxSidControl) :
    (muxOpen s []).2 = .ok s.nextLocalSid
      ∧ ∃ n j, AtRest ((s.call (.open [])).call (.sendAdvance n))
      ∧ ((s.call (.open [])).call (.sendAdvance n)).tab.Double mixSid MuxStream.sid st j
        (freshStream s.toCore s.nextLocalSid)
      ∧ ((s.call (.open [])).call (.sendAdvance n)).nextLocalSid = s.nextLocalSid + 2 := by
  obtain ⟨t, j, hi, hd⟩ := stInsert_double ht (freshStream s.toCore s.nextLocalSid)
  have hcap := h.cap
  have hok : OpenOk s.toCore [] :=
    ⟨h.alive, h.seen, h.staying, Nat.zero_le _, by rw [ht.count_eq]; omega, hsid⟩
  obtain ⟨out, hopen, hout⟩ := h.roomy.open hok hi
  refine ⟨by rw [hopen], out.data.length, j, ?_⟩
  rw [show s.call (.open []) = (muxOpen s []).1 from rfl, hopen, Session.call,
    muxSendAdvance_all hout]
  exact ⟨⟨⟨rfl, rfl, h.roomy.ceiling⟩, h.alive, h.seen, h.staying, h.cap, h.sends, h.receives,
    h.window, h.drained⟩, hd, rfl⟩

theorem AtRest.reset (h : AtRest s) (ht : s.tab.Double mixSid MuxStream.sid st j st')
    (hne : st'.sid ≠ st.sid) (code) :
    ∃ n, AtRest ((s.call (.reset st'.sid code)).call (.sendAdvance n))
      ∧ ((s.call (.reset st'.sid code)).call (.sendAdvance n)).tab.Single mixSid MuxStream.sid st
      ∧ ((s.call (.reset st'.sid code)).call (.sendAdvance n)).nextLocalSid = s.nextLocalSid := by
  have hg : s.tab.get j = some st' := get_eq_some.2 ht.other
  have hf : stFind s.tab st'.sid = some (j, st') := by
    rw [stFind, ht.find_other hne, bind_some, hg, map_some]
  obtain ⟨out, hreset, hout⟩ := muxReset_of_find h.roomy h.alive hf code
  refine ⟨out.data.length, ?_⟩
  rw [show s.call (.reset st'.sid code) = (muxReset s st'.sid code).1 from rfl, hreset,
    Session.call]
  unfold stRemove
  simp only [hg]
  rw [muxSendAdvance_all hout]
  exact ⟨⟨⟨rfl, rfl, h.roomy.ceiling⟩, h.alive, h.seen, h.staying, h.cap, h.sends, h.receives,
    h.window, h.drained⟩, ht.remove_other, rfl⟩

theorem pop_push (hq : s.q.toList = []) (ev) : (evqPush s ev).front = some ev ∧ ∃ q, q.toList = [] ∧
      (evqPush s ev).call .nextEvent = { s with queued := s.queued ++ [ev], q } := by
  rcases hp : (evqPush s ev).q.pop with _ | ⟨ev', q⟩
  · have := RingQueue.pop_none hp
    simp [evqPush] at this
  · have h := RingQueue.pop_some hp
    rw [evqPush, RingQueue.toList_push, hq, nil_append, cons.injEq] at h
    refine ⟨?_, q, h.2.symm, ?_⟩
    · rw [Session.front, muxNextEvent, hp, h.1]
    · rw [Session.call, muxNextEvent, hp]
      rfl

theorem muxRecv_encode {f : Frame} (hd : s.dead = false) (hq : s.q.toList = []) (hf : f.Sized) :
    (muxRecv s (encode f)).1 = processFrame s f := by
  have hc : s.q.count = 0 := by
    rw [← RingQueue.length_toList, hq]
    rfl
  obtain ⟨n, hn⟩ := Nat.exists_eq_succ_of_ne_zero
    (Nat.pos_iff_ne_zero.1 (length_pos_of_ne_nil (encode_ne_nil f)))
  have hp := muxParse_encode hf []
  rw [append_nil] at hp
  unfold muxRecv
  rw [if_neg (by simp [hd]), hn, recvLoop, if_neg (encode_ne_nil f),
    if_neg (by rw [hc]; decide), hp]
  dsimp only
  split
  · rfl
  · rw [drop_length]
    rcases n with _ | n
    · rfl
    · rw [recvLoop, if_pos rfl]

/-- An edge's session without streams, that admits the next. -/
structure Vacant (s : Session) : Prop where
  wf : TabWf s.tab
  role : s.role = .dialer
  alive : s.dead = false
  seen : s.peerHelloSeen = true
  staying : s.localGoaway = false
  empty : s.tab.count = 0
  room : 0 < s.maxStreams.toNat
  drained : s.q.toList = []

/-- And with one stream. -/
structure Taken (s : Session) (sid : UInt32) : Prop where
  wf : TabWf s.tab
  role : s.role = .dialer
  alive : s.dead = false
  seen : s.peerHelloSeen = true
  staying : s.localGoaway = false
  single : s.tab.count = 1
  found : (stFind s.tab sid).isSome = true
  sid_ne : sid ≠ muxSidControl
  room : 0 < s.maxStreams.toNat
  drained : s.q.toList = []

theorem processFrame_data {f : Frame} (hseen : s.peerHelloSeen = true) (hf : f.type = muxTData) :
    processFrame s f = onData { s with got := s.got ++ [f] } f := by
  unfold processFrame
  rw [if_neg (by simp [hseen]), if_pos hf]

theorem processFrame_live {f : Frame} {i : ℕ} (hseen : s.peerHelloSeen = true)
    (hf : f.type = muxTData) (hsyn : f.flags &&& muxFSyn = 0) (h0 : f.sid ≠ muxSidControl)
    (hfind : stFind s.tab f.sid = some (i, st)) :
    processFrame s f = onLive { s with got := s.got ++ [f] } f i st := by
  rw [processFrame_data hseen hf, onData, if_neg (by simp [Frame.has, hsyn]), if_neg h0]
  simp only [hfind]

theorem Vacant.note (h : Vacant s) (f) : Vacant { s with got := s.got ++ [f] } :=
  ⟨h.wf, h.role, h.alive, h.seen, h.staying, h.empty, h.room, h.drained⟩

theorem not_mem_of_empty {t : Table MuxStream} (h : TabWf t) (h0 : t.count = 0) : ¬ t.Mem st := by
  rintro ⟨k, hk, hs⟩
  have : 0 < tally (Slot.holds fun _ => true) t.slots t.cap := tally_pos hk (by rw [hs]; rfl)
  rw [← countIf, ← h.count_eq, h0] at this
  exact absurd this (Nat.lt_irrefl 0)

theorem Vacant.find (h : Vacant s) (sid) : stFind s.tab sid = none :=
  (stFind_none h.wf).2 fun _ hm => absurd hm (not_mem_of_empty h.wf h.empty)

theorem Vacant.onData {f : Frame} (h : Vacant s) (hf : f.flags = muxFSyn) (hm : f.payload = [])
    (hpar : f.sid &&& 1 = 0) (hsid : f.sid ≠ muxSidControl) (hlt : s.maxRemoteSid < f.sid) {t}
    {i : ℕ} (hi : stInsert s.tab (freshStream s.toCore f.sid) = (t, some i)) :
    onData s f = evqPush { s with tab := t, maxRemoteSid := f.sid } (.opened f.sid []) := by
  have hroom := h.room
  have hhas : f.has muxFSyn = true ∧ f.has muxFRst = false ∧ f.has muxFFin = false := by
    simp only [Frame.has, hf]
    decide
  unfold MuxProtocol.onData onSyn
  rw [if_pos hhas.1, if_neg (by simp [h.seen]), if_neg (by rw [h.role]; exact not_not.2 hpar),
    if_neg hsid, if_neg (by simp [h.find]), if_neg (UInt32.not_le.2 hlt), if_neg (by simp [hm]),
    if_neg (by simp [h.empty, h.staying]; omega)]
  simp only [hi, hhas.2, hm, Bool.false_eq_true, if_false]

theorem Vacant.syn (h : Vacant s) (hpar : sid &&& 1 = 0) (hsid : sid ≠ muxSidControl)
    (hlt : s.maxRemoteSid < sid) :
    ∃ s', processFrame s (synFrame sid []) = evqPush s' (.opened sid []) ∧ Taken s' sid
      ∧ s'.maxRemoteSid = sid := by
  obtain ⟨t, i, hi, hins⟩ := stInsert_inserted h.wf (freshStream s.toCore sid)
  refine ⟨_, (processFrame_data h.seen rfl).trans ((h.note _).onData rfl rfl hpar hsid hlt hi),
    ⟨hins.wf, h.role, h.alive, h.seen, h.staying, ?_, ?_, hsid, h.room, h.drained⟩, rfl⟩
  · rw [hins.wf.count_eq, hins.countIf, ← h.wf.count_eq, h.empty]
    rfl
  · rcases hf : stFind t sid with _ | x
    · exact absurd rfl ((stFind_none hins.wf).1 hf _ ((hins.mem _).2 (.inl rfl)))
    · rfl

theorem processFrame_rst (hseen : s.peerHelloSeen = true) (hsid : sid ≠ muxSidControl) {i : ℕ}
    (hf : stFind s.tab sid = some (i, st)) (hg : s.tab.get i = some st) :
    processFrame s (rstFrame sid 0) = evqPush { s with
      got := s.got ++ [rstFrame sid 0]
      blockedCount := if st.sendBlocked then s.blockedCount - 1 else s.blockedCount
      tab := s.tab.remove i } (.reset sid 0) := by
  have hflags : (rstFrame sid 0).flags &&& muxFSyn = 0 ∧ (rstFrame sid 0).has muxFRst = true := by
    change muxFRst &&& muxFSyn = 0 ∧ (muxFRst &&& muxFRst != 0) = true
    decide
  have hp : processFrame s (rstFrame sid 0)
      = stRemove (evqPush { s with got := s.got ++ [rstFrame sid 0] } (.reset sid 0)) i := by
    rw [processFrame_live hseen rfl hflags.1 hsid hf, onLive, if_pos hflags.2]
    rfl
  rw [hp]
  unfold stRemove evqPush
  simp only [hg]

theorem Taken.rst (h : Taken s sid) :
    ∃ s', processFrame s (rstFrame sid 0) = evqPush s' (.reset sid 0) ∧ Vacant s'
      ∧ s'.maxRemoteSid = s.maxRemoteSid := by
  obtain ⟨⟨i, st⟩, hf⟩ := isSome_iff_exists.1 h.found
  have hg := (stFind_some h.wf hf).1
  have hcount := countIf_remove h.wf (get_eq_some.1 hg) fun _ => true
  have hwf := h.wf.remove i
  rw [← h.wf.count_eq, h.single, ← hwf.count_eq] at hcount
  exact ⟨_, processFrame_rst h.seen h.sid_ne hf hg,
    ⟨hwf, h.role, h.alive, h.seen, h.staying, Nat.succ.inj hcount, h.room, h.drained⟩, rfl⟩

/-- A session that takes `n` bytes, of which each stream takes one. -/
structure Hearing (n : ℕ) (s : Session) : Prop where
  alive : s.dead = false
  seen : s.peerHelloSeen = true
  window : s.initWindow = 1
  receives : n ≤ s.sessRecvWin
  drained : s.q.toList = []

theorem AtRest.hearing (h : AtRest s) : Hearing 2 s :=
  ⟨h.alive, h.seen, h.window, h.receives, h.drained⟩

theorem Hearing.pop {n : ℕ} (h : Hearing n s) (ev) :
    Hearing n ((evqPush s ev).call .nextEvent) ∧ ((evqPush s ev).call .nextEvent).tab = s.tab := by
  obtain ⟨-, q, hq, he⟩ := pop_push h.drained ev
  rw [he]
  exact ⟨⟨h.alive, h.seen, h.window, h.receives, hq⟩, rfl⟩

theorem Vacant.pop (h : Vacant s) (ev) : Vacant ((evqPush s ev).call .nextEvent)
    ∧ ((evqPush s ev).call .nextEvent).maxRemoteSid = s.maxRemoteSid := by
  obtain ⟨-, q, hq, he⟩ := pop_push h.drained ev
  rw [he]
  exact ⟨⟨h.wf, h.role, h.alive, h.seen, h.staying, h.empty, h.room, hq⟩, rfl⟩

theorem Taken.pop (h : Taken s sid) (ev) : Taken ((evqPush s ev).call .nextEvent) sid
    ∧ ((evqPush s ev).call .nextEvent).maxRemoteSid = s.maxRemoteSid := by
  obtain ⟨-, q, hq, he⟩ := pop_push h.drained ev
  rw [he]
  exact ⟨⟨h.wf, h.role, h.alive, h.seen, h.staying, h.single, h.found, h.sid_ne, h.room, hq⟩, rfl⟩

theorem processFrame_byte (hseen : s.peerHelloSeen = true) (hsid : sid ≠ muxSidControl) {i : ℕ}
    (hf : stFind s.tab sid = some (i, st)) (hl : st.life ≠ .hclRemote) (hwin : 1 ≤ st.recvWin)
    (hrecv : 1 ≤ s.sessRecvWin) (b) : processFrame s (dataFrame sid [b]) = evqPush { s with
      got := s.got ++ [dataFrame sid [b]]
      tab := s.tab.modify i fun st =>
        { st with recvWin := st.recvWin - (1 : ℕ), delivered := st.delivered + 1 }
      sessRecvWin := s.sessRecvWin - (1 : ℕ) } (.data sid [b]) := by
  have hflags : (dataFrame sid [b]).flags &&& muxFSyn = 0 ∧ (dataFrame sid [b]).has muxFRst = false
      ∧ (dataFrame sid [b]).has muxFFin = false := by
    change 0 &&& muxFSyn = 0 ∧ ((0 : UInt16) &&& muxFRst != 0) = false
      ∧ ((0 : UInt16) &&& muxFFin != 0) = false
    decide
  refine (processFrame_live hseen rfl hflags.1 hsid hf).trans ?_
  rw [onLive, if_neg (by simp [hflags.2.1]), if_neg (by simp [hl]),
    if_neg (by simp [dataFrame]; omega), if_neg (by simp [dataFrame]; omega)]
  simp only [hflags.2.2]
  rfl

theorem Hearing.data {n : ℕ} (h : Hearing (n + 1) s) (hsid : sid ≠ muxSidControl) {i : ℕ}
    (hf : stFind s.tab sid = some (i, st)) (hl : st.life ≠ .hclRemote) (hwin : st.recvWin = 1) (b) :
    ∃ s', processFrame s (dataFrame sid [b]) = evqPush s' (.data sid [b]) ∧ Hearing n s'
      ∧ s'.tab = s.tab.modify i fun st =>
        { st with recvWin := st.recvWin - (1 : ℕ), delivered := st.delivered + 1 } := by
  have hrecv := h.receives
  refine ⟨_, processFrame_byte h.seen hsid hf hl (by omega) (by omega) b,
    ⟨h.alive, h.seen, h.window, ?_, h.drained⟩, rfl⟩
  change (n : ℤ) ≤ s.sessRecvWin - (1 : ℕ)
  omega

theorem Hearing.fin {n : ℕ} (h : Hearing n s) (hsid : sid ≠ muxSidControl) {i : ℕ}
    (hf : stFind s.tab sid = some (i, st)) (hl : st.life = .hclLocal) (hg : s.tab.get i = some st) :
    ∃ s', processFrame s (finFrame sid) = evqPush s' (.closed sid) ∧ Hearing n s'
      ∧ s'.tab = s.tab.remove i := by
  have hflags : (finFrame sid).flags &&& muxFSyn = 0 ∧ (finFrame sid).has muxFRst = false
      ∧ (finFrame sid).has muxFFin = true := by
    change muxFFin &&& muxFSyn = 0 ∧ (muxFFin &&& muxFRst != 0) = false
      ∧ (muxFFin &&& muxFFin != 0) = true
    decide
  refine ⟨{ s with
      got := s.got ++ [finFrame sid]
      blockedCount := if st.sendBlocked then s.blockedCount - 1 else s.blockedCount
      tab := s.tab.remove i },
    (processFrame_live h.seen rfl hflags.1 hsid hf).trans ?_,
    ⟨h.alive, h.seen, h.window, h.receives, h.drained⟩, rfl⟩
  rw [onLive, if_neg (by simp [hflags.2.1]), if_neg (by simp [finFrame]),
    if_neg (by simp [finFrame]),
    if_neg (by simp [finFrame])]
  dsimp only
  rw [if_pos hflags.2.2, if_neg (by simp [finFrame]), onFin, if_pos hl]
  simp only [stRemove, evqPush, hg]
  rfl

theorem onWindowUpdate_wakes {f : Frame} {i : ℕ} (hlen : f.payload.length = 4)
    (hload : beLoad32 f.payload = 1) (hsid : f.sid ≠ muxSidControl)
    (hf : stFind s.tab f.sid = some (i, st)) (hg : s.tab.get i = some st) (hwin : st.sendWin = 0)
    (hb : st.sendBlocked = true) (hs : 0 < s.sessSendWin) :
    onWindowUpdate s f = evqPush { s with
      tab := s.tab.modify i fun st => { st with sendWin := st.sendWin + 1, sendBlocked := false }
      blockedCount := s.blockedCount - 1 } (.writable f.sid) := by
  have hg' := get_modify_self hg fun st => { st with sendWin := st.sendWin + 1 }
  have hmm := s.tab.modify_modify i (fun st => { st with sendWin := st.sendWin + 1 })
    fun st => { st with sendBlocked := false }
  have hone : ((1 : UInt32).toNat : ℤ) = 1 := rfl
  rw [onWindowUpdate, if_neg (not_not.2 hlen), hload, hone]
  dsimp only
  rw [if_neg hsid]
  simp only [hf]
  rw [if_neg (by rw [hwin]; decide), if_pos ⟨hb, by rw [hwin]; decide, hs⟩]
  unfold setBlocked
  simp only [hg', hb, hmm, Bool.false_eq_true, false_and, if_false, not_false_eq_true, and_self,
    if_true]
  rfl

theorem AtRest.credit (h : AtRest s) (hsid : sid ≠ muxSidControl) {i : ℕ}
    (hf : stFind s.tab sid = some (i, st)) (hg : s.tab.get i = some st) (hwin : st.sendWin = 0)
    (hb : st.sendBlocked = true) :
    ∃ s', processFrame s (creditFrame sid 1) = evqPush s' (.writable sid) ∧ Hearing 2 s'
      ∧ s'.tab = s.tab.modify i fun st =>
        { st with sendWin := st.sendWin + 1, sendBlocked := false } := by
  have htype : (creditFrame sid 1).type ≠ muxTData := by
    change muxTWindowUpdate ≠ muxTData
    decide
  have hload : beLoad32 (creditFrame sid 1).payload = 1 := by
    change beLoad32 (bePut32 1) = 1
    decide
  have hp : processFrame s (creditFrame sid 1)
      = onWindowUpdate { s with got := s.got ++ [creditFrame sid 1] } (creditFrame sid 1) := by
    unfold processFrame
    rw [if_neg (by simp [h.seen]), if_neg htype, 
      if_pos (show (creditFrame sid 1).type = muxTWindowUpdate from rfl)]
  refine ⟨_, hp.trans (onWindowUpdate_wakes rfl hload hsid hf hg hwin hb h.sends),
    ⟨h.alive, h.seen, h.window, h.receives, h.drained⟩, rfl⟩

end Sessions

/-! ### The router -/

namespace Router

variable {ne nw : ℕ} {e e' : Router ne nw} {t t' : Tunnel ne nw} {s s' : Session} {ev : Event}
  {f : Frame}
  {sid ds : UInt32} {p : ℕ} {r : Route ne nw}

/-- The router comes from the one state to the other. -/
def Runs (e e' : Router ne nw) : Prop :=
  Reach (ofFun (Router.move nullHmac)) (fun _ _ => True) e e'

theorem runs_advance (e : Router ne nw) (t) (n : ℕ) :
    Runs e (e.call t (.sendAdvance n)) := .single (a := .advance t n) trivial rfl

/-- Only the session of `t` and its receive buffer are changed. -/
structure Swapped (t : Tunnel ne nw) (s : Session) (e e' : Router ne nw) : Prop where
  heap : e'.heap = e.heap
  next : e'.next = e.next
  mux : (e'.conn t).mux = some s
  others : ∀ t', t' ≠ t → e'.conn t' = e.conn t'
  routes : (e'.conn t).routes = (e.conn t).routes
  ready : (e'.conn t).ready = (e.conn t).ready
  weight : (e'.conn t).weight = (e.conn t).weight

theorem swapped_call (hs : (e.conn t).mux = some s) (a) : Swapped t (s.call a) e (e.call t a) := by
  unfold call
  rw [hs]
  exact ⟨rfl, rfl, by simp, fun t' ht => modify_of_ne _ _ _ ht, by simp, by simp, by simp⟩

theorem Swapped.trans {e''} (h : Swapped t s e e') (h' : Swapped t s' e' e'') :
    Swapped t s' e e'' :=
  ⟨h'.heap.trans h.heap, h'.next.trans h.next, h'.mux,
    fun t' ht => (h'.others t' ht).trans (h.others t' ht), h'.routes.trans h.routes,
    h'.ready.trans h.ready, h'.weight.trans h.weight⟩

theorem runs_hears (hs : (e.conn t).mux = some s) (hd : s.dead = false) (hq : s.q.toList = [])
    (hf : f.Sized) (hev : (processFrame s f).front = some ev) :
    ∃ e₁, Runs e (e₁.onEvent nullHmac t ev)
      ∧ Swapped t ((processFrame s f).call .nextEvent) e e₁ := by
  set e₁ := e.modify t fun c => { c with recv := encode f }
  have h₁ : Swapped t s e e₁ :=
    ⟨rfl, rfl, by simp [e₁, hs], fun t' ht => modify_of_ne _ _ _ ht, by simp [e₁], by simp [e₁],
      by simp [e₁]⟩
  have hrecv : s.call (.recv (e₁.conn t).recv) = processFrame s f := by
    rw [show (e₁.conn t).recv = encode f by simp [e₁]]
    exact muxRecv_encode hd hq hf
  have h₂ := swapped_call h₁.mux (.recv (e₁.conn t).recv)
  rw [hrecv] at h₂
  set e₂ := e₁.call t (.recv (e₁.conn t).recv)
  have h₃ := swapped_call h₂.mux .nextEvent
  refine ⟨e₂.call t .nextEvent, ?_, (h₁.trans h₂).trans h₃⟩
  have hr : Runs e e₂ := .trans (.single (a := .stash t (encode f)) trivial rfl)
    (.single (a := .recv t) trivial rfl)
  refine hr.trans (.single (a := .event t) trivial ?_)
  have hfront : ((e₂.conn t).mux.bind fun s => (muxNextEvent s).2) = some ev := by
    rw [h₂.mux]
    exact hev
  change _ = e₂.nextEvent nullHmac t
  unfold nextEvent
  rw [hfront]

theorem pickWorker_one {e : Router ne 1} (hready : (e.conn (.worker 0)).ready = true)
    (hw : (e.conn (.worker 0)).weight ≠ 0) : e.pickWorker = (e, some 0) := by
  have hl : finRange 1 = [0] := by decide
  unfold pickWorker
  rw [hl, foldl_cons, foldl_nil, pickStep]
  dsimp only
  rw [if_neg (by simp [hready, hw])]
  dsimp only
  congr 1
  unfold modify
  simp only [update_self, update_idem]
  congr 1
  simp

theorem runs_syn {e : Router ne 1} {i} {w : Session} (hs : (e.conn (.edge i)).mux = some s)
    (hd : s.dead = false) (hq : s.q.toList = [])
    (hev : (processFrame s (synFrame sid [])).front = some (.opened sid []))
    (hready : (e.conn (.worker 0)).ready = true) (hweight : (e.conn (.worker 0)).weight ≠ 0)
    (hw : (e.conn (.worker 0)).mux = some w) (ho : (muxOpen w []).2 = .ok ds) :
    ∃ e', Runs e e' ∧ e'.heap = update e.heap e.next (some (newRoute i 0 sid ds))
      ∧ e'.next = e.next + 1 ∧ (∀ d, e'.routeOf ((newRoute i 0 sid ds).key d) = some e.next)
      ∧ (e'.conn (.edge i)).mux = some ((processFrame s (synFrame sid [])).call .nextEvent)
      ∧ (∀ i', i' ≠ i → (e'.conn (.edge i')).mux = (e.conn (.edge i')).mux)
      ∧ (e'.conn (.worker 0)).mux = some (w.call (.open []))
      ∧ (e'.conn (.worker 0)).ready = true ∧ (e'.conn (.worker 0)).weight ≠ 0 := by
  obtain ⟨e₁, hr, h₁⟩ := runs_hears hs hd hq ⟨rfl, by simp [synFrame]⟩ hev
  have hworker : e₁.conn (.worker 0) = e.conn (.worker 0) := h₁.others _ (by simp)
  have h₂ := swapped_call (by rw [hworker]; exact hw) (.open [])
  have hon : e₁.onEvent nullHmac (.edge i) (.opened sid [])
      = (e₁.call (.worker 0) (.open [])).routeNew i sid 0 ds := by
    change e₁.onUpEvent nullHmac i (.opened sid []) = _
    unfold onUpEvent
    rw [pickWorker_one (by rw [hworker]; exact hready) (by rw [hworker]; exact hweight)]
    simp only [hworker, hw, ho]
  rw [hon] at hr
  refine ⟨_, hr, ?_, ?_, fun d => ?_, ?_, fun i' hi => ?_, ?_, ?_, ?_⟩
  · rw [routeNew_heap, h₂.heap, h₂.next, h₁.heap, h₁.next]
  · rw [routeNew_next, h₂.next, h₁.next]
  · rw [routeNew_routeOf_self, h₂.next, h₁.next]
  · rw [routeNew_mux, h₂.others _ (by simp), h₁.mux]
  · rw [routeNew_mux, h₂.others _ (by simp), h₁.others _ (by simpa using hi)]
  · rw [routeNew_mux, h₂.mux]
  · rw [routeNew_field _ _ _ _ _ ready fun _ _ _ => rfl, h₂.ready, hworker, hready]
  · rw [routeNew_field _ _ _ _ _ weight fun _ _ _ => rfl, h₂.weight, hworker]
    exact hweight

/-- A RST of an edge resets the stream of the worker, and the route is freed. -/
theorem runs_rst {e : Router ne 1} {i} {w : Session} (hs : (e.conn (.edge i)).mux = some s)
    (hd : s.dead = false) (hq : s.q.toList = [])
    (hev : (processFrame s (rstFrame sid 0)).front = some (.reset sid 0))
    (hroute : e.routeOf (.edge i, sid) = some p) (hheap : e.heap p = some (newRoute i 0 sid ds))
    (hw : (e.conn (.worker 0)).mux = some w) :
    ∃ e', Runs e e' ∧ (∀ q, q ≠ p → e'.heap q = e.heap q) ∧ e'.next = e.next
      ∧ (e'.conn (.edge i)).mux = some ((processFrame s (rstFrame sid 0)).call .nextEvent)
      ∧ (∀ i', i' ≠ i → (e'.conn (.edge i')).mux = (e.conn (.edge i')).mux)
      ∧ (e'.conn (.worker 0)).mux = some (w.call (.reset ds muxCodeInternal))
      ∧ (e'.conn (.worker 0)).ready = (e.conn (.worker 0)).ready
      ∧ (e'.conn (.worker 0)).weight = (e.conn (.worker 0)).weight := by
  obtain ⟨e₁, hr, h₁⟩ := runs_hears hs hd hq ⟨rfl, by simp [rstFrame, muxMaxPayload]⟩ hev
  have hworker : e₁.conn (.worker 0) = e.conn (.worker 0) := h₁.others _ (by simp)
  set r : Route ne 1 := newRoute i 0 sid ds
  set e₂ := e₁.setRoute p { r with gone := true }
  have hheap₁ : e₁.heap p = some r := by rw [h₁.heap, hheap]
  have h₃ : Swapped (.worker 0) (w.call (.reset ds muxCodeInternal)) e₂
      (e₂.call (.worker 0) (.reset ds muxCodeInternal)) :=
    swapped_call (e := e₂) ((congrArg mux hworker).trans hw) _
  have hfind : e₁.find (.edge i) sid = some (p, r) := by
    have hlook : (e₁.conn (.edge i)).routes.lookup sid = some p := by rw [h₁.routes]; exact hroute
    rw [find, hlook, bind_some, hheap₁, map_some]
  have hon : e₁.onEvent nullHmac (.edge i) (.reset sid 0)
      = (e₂.call (.worker 0) (.reset ds muxCodeInternal)).routeFree p := by
    change e₁.onUpEvent nullHmac i (.reset sid 0) = _
    unfold onUpEvent
    simp only [hfind]
    unfold routeKill
    simp only [hheap₁]
    rfl
  have hheap₃ : (e₂.call (.worker 0) (.reset ds muxCodeInternal)).heap p
      = some { r with gone := true } := by rw [h₃.heap, setRoute_self]
  rw [hon] at hr
  refine ⟨_, hr, fun q hq => ?_, ?_, ?_, fun i' hi => ?_, ?_, ?_, ?_⟩
  · rw [routeFree_heap _ hheap₃, update_of_ne hq, h₃.heap, setRoute_of_ne hq, h₁.heap]
  · rw [routeFree_next, h₃.next]
    exact h₁.next
  · rw [routeFree_mux, h₃.others _ (by simp)]
    exact h₁.mux
  · rw [routeFree_mux, h₃.others _ (by simp)]
    exact congrArg mux (h₁.others (.edge i') (by simpa using hi))
  · rw [routeFree_mux, h₃.mux]
  · rw [routeFree_field _ ready fun _ _ _ => rfl, h₃.ready]
    exact congrArg ready hworker
  · rw [routeFree_field _ weight fun _ _ _ => rfl, h₃.weight]
    exact congrArg weight hworker

/-- The first stream of the worker is open, `k` streams of the second edge have come and gone. -/
structure Lap (s₀ : Session) (st : MuxStream) (r : Route 2 1) (k : ℕ) (e : Router 2 1) : Prop where
  edge : (e.conn (.edge 0)).mux = some s₀
  other : ∃ s, (e.conn (.edge 1)).mux = some s ∧ Vacant s ∧ s.maxRemoteSid = .ofNat (2 * k)
  worker : ∃ w, (e.conn (.worker 0)).mux = some w ∧ AtRest w
    ∧ w.tab.Single mixSid MuxStream.sid st ∧ w.nextLocalSid = nthSid .dialer (k + 1)
  ready : (e.conn (.worker 0)).ready = true
  weight : (e.conn (.worker 0)).weight ≠ 0
  route : e.heap 0 = some r
  next : 0 < e.next

theorem even_sid {k : ℕ} (hk : k + 1 < 2 ^ 31) :
    (UInt32.ofNat (2 * (k + 1))) &&& 1 = 0 ∧ UInt32.ofNat (2 * (k + 1)) ≠ muxSidControl
      ∧ UInt32.ofNat (2 * k) < UInt32.ofNat (2 * (k + 1)) := by
  have h1 : (UInt32.ofNat (2 * (k + 1))).toNat = 2 * (k + 1) :=
    UInt32.toNat_ofNat_of_lt' (show _ < 2 ^ 32 by omega)
  have h2 : (UInt32.ofNat (2 * k)).toNat = 2 * k :=
    UInt32.toNat_ofNat_of_lt' (show _ < 2 ^ 32 by omega)
  refine ⟨UInt32.toNat.inj ?_, fun h => ?_, UInt32.lt_iff_toNat_lt.2 (by omega)⟩
  · rw [UInt32.toNat_and, h1, show (1 : UInt32).toNat = 1 from rfl, Nat.and_one_is_mod]
    change 2 * (k + 1) % 2 = 0
    omega
  · have := congrArg UInt32.toNat h
    rw [h1, show muxSidControl.toNat = 0 from rfl] at this
    omega

theorem nthSid_ne {k : ℕ} (hk : k < 2 ^ 31) (h0 : 0 < k) :
    nthSid .dialer k ≠ 1 ∧ nthSid .dialer k ≠ muxSidControl := by
  refine ⟨fun h => ?_, nthSid_dialer_ne k⟩
  have := congrArg UInt32.toNat h
  rw [toNat_nthSid, show firstSid .dialer = 1 from rfl,
    show (1 : UInt32).toNat = 1 from rfl] at this
  omega

/-- One more stream of the second edge comes and goes. -/
theorem Lap.round {s₀} {st : MuxStream} {r} {k : ℕ} {e} (h : Lap s₀ st r k e) (hst : st.sid = 1)
    (hk : k + 1 < 2 ^ 31) : ∃ e', Runs e e' ∧ Lap s₀ st r (k + 1) e' := by
  obtain ⟨s, hs, hv, hmax⟩ := h.other
  obtain ⟨w, hw, hrest, htab, hnext⟩ := h.worker
  obtain ⟨hpar, hsid, hlt⟩ := even_sid hk
  obtain ⟨hne, hne0⟩ := nthSid_ne hk (Nat.succ_pos k)
  set sid := UInt32.ofNat (2 * (k + 1))
  set ds := nthSid .dialer (k + 1)
  -- SYN
  obtain ⟨s₁, hp, ht, hmax₁⟩ := hv.syn hpar hsid (hmax ▸ hlt)
  obtain ⟨ho, n, j, hrest₁, htab₁, hnext₁⟩ := hrest.open htab (hnext ▸ hne0)
  obtain ⟨ht', hmax₁'⟩ := ht.pop (.opened sid [])
  obtain ⟨e₁, hr₁, hheap₁, hn₁, hroute₁, hs₁, hedge₁, hw₁, hready₁, hweight₁⟩ :=
    runs_syn hs hv.alive hv.drained (by rw [hp]; exact (pop_push ht.drained _).1) h.ready
      h.weight hw (show (muxOpen w []).2 = .ok ds by rw [ho, hnext])
  rw [hp] at hs₁
  have h₂ := swapped_call hw₁ (.sendAdvance n)
  have hr₂ := hr₁.trans (runs_advance e₁ (.worker 0) n)
  set e₂ := e₁.call (.worker 0) (.sendAdvance n)
  -- RST
  obtain ⟨s₃, hp₃, hv₃, hmax₃⟩ := ht'.rst
  obtain ⟨hv₃', hmax₃'⟩ := hv₃.pop (.reset sid 0)
  obtain ⟨m, hrest₃, htab₃, hnext₃⟩ :=
    hrest₁.reset htab₁ (by rw [hst, freshStream, hnext]; exact hne)
    muxCodeInternal
  rw [show (freshStream w.toCore w.nextLocalSid).sid = ds from hnext] at hrest₃ htab₃ hnext₃
  have hedge₂ : ∀ i, e₂.conn (.edge i) = e₁.conn (.edge i) := fun i => h₂.others _ (by simp)
  obtain ⟨e₃, hr₃, hheap₃, hn₃, hs₃, hedge₃, hw₃, hready₃, hweight₃⟩ :=
    runs_rst (e := e₂) (i := 1) (p := e.next) (by rw [hedge₂]; exact hs₁) ht'.alive
      ht'.drained (by rw [hp₃]; exact (pop_push hv₃.drained _).1)
      (by rw [routeOf, hedge₂]; exact hroute₁ .up)
      (show e₂.heap e.next = some (newRoute 1 0 sid ds) by
        rw [h₂.heap, hheap₁, update_self]) h₂.mux
  rw [hp₃] at hs₃
  have h₄ := swapped_call hw₃ (.sendAdvance m)
  refine ⟨e₃.call (.worker 0) (.sendAdvance m), (hr₂.trans hr₃).trans (runs_advance e₃ _ m), ?_, ?_,
    ?_, ?_, ?_, ?_, ?_⟩
  · rw [h₄.others _ (by simp), hedge₃ 0 (by decide), hedge₂, hedge₁ 0 (by decide), h.edge]
  · refine ⟨_, by rw [h₄.others _ (by simp), hs₃], hv₃', ?_⟩
    rw [hmax₃', hmax₃, hmax₁', hmax₁]
  · exact ⟨_, h₄.mux, hrest₃, htab₃, by rw [hnext₃, hnext₁, hnext, nthSid_succ]⟩
  · rw [h₄.ready, hready₃, h₂.ready, hready₁]
  · rw [h₄.weight, hweight₃, h₂.weight]
    exact hweight₁
  · rw [h₄.heap, hheap₃ 0 h.next.ne, h₂.heap, hheap₁, update_of_ne h.next.ne, h.route]
  · rw [h₄.next, hn₃, h₂.next, hn₁]
    exact Nat.succ_pos _

theorem Lap.rounds {s₀} {st : MuxStream} {r e} (h : Lap s₀ st r 0 e) (hst : st.sid = 1) :
    ∀ k < 2 ^ 31, ∃ e', Runs e e' ∧ Lap s₀ st r k e'
  | 0, _ => ⟨e, .start, h⟩
  | k + 1, hk => by
    obtain ⟨e₁, hr₁, h₁⟩ := h.rounds hst k (by omega)
    obtain ⟨e₂, hr₂, h₂⟩ := h₁.round hst hk
    exact ⟨e₂, hr₁.trans hr₂, h₂⟩

theorem find_of_routeOf {e : Router ne nw} (hr : e.routeOf (t, sid) = some p)
    (hp : e.heap p = some r) :
    e.find t sid = some (p, r) := by
  rw [find, show (e.conn t).routes.lookup sid = some p from hr, bind_some, hp, map_some]

theorem Swapped.routeOf_eq (h : Swapped t s e e') : e'.routeOf = e.routeOf := by
  funext k
  unfold routeOf
  by_cases hk : k.1 = t
  · rw [hk, h.routes]
  · rw [h.others _ hk]

/-- Besides the route `r₀`, the first, there is `r`, which the worker's map has for the id 1. -/
structure Twofold (r₀ : Route 2 1) (p : ℕ) (r : Route 2 1) (s w : Session) (e : Router 2 1) :
    Prop where
  first : e.heap 0 = some r₀
  pos : 0 < p
  heap : e.heap p = some r
  route : e.routeOf (.worker 0, 1) = some p
  edge : (e.conn (.edge 0)).mux = some s
  worker : (e.conn (.worker 0)).mux = some w

section Twofold

variable {r₀ r : Route 2 1} {w w' : Session} {e : Router 2 1} {n : ℕ}

theorem Twofold.find (h : Twofold r₀ p r s w e) : e.find (.worker 0) 1 = some (p, r) :=
  find_of_routeOf h.route h.heap

theorem Twofold.setRoute (h : Twofold r₀ p r s w e) (r') : Twofold r₀ p r' s w (e.setRoute p r') :=
  ⟨by rw [setRoute_of_ne h.pos.ne, h.first], h.pos, setRoute_self .., h.route, h.edge, h.worker⟩

theorem Twofold.call (h : Twofold r₀ p r s w e) (a) :
    Twofold r₀ p r (s.call a) w (e.call (.edge 0) a) :=
  have hc := swapped_call h.edge a
  ⟨by rw [hc.heap, h.first], h.pos, by rw [hc.heap, h.heap], by rw [hc.routeOf_eq, h.route], hc.mux,
    by rw [hc.others _ (by simp), h.worker]⟩

theorem Twofold.hears (h : Twofold r₀ p r s w e) (hd : w.dead = false) (hq : w.q.toList = [])
    (hf : f.Sized) (hp : processFrame w f = evqPush w' ev) (hh : Hearing n w') :
    ∃ e₁ w₁, Runs e (e₁.onEvent nullHmac (.worker 0) ev) ∧ Twofold r₀ p r s w₁ e₁ ∧ Hearing n w₁
      ∧ w₁.tab = w'.tab := by
  obtain ⟨e₁, hr, hc⟩ := runs_hears h.worker hd hq hf (by rw [hp]; exact (pop_push hh.drained _).1)
  obtain ⟨hh', htab⟩ := hh.pop ev
  rw [hp] at hc
  exact ⟨e₁, _, hr, ⟨by rw [hc.heap, h.first], h.pos, by rw [hc.heap, h.heap],
    by rw [hc.routeOf_eq, h.route], by rw [hc.others _ (by simp), h.edge], hc.mux⟩, hh', htab⟩

end Twofold

/-- A route for the id 1 a second time: the worker's map has the later one, and a search of its
streams finds the earlier. -/
theorem Lap.second {s₀ : Session} {st r e} (h : Lap s₀ st r (2 ^ 31 - 1) e) (hd : s₀.dead = false)
    (hq : s₀.q.toList = []) (hev : (processFrame s₀ (synFrame 4 [])).front = some (.opened 4 [])) :
    ∃ e' p w j st', Runs e e' ∧ Twofold r p (newRoute 0 0 4 1)
        ((processFrame s₀ (synFrame 4 [])).call .nextEvent) w e'
      ∧ AtRest w ∧ w.tab.Double mixSid MuxStream.sid st j st' ∧ st'.sid = 1 ∧ st'.life = .open
      ∧ st'.recvWin = 1 := by
  obtain ⟨w, hw, hrest, htab, hnext⟩ := h.worker
  rw [show 2 ^ 31 - 1 + 1 = 2 ^ 31 from rfl, nthSid_wrap,
    show nthSid .dialer 0 = 1 from rfl] at hnext
  obtain ⟨ho, n, j, hrest₁, htab₁, -⟩ := hrest.open htab (by rw [hnext]; decide)
  rw [hnext] at ho htab₁
  obtain ⟨e₁, hr₁, hheap₁, hn₁, hroute₁, hs₁, -, hw₁, -, -⟩ :=
    runs_syn h.edge hd hq hev h.ready h.weight hw ho
  have h₂ := swapped_call hw₁ (.sendAdvance n)
  refine ⟨_, e.next, _, j, _, hr₁.trans (runs_advance e₁ (.worker 0) n),
    ⟨?_, h.next, ?_, ?_, ?_, h₂.mux⟩, hrest₁, htab₁, rfl, rfl, ?_⟩
  · rw [h₂.heap, hheap₁, update_of_ne h.next.ne, h.route]
  · rw [h₂.heap, hheap₁, update_self]
  · rw [h₂.routeOf_eq]
    exact hroute₁ .down
  · rw [h₂.others _ (by simp), hs₁]
  · rw [freshStream, hrest.window]
    rfl

/-- A peer that gives no window to streams. -/
def shutPeer : Core := { (initSession {} .acceptor).toCore with initWindow := 0 }

/-- A stream of the first edge is routed to the worker. -/
def shutRun : List (Move 2 1) :=
  plugIn (.edge 0) shutPeer ++ plugIn (.edge 1) shutPeer ++ plugIn (.worker 0) shutPeer
    ++ hears (.edge 0) (synFrame 2 [])

/-- Its route holds a byte for the worker. -/
def blockedRun : List (Move 2 1) :=
  shutRun ++ hears (.edge 0) (dataFrame 2 [7]) ++ [.advance (.worker 0) 1000]

/-- Or it was closed by the edge. -/
def halfClosedRun : List (Move 2 1) :=
  shutRun ++ hears (.edge 0) (finFrame 2) ++ [.advance (.worker 0) 1000]

/-- An edge's session that has had no streams. -/
def PrimedEdge (s : Session) : Prop :=
  s.role = .dialer ∧ s.dead = false ∧ s.peerHelloSeen = true ∧ s.localGoaway = false
    ∧ s.tab.count = 0 ∧ 0 < s.maxStreams.toNat ∧ s.q.toList = [] ∧ s.maxRemoteSid = 0

/-- A worker's session with its first stream, in slot `i`. -/
def PrimedWorker (w : Session) (i : ℕ) : Prop :=
  (w.out.data = [] ∧ w.out.spos = 0 ∧ 28 ≤ w.maxOutBuffer.toNat ∧ w.dead = false
    ∧ w.peerHelloSeen = true ∧ w.localGoaway = false ∧ 2 ≤ w.peerMaxStreams.toNat
    ∧ 0 < w.sessSendWin ∧ 2 ≤ w.sessRecvWin ∧ w.initWindow = 1 ∧ w.q.toList = [])
  ∧ i = mixSid 1 % w.tab.cap ∧ w.tab.count = 1 ∧ w.nextLocalSid = 3

instance (s : Session) : Decidable (PrimedEdge s) := inferInstanceAs (Decidable (_ ∧ _))

instance (w : Session) (i : ℕ) : Decidable (PrimedWorker w i) := inferInstanceAs (Decidable (_ ∧ _))

/-- A stream of the first edge is routed to the first of the worker; the second edge has opened
none. -/
def Primed (Q : Session → MuxStream → Route 2 1 → Prop) (e : Router 2 1) : Prop :=
  ((e.conn (.worker 0)).ready = true ∧ (e.conn (.worker 0)).weight ≠ 0 ∧ 0 < e.next)
  ∧ ∃ s₀ ∈ (e.conn (.edge 0)).mux, ∃ s ∈ (e.conn (.edge 1)).mux, ∃ w ∈ (e.conn (.worker 0)).mux,
    ∃ x ∈ stFind w.tab 1, ∃ r ∈ e.heap 0, PrimedEdge s ∧ PrimedWorker w x.1 ∧ Q s₀ x.2 r

instance Primed.decidable (Q : Session → MuxStream → Route 2 1 → Prop)
    [∀ s st r, Decidable (Q s st r)] (e : Router 2 1) : Decidable (Primed Q e) :=
  inferInstanceAs (Decidable (_ ∧ ∃ s₀ ∈ _, ∃ s ∈ _, ∃ w ∈ _, ∃ x ∈ _, ∃ r ∈ _, _))

theorem Primed.lap {Q : Session → MuxStream → Route 2 1 → Prop} {e} (h : Primed Q e)
    (hi : Tables e) : ∃ s₀ st r, Lap s₀ st r 0 e ∧ st.sid = 1 ∧ Q s₀ st r := by
  obtain ⟨⟨hready, hweight, hnext⟩, s₀, hs₀, s, hs, w, hw, ⟨i, st⟩, hf, r, hr,
    ⟨h1, h2, h3, h4, h5, h6, h7, h8⟩,
    ⟨⟨g1, g2, g3, g4, g5, g6, g7, g8, g9, g10, g11⟩, k1, k2, k3⟩, hQ⟩ := h
  have hwf : TabWf w.tab := (hi.served _ w hw).wf.tab
  obtain ⟨hg, hst⟩ := stFind_some hwf hf
  have hsingle : w.tab.Single mixSid sid st :=
    hwf.single k2 (by rw [hst, ← k1]; exact get_eq_some.1 hg)
  exact ⟨s₀, st, r, ⟨hs₀, ⟨s, hs, ⟨(hi.served _ s hs).wf.tab, h1, h2, h3, h4, h5, h6, h7⟩, h8⟩,
    ⟨w, hw, ⟨⟨g1, g2, g3⟩, g4, g5, g6, g7, g8, g9, g10, g11⟩, hsingle, k3⟩, hready, hweight, hr,
      hnext⟩,
    hst, hQ⟩

/-- A route whose byte no event will flush: the credit of the worker has unblocked the stream, and
WRITABLE went to the later route. -/
theorem stuck_route :
    ∃ (e : Router 2 1) (r : Route 2 1) (w : Session) (i : ℕ) (st : MuxStream),
      Reach (ofFun (Router.move nullHmac)) (fun _ _ => True) (start 2 1 { initWindow := 1 }) e
      ∧ e.heap 0 = some r ∧ r.u2w = [7] ∧ r.downSid = 1 ∧ (e.conn (.worker 0)).mux = some w
      ∧ w.dead = false ∧ stFind w.tab 1 = some (i, st) ∧ st.life ≠ .hclLocal
      ∧ st.sendBlocked = false ∧ w.q.toList = [] := by
  have hrun : Reach (ofFun (Router.move nullHmac)) (FewMove nullHmac)
      (start 2 1 { initWindow := 1 })
      (blockedRun.foldl (Router.move nullHmac) (start 2 1 { initWindow := 1 })) :=
    .foldl blockedRun (by decide +kernel)
  have hprimed : Primed (fun s₀ st r => s₀.dead = false ∧ s₀.q.toList = []
      ∧ (processFrame s₀ (synFrame 4 [])).front = some (.opened 4 []) ∧ st.sendWin = 0
      ∧ st.sendBlocked = true ∧ st.life = .open ∧ r.u2w = [7] ∧ r.downSid = 1)
      (blockedRun.foldl (Router.move nullHmac) (start 2 1 { initWindow := 1 })) := by decide +kernel
  generalize blockedRun.foldl (Router.move nullHmac) (start 2 1 { initWindow := 1 }) = e at *
  obtain ⟨s₀, st, r, hlap, hst, hd, hq, hev, hwin, hb, hl, hpend, hsid⟩ :=
    hprimed.lap (reach_steady hrun).tables
  obtain ⟨e₁, hr₁, h₁⟩ := hlap.rounds hst (2 ^ 31 - 1) (by decide)
  obtain ⟨e₂, p, w, j, st', hr₂, h₂, hrest, htab, -⟩ := h₁.second hd hq hev
  have hf := find_home htab.wf htab.home
  have htab₃ := htab.modify_home
    (f := fun st => { st with sendWin := st.sendWin + 1, sendBlocked := false }) fun _ => rfl
  have hf₃ := find_home htab₃.wf htab₃.home
  have hg := Table.get_eq_some.2 htab.home
  rw [hst] at hf hf₃ hg
  obtain ⟨w', hp, hhear, htab'⟩ := hrest.credit (by decide) hf hg hwin hb
  obtain ⟨e₃, w₃, hr₃, h₃, hhear₃, htab₃'⟩ :=
    h₂.hears hrest.alive hrest.drained ⟨rfl, by decide⟩ hp hhear
  have hmux : e₃.hasMux (.edge 0) = true := by
    rw [hasMux, h₃.edge]
    rfl
  have hon : e₃.onEvent nullHmac (.worker 0) (.writable 1)
      = e₃.setRoute p ((newRoute 0 0 4 1).setPend [] .up) := by
    change e₃.onWritable (.worker 0) 1 = _
    unfold onWritable
    simp only [h₃.find]
    rw [if_neg (by rw [show (newRoute 0 0 4 1).tunnel _ = .edge 0 from rfl, hmux]; decide)]
    rfl
  rw [hon] at hr₃
  have h₄ := h₃.setRoute ((newRoute 0 0 4 1).setPend [] .up)
  exact ⟨_, r, _, _, _, (hrun.mono fun _ _ _ => trivial).trans ((hr₁.trans hr₂).trans hr₃),
    h₄.first,
    hpend, hsid, h₄.worker, hhear₃.alive, by rw [htab₃', htab', hf₃], by simp [hl], rfl,
      hhear₃.drained⟩

section Refused

variable {e : Router ne nw} {j : Fin nw} {s : Session} {b : Bytes}

theorem accepts_refused (hs : (e.conn (r.tunnel .up)).mux = some s)
    (hno : accepted (muxWrite s (r.sid .up) b).2 = 0) :
    e.hasMux (r.tunnel .up) = true ∧ e.accepts (r.tunnel .up) (r.sid .up) b = 0 := by
  unfold hasMux accepts
  rw [hs]
  exact ⟨rfl, hno⟩

theorem onStreamData_refused (hf : e.find (.worker j) sid = some (p, r)) (hp : r.w2u = [])
    (hs : (e.conn (r.tunnel .up)).mux = some s) (hno : accepted (muxWrite s (r.sid .up) b).2 = 0)
    (hb : b ≠ []) :
    e.onStreamData (.worker j) sid b
      = (e.call (r.tunnel .up) (.write (r.sid .up) b)).setRoute p (r.setPend b .down) := by
  obtain ⟨hmux, hacc⟩ := accepts_refused hs hno
  unfold onStreamData
  simp only [hf, Tunnel.side, Side.other, hmux, fwd, hacc, pend, hp]
  simp [hb, length_pos_iff]

theorem onStreamData_behind (hf : e.find (.worker j) sid = some (p, r)) (hp : r.w2u ≠ [])
    (hmux : e.hasMux (r.tunnel .up) = true) :
    e.onStreamData (.worker j) sid b = e.setRoute p (r.setPend (r.w2u ++ b) .down) := by
  unfold onStreamData
  simp only [hf, Tunnel.side, Side.other, hmux, fwd, pend]
  simp [hp]

/-- The FIN of the worker, where the edge does not take what is pending. -/
theorem onStreamClosed_refused (hf : e.find (.worker j) sid = some (p, r)) (hp : r.w2u = b)
    (hs : (e.conn (r.tunnel .up)).mux = some s) (hno : accepted (muxWrite s (r.sid .up) b).2 = 0)
    (hb : b.length = 1) (hfin : r.upFin = false) :
    e.onStreamClosed (.worker j) sid
      = ((e.call (r.tunnel .up) (.write (r.sid .up) b)).call (r.tunnel .up)
          (.close (r.sid .up))).setRoute p (r.setFin .down) := by
  obtain ⟨hmux, hacc⟩ := accepts_refused hs hno
  have hne : b ≠ [] := by
    rintro rfl
    cases hb
  unfold onStreamClosed
  simp only [hf, Tunnel.side, Side.other, hmux, flushPend, pend, hp, hb, flushLoop, hne, hacc,
    fin, hfin]
  simp [setPend, ← hp]

end Refused

/-- A route that holds two bytes of a worker to which a window of one byte was given: one of each of
the streams of its id. -/
theorem overfull_route :
    ∃ (e : Router 2 1) (p : ℕ) (r : Route 2 1) (w : Session),
      Reach (ofFun (Router.move nullHmac)) (fun _ _ => True) (start 2 1 { initWindow := 1 }) e
      ∧ e.heap p = some r ∧ r.w2u = [9, 9] ∧ (e.conn (r.tunnel .down)).mux = some w
      ∧ w.dead = false ∧ w.initWindow = 1 := by
  have hrun : Reach (ofFun (Router.move nullHmac)) (FewMove nullHmac)
      (start 2 1 { initWindow := 1 })
      (halfClosedRun.foldl (Router.move nullHmac) (start 2 1 { initWindow := 1 })) :=
    .foldl halfClosedRun (by decide +kernel)
  have hprimed : Primed (fun s₀ st _ => s₀.dead = false ∧ s₀.q.toList = []
      ∧ (processFrame s₀ (synFrame 4 [])).front = some (.opened 4 [])
      ∧ accepted (muxWrite ((processFrame s₀ (synFrame 4 [])).call .nextEvent) 4 [9]).2 = 0
      ∧ accepted (muxWrite (((processFrame s₀ (synFrame 4 [])).call .nextEvent).call
        (.write 4 [9])) 4 [9]).2 = 0 ∧ st.life = .hclLocal ∧ st.recvWin = 1)
      (halfClosedRun.foldl (Router.move nullHmac) (start 2 1 { initWindow := 1 })) := by
    decide +kernel
  generalize halfClosedRun.foldl (Router.move nullHmac) (start 2 1 { initWindow := 1 }) = e at *
  obtain ⟨s₀, st, r, hlap, hst, hd, hq, hev, hno, hno', hl, hwin⟩ :=
    hprimed.lap (reach_steady hrun).tables
  obtain ⟨e₁, hr₁, h₁⟩ := hlap.rounds hst (2 ^ 31 - 1) (by decide)
  obtain ⟨e₂, p, w, j, st', hr₂, h₂, hrest, htab, hst', hl', hwin'⟩ := h₁.second hd hq hev
  -- a byte on the earlier stream
  have hf := find_home htab.wf htab.home
  rw [hst] at hf
  obtain ⟨w₃, hp₃, hh₃, htab₃⟩ := hrest.hearing.data (by decide) hf (by simp [hl]) hwin 9
  obtain ⟨e₃, w₃', hr₃, h₃, hh₃', htab₃'⟩ :=
    h₂.hears hrest.alive hrest.drained ⟨rfl, by decide⟩ hp₃ hh₃
  change Runs e₂ (e₃.onStreamData (.worker 0) 1 [9]) at hr₃
  rw [onStreamData_refused h₃.find rfl h₃.edge hno (by decide)] at hr₃
  replace h₃ := (h₃.call (.write 4 [9])).setRoute ((newRoute 0 0 4 1).setPend [9] .down)
  obtain ⟨st₁, hst₁, hl₁, hdouble⟩ : ∃ st₁ : MuxStream, st₁.sid = 1 ∧ st₁.life = .hclLocal
      ∧ w₃'.tab.Double mixSid MuxStream.sid st₁ j st' := by
    refine ⟨{ st with recvWin := st.recvWin - (1 : ℕ), delivered := st.delivered + 1 }, hst, hl, ?_⟩
    rw [htab₃', htab₃, ← hst]
    exact htab.modify_home
      (f := fun st => { st with recvWin := st.recvWin - (1 : ℕ), delivered := st.delivered + 1 })
      fun _ => rfl
  -- its FIN
  have hf₄ := find_home hdouble.wf hdouble.home
  have hg₄ := Table.get_eq_some.2 hdouble.home
  rw [hst₁] at hf₄ hg₄
  obtain ⟨w₄, hp₄, hh₄, htab₄⟩ := hh₃'.fin (by decide) hf₄ hl₁ hg₄
  obtain ⟨e₄, w₄', hr₄, h₄, hh₄', htab₄'⟩ :=
    h₃.hears hh₃'.alive hh₃'.drained ⟨rfl, by decide⟩ hp₄ hh₄
  change Runs _ (e₄.onStreamClosed (.worker 0) 1) at hr₄
  rw [onStreamClosed_refused h₄.find rfl h₄.edge hno' rfl rfl] at hr₄
  replace h₄ := ((h₄.call (.write 4 [9])).call (.close 4)).setRoute
    (((newRoute 0 0 4 1).setPend [9] .down).setFin .down)
  -- and a byte on the later stream
  have hf₅ : stFind w₄'.tab 1 = some (j, st') := by
    have hfind := hdouble.find_remove_home (hst'.trans hst₁.symm)
    rw [hst₁, ← htab₄, ← htab₄'] at hfind
    have hj : w₄'.tab.get j = some st' := by
      rw [htab₄', htab₄, ← hst₁, Table.remove_eq hdouble.home]
      exact Table.get_eq_some.2 ((Function.update_of_ne hdouble.other_ne ..).trans hdouble.other)
    rw [stFind, hfind, Option.bind_some, hj, Option.map_some]
  obtain ⟨w₅, hp₅, hh₅, -⟩ := hh₄'.data (by decide) hf₅ (by simp [hl']) hwin' 9
  obtain ⟨e₅, w₅', hr₅, h₅, hh₅', -⟩ := h₄.hears hh₄'.alive hh₄'.drained ⟨rfl, by decide⟩ hp₅ hh₅
  change Runs _ (e₅.onStreamData (.worker 0) 1 [9]) at hr₅
  have hmux : e₅.hasMux (.edge 0) = true := by
    rw [hasMux, h₅.edge]
    rfl
  rw [onStreamData_behind h₅.find (by decide) hmux] at hr₅
  replace h₅ := h₅.setRoute
    ((((newRoute 0 0 4 1).setPend [9] .down).setFin .down).setPend [9, 9] .down)
  exact ⟨_, p, _, _, (hrun.mono fun _ _ _ => trivial).trans
    ((((hr₁.trans hr₂).trans hr₃).trans hr₄).trans hr₅), h₅.heap, rfl, h₅.worker, hh₅'.alive,
    hh₅'.window⟩

end Router

end MuxProtocol
