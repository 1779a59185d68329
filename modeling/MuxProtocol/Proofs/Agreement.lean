import MuxProtocol.Proofs.Link

/-!
# What two sessions agree on

With nothing under way the two ends have the same streams. At any time the windows of a live stream
are the same on both sides, up to the bytes and the credit under way, and a receiver whose host has
consumed everything withholds less than half the window. The connection window is the same on both
sides as long as no payload is dropped.
-/

namespace MuxProtocol

open LinearProbe Machine Party Session Core Event

variable {cfg cfg' : MuxConfig} {a b : Session} {l : Party × Party} {p q : Party} {sid : UInt32}

/-! ### What is under way -/

section UnderWay

theorem Wire.inFlight_eq (h : Wire p q) (hd : q.session.dead = false) :
    p.session.sent = q.session.got ++ inFlight p q ∧ p.underWay q = encodeAll (inFlight p q) := by
  obtain ⟨fs, h1, h2⟩ := h.bytes hd
  have hs : ∀ f ∈ fs, f.Sized := fun f hf => h.sized f (by rw [h1]; simp [hf])
  have hfs : inFlight p q = fs := by
    rw [inFlight, h2]
    exact framesIn_encodeAll hs (Nat.le_refl _)
  rw [hfs]
  exact ⟨h1, h2⟩

theorem Wire.got_eq_sent (h : Wire p q) (hd : q.session.dead = false) (hq : p.underWay q = []) :
    q.session.got = p.session.sent := by
  obtain ⟨h1, -⟩ := h.inFlight_eq hd
  rw [h1, inFlight, hq]
  exact (List.append_nil _).symm

end UnderWay

/-! ### The streams -/

section Streams

theorem map_stFind {α : Type*} (t : Table MuxStream) (g : StreamEnd → α) :
    (stFind t sid).map (fun r => g r.2.streamEnd) = (endOf t sid).map g := by
  rw [endOf, Option.map_map]
  rcases hf : stFind t sid with _ | ⟨i, st⟩
  · rcases hl : t.lookup mixSid MuxStream.sid sid with _ | st
    · rfl
    · obtain ⟨i, hi⟩ := stFind_of_lookup hl
      simp [hi] at hf
  · rw [lookup_of_stFind hf]
    rfl

theorem stFind_control {c : Core} (hp : AllPlain c) : stFind c.tab muxSidControl = none :=
  (stFind_none hp.wf).2 fun st hm => by
    obtain ⟨i, hi⟩ := Table.get_of_mem hm
    exact hp.sids i st hi

/-- With nothing under way, the two sides have the same streams, and one side's half-close is the
other's. -/
theorem stream_sets_agree (ha : muxSessionNew cfg .dialer = some a)
    (hb : muxSessionNew cfg' .acceptor = some b)
    (h : Reach (ofFun link) (fun _ _ => True) (connect a b) l)
    (hf : Few l.1.session.toCore) (hf' : Few l.2.session.toCore)
    (hd : l.1.session.dead = false) (hd' : l.2.session.dead = false)
    (hq : l.1.underWay l.2 = []) (hq' : l.2.underWay l.1 = []) (sid : UInt32) :
    (stFind l.1.session.tab sid).map (fun r => r.2.life)
      = (stFind l.2.session.tab sid).map (fun r => r.2.life.mirror) := by
  obtain ⟨h1, h2⟩ := link_peers (by decide) ha hb h hf hf'
  obtain ⟨w1, w2⟩ := link_wire h ⟨wire_connect ha hb, wire_connect hb ha⟩
  by_cases h0 : sid = muxSidControl
  · rw [h0, stFind_control h1.sound.plain, stFind_control h2.sound.plain]
    rfl
  · have := h1.agree h2 hd hd' (w2.got_eq_sent hd hq') (w1.got_eq_sent hd' hq) h0
    rw [← map_stFind, ← map_stFind] at this
    exact this

/-- After the dialer's FIN has arrived. -/
theorem stream_sets_agree_closedLink :
    ∃ l, l = closedLink.foldl link (connect newDialer newAcceptor)
      ∧ (stFind l.1.session.tab 1).map (fun r => r.2.life) = some .hclLocal
      ∧ (stFind l.2.session.tab 1).map (fun r => r.2.life.mirror) = some .hclLocal := by
  have hrun : Reach (ofFun link) (fun _ _ => True) (connect newDialer newAcceptor)
      (closedLink.foldl link (connect newDialer newAcceptor)) :=
    .foldl closedLink (by simp [closedLink, greetLink, Allowed])
  have hfacts : let l := closedLink.foldl link (connect newDialer newAcceptor)
      (synIds l.1.session.sent).length < 2 ^ 31 ∧ (synIds l.2.session.sent).length < 2 ^ 31
        ∧ l.1.session.dead = false ∧ l.2.session.dead = false ∧ l.1.underWay l.2 = []
        ∧ l.2.underWay l.1 = []
        ∧ (stFind l.1.session.tab 1).map (fun r => r.2.life) = some .hclLocal := by
    decide +kernel
  generalize closedLink.foldl link (connect newDialer newAcceptor) = l at hrun hfacts ⊢
  obtain ⟨hf, hf', hd, hd', hq, hq', hlife⟩ := hfacts
  have := stream_sets_agree muxSessionNew_newDialer muxSessionNew_newAcceptor hrun hf hf' hd hd' hq
    hq' 1
  exact ⟨l, rfl, hlife, this ▸ hlife⟩

end Streams

/-! ### Credit is not withheld -/

section Thrift

variable {s : Session} {c c' : Core} {act : Act}

/-- Less than half the window of a stream is consumed and not credited. -/
def Thrifty (c : Core) : Prop := Every c.tab fun st => 2 * st.recvPending < c.initWindow.toNat

/-- A credit is sent as soon as half the window is consumed, so every step keeps to less. -/
theorem Step.thrifty (h : Step c act c') (ha : ∀ i n, act ≠ .useOn i n) (hw : TabWf c.tab)
    (hpos : 0 < c.initWindow.toNat) (hi : Thrifty c) : Thrifty c' := by
  have hwin : c'.initWindow = c.initWindow := congrArg (fun c => c.2.1) h.config_eq
  have hfresh : ∀ sid, 2 * (freshStream c sid).recvPending < c.initWindow.toNat := fun sid => by
    simpa [freshStream] using hpos
  unfold Thrifty at hi ⊢
  rw [hwin]
  clear hwin
  cases h with
  | opened _ h | accepted _ _ _ _ _ h => simpa using hi.insert hw h (hfresh _)
  | openFailed _ h | acceptedRst _ _ _ _ h => simpa using (hi.insert hw h (hfresh _)).remove
  | acceptedFin _ _ _ _ _ h =>
    simp only [push_tab, edit_tab, seeSid_tab, setTab_tab]
    exact (hi.insert hw h (hfresh _)).modify fun _ h => h
  | block | short | wrote | closedHalf | wake | creditedOn | creditedOnOver | data =>
    simp only [block_tab, edit_tab, put_tab, debit_tab, push_tab,
      unblock_tab, die_tab, hear_tab, deliver_tab]
    exact hi.modify fun _ h => h
  | woken | fin =>
    simp only [push_tab, unblock_tab, edit_tab, hear_tab, deliver_tab, Table.modify_modify]
    exact hi.modify fun _ h => h
  | useOn => exact absurd rfl (ha _ _)
  | @creditOn i st k hg hk hle =>
    simp only [put_tab, edit_tab]
    refine hi.modify fun st h => ?_
    dsimp only
    omega
  | finLast =>
    simp only [push_tab, drop_tab, deliver_tab, hear_tab]
    refine (hi.modify ?_).remove
    exact fun _ h => h
  | closedFull | reset | resetBy | aborted => simpa using hi.remove
  | _ => simpa using hi

theorem Steps.thrifty {ok : Core → Act → Prop} (h : Reach Step ok c c')
    (hok : ∀ c i n, ¬ ok c (.useOn i n)) (hw : TabWf c.tab) (hpos : 0 < c.initWindow.toNat)
    (hi : Thrifty c) : Thrifty c' := by
  refine (h.inv (I := fun c => TabWf c.tab ∧ 0 < c.initWindow.toNat ∧ Thrifty c) ⟨hw, hpos, hi⟩
    fun c a c' hc ha hs => ?_).2.2
  have hwin : c'.initWindow = c.initWindow := congrArg (fun c => c.2.1) hs.config_eq
  exact ⟨hs.tabWf hc.1, hwin ▸ hc.2.1,
    hs.thrifty (fun i n h => hok c i n (h ▸ ha)) hc.1 hc.2.1 hc.2.2⟩

theorem sub_chunk_le {pending : ℤ} {n : ℕ} (hpos : 0 < pending)
    (hn : pending ≤ (n + 1 : ℕ) * 0xFFFFFFFF) :
    pending - (if pending > 0xFFFFFFFF then (0xFFFFFFFF : UInt32)
      else .ofNat pending.toNat).toNat ≤ n * 0xFFFFFFFF := by
  split
  · have : (0xFFFFFFFF : UInt32).toNat = 4294967295 := rfl
    push_cast at hn
    omega
  · rw [UInt32.toNat_ofNat']
    omega

/-- Enough rounds of `credit_emit` leave nothing pending, unless the session dies of one. -/
theorem creditEmit_pending (sid) {n : ℕ} {win pending : ℤ} (hn : pending ≤ n * 0xFFFFFFFF)
    (hd : (creditEmit n s sid win pending).1.dead = false) :
    (creditEmit n s sid win pending).2.2 ≤ 0 := by
  induction n generalizing s win pending with
  | zero => simpa [creditEmit] using hn
  | succ n ih =>
    unfold creditEmit at hd ⊢
    by_cases hpos : 0 < pending
    · rw [if_pos hpos] at hd ⊢
      dsimp only at hd ⊢
      have hk := sub_chunk_le hpos hn
      generalize (if pending > 0xFFFFFFFF then (0xFFFFFFFF : UInt32)
        else .ofNat pending.toNat) = k at hk hd ⊢
      rcases he : emit s muxTWindowUpdate 0 sid (bePut32 k) with ⟨s₁, e | ⟨⟩⟩
      · rw [he] at hd
        have hcore := emit_error (le_maxPayload_rst k) he
        dsimp only at hd
        rw [hcore] at hd
        cases hd
      · rw [he] at hd
        exact ih hk hd
    · rw [if_neg hpos]
      exact Int.not_lt.1 hpos

theorem creditEmit_keeps (sid) {n : ℕ} {win pending : ℤ} :
    (creditEmit n s sid win pending).1.tab = s.tab
      ∧ (creditEmit n s sid win pending).1.initWindow = s.initWindow := by
  induction n generalizing s win pending with
  | zero => exact ⟨rfl, rfl⟩
  | succ n ih =>
    unfold creditEmit
    split
    · dsimp only
      generalize (if pending > 0xFFFFFFFF then (0xFFFFFFFF : UInt32)
        else .ofNat pending.toNat) = k
      rcases he : emit s muxTWindowUpdate 0 sid (bePut32 k) with ⟨s₁, e | ⟨⟩⟩
      · dsimp only
        rw [emit_error (le_maxPayload_rst k) he]
        exact ⟨rfl, rfl⟩
      · obtain ⟨h1, h2⟩ := @ih s₁ (win + k.toNat) (pending - k.toNat)
        rw [emit_ok (le_maxPayload_rst k) he] at h1 h2
        exact ⟨h1, h2⟩
    · exact ⟨rfl, rfl⟩

theorem le_creditRounds (pending : ℤ) : pending ≤ creditRounds pending * 0xFFFFFFFF := by
  unfold creditRounds
  push_cast
  omega

/-- `credit_stream` leaves less than half the window pending on its stream. -/
theorem creditStream_thrifty (i : ℕ) (hpos : 0 < s.initWindow.toNat)
    (hi : ∀ j st, j ≠ i → s.tab.get j = some st → 2 * st.recvPending < s.initWindow.toNat)
    (hd : (creditStream s i).dead = false) : Thrifty (creditStream s i).toCore := by
  unfold creditStream at hd ⊢
  rcases hg : s.tab.get i with _ | st
  · intro j st hj
    refine hi j st (fun h => ?_) hj
    rw [h, hg] at hj
    cases hj
  rw [hg] at hd
  dsimp only at hd ⊢
  have hthis : 2 * st.recvPending < s.initWindow.toNat → Thrifty s.toCore := fun h j st' hj => by
    by_cases hji : j = i
    · rw [hji, hg] at hj
      cases hj
      exact h
    · exact hi j st' hji hj
  split_ifs at hd ⊢ with h1 h2
  · exact hthis (by omega)
  · exact hthis (by omega)
  · obtain ⟨htab, hwin⟩ := @creditEmit_keeps s st.sid (creditRounds st.recvPending) st.recvWin
      st.recvPending
    have hpend := creditEmit_pending st.sid (le_creditRounds st.recvPending) hd
    generalize creditEmit (creditRounds st.recvPending) s st.sid st.recvWin st.recvPending = r
      at htab hwin hpend
    obtain ⟨s', win, pending⟩ := r
    intro j st' hj
    dsimp only at htab hwin hpend hj ⊢
    rw [hwin]
    rw [htab] at hj
    by_cases hji : j = i
    · rw [hji, Table.get_modify_self hg] at hj
      cases hj
      dsimp only
      omega
    · rw [Table.get_modify_of_ne hji] at hj
      exact hi j st' hji hj

/-- Between the calls of a live session, less than half the window of a stream is withheld. -/
theorem Session.call_thrifty {a} (hw : s.toCore.Wf) (hpos : 0 < s.initWindow.toNat)
    (hi : s.dead = false → Thrifty s.toCore) (hd : (s.call a).dead = false) :
    Thrifty (s.call a).toCore := by
  have hi := hi (call_alive hw hd)
  by_cases hc : ∃ sid n, a = .consume sid n
  · obtain ⟨sid, n, rfl⟩ := hc
    rw [call] at hd ⊢
    unfold muxConsume at hd ⊢
    split_ifs at hd ⊢
    · exact hi
    · exact hi
    set s₁ : Session :=
      { s with sessRecvPending := s.sessRecvPending + toInt64 n, consumed := s.consumed + n }
    obtain ⟨h1, htab⟩ : HandlesBy (fun _ b => ∀ i n, b ≠ .useOn i n) s₁ (creditSession s₁)
        ∧ (creditSession s₁).tab = s₁.tab := creditSession_handles (by simp) s₁ (by simp)
    have hwin : (creditSession s₁).initWindow = s.initWindow :=
      congrArg (fun c => c.2.1) (Steps.config_eq h1.1)
    dsimp only at hd ⊢
    rcases hf : stFind (creditSession s₁).tab sid with _ | ⟨i, st⟩
    · exact Steps.thrifty h1.1 (fun _ i n h => h i n rfl) hw.tab hpos hi
    · rw [hf] at hd
      refine creditStream_thrifty i (hwin ▸ hpos) (fun j st hj hg => ?_) hd
      dsimp only at hg ⊢
      rw [Table.get_modify_of_ne hj, htab] at hg
      rw [hwin]
      exact hi j st hg
  · have hp : Permits (fun _ b => ∀ i n, b ≠ .useOn i n) s a :=
      ⟨by simp, fun _ _ => eachFrame_of_forall (by simp [Hears]) (by simp) _ _ _, by simp, by simp,
        by simp, fun sid n h => absurd ⟨sid, n, h⟩ hc, by simp, by simp, by simp⟩
    exact Steps.thrifty (call_steps hw hp) (fun _ i n h => h i n rfl) hw.tab hpos hi

theorem initWindow_call {s : Session} (hw : s.toCore.Wf) (a) :
    (s.call a).initWindow = s.initWindow :=
  congrArg (fun c => c.2.1) (Steps.config_eq (call_steps hw (permits_any s a)))

theorem thrifty_new {cfg r} (h : muxSessionNew cfg r = some s) :
    0 < s.initWindow.toNat ∧ Thrifty s.toCore := by
  obtain ⟨hc, -⟩ := muxSessionNew_spec h
  obtain ⟨-, hnone⟩ := startCore_tab cfg r
  rw [hc]
  refine ⟨?_, fun i st hg => by simp [hnone i] at hg⟩
  cases r <;> exact nz_pos (d := muxDefaultInitWindow) (by decide) _

theorem link_thrifty {ok : Party × Party → Bool × Party.Move → Prop}
    (ha : muxSessionNew cfg .dialer = some a) (hb : muxSessionNew cfg' .acceptor = some b)
    (h : Reach (ofFun link) ok (connect a b) l) :
    (l.1.session.dead = false → Thrifty l.1.session.toCore)
      ∧ (l.2.session.dead = false → Thrifty l.2.session.toCore) := by
  have hI := link_sessions (h.mono fun l m _ => both_any l m)
    (I := fun s => 0 < s.initWindow.toNat ∧ (s.dead = false → Thrifty s.toCore))
    ⟨wire_connect ha hb, wire_connect hb ha⟩
    ⟨(thrifty_new ha).imp_right fun h _ => h, (thrifty_new hb).imp_right fun h _ => h⟩
    fun s a hw _ hs => ⟨(initWindow_call hw a).symm ▸ hs.1,
      fun hd => call_thrifty hw hs.1 hs.2 hd⟩
  exact ⟨hI.1.2, hI.2.2⟩

end Thrift

/-! ### The windows of a stream -/

section Windows

/-- In the direction from `p` to `q`, of a stream live at `p`. Live at `q` too, what `p` may send,
the bytes and the credit under way add up to what `q` expects; with nothing under way and everything
consumed, that is more than half the window. Not heard of at `q`, they add up to the whole window.
-/
structure WindowsAgree (p q : Party) (sid : UInt32) (st : MuxStream) : Prop where
  live : ∀ r ∈ stFind q.session.tab sid,
    st.sendWin + (bytesOf (msgs sid (inFlight p q))).length + grantOf (msgs sid (inFlight q p))
      = r.2.recvWin
  opening : sid ∈ synIds (inFlight p q) →
    st.sendWin + (bytesOf (msgs sid (inFlight p q))).length + grantOf (msgs sid (inFlight q p))
      = q.session.initWindow.toNat
  quiet : ∀ r ∈ stFind q.session.tab sid, p.underWay q = [] → q.underWay p = [] →
    r.2.consumed = r.2.delivered → q.session.initWindow.toNat < 2 * st.sendWin

theorem windowsAgree (wp : Wire p q) (wq : Wire q p) (hp : Peers p.session.toCore q.session.toCore)
    (hq : Peers q.session.toCore p.session.toCore) (hd : p.session.dead = false)
    (hd' : q.session.dead = false) (hb : Bounded q.session.toCore) (ht : Thrifty q.session.toCore)
    {i : ℕ} {st} (hf : stFind p.session.tab sid = some (i, st)) : WindowsAgree p q sid st := by
  obtain ⟨h1, -⟩ := wp.inFlight_eq hd'
  obtain ⟨h2, -⟩ := wq.inFlight_eq hd
  have h0 : sid ≠ muxSidControl := fun h => by
    rw [h, stFind_control hp.sound.plain] at hf
    cases hf
  have hend : ∀ {t : Table MuxStream} {r : ℕ × MuxStream}, stFind t sid = some r →
      endOf t sid = some r.2.streamEnd := fun hf => by
    rw [endOf, lookup_of_stFind hf]
    rfl
  obtain ⟨hlive, hopen⟩ := hp.windows_agree hq hd hd' h0 h1 h2 (hend hf)
  refine ⟨fun r hr => hlive _ (hend hr), fun hsyn => hopen (fun hgot => ?_) ?_,
    fun r hr hpq hqp hc => ?_⟩
  · have hs := hp.sound.ids.sorted
    rw [h1, synIds_append, List.pairwise_append] at hs
    exact UInt32.lt_irrefl _ (hs.2.2 _ hgot _ hsyn)
  · refine (hp.sound.ids.own sid ?_).1
    rw [h1, synIds_append]
    exact List.mem_append_right _ hsyn
  · have hwin := hlive _ (hend hr)
    rw [inFlight, hpq, inFlight, hqp] at hwin
    obtain ⟨hg, -⟩ := stFind_some hq.conn.wf.tab hr
    have hsum := (hb.stream _ _ hg).sum
    have hpend := ht _ _ hg
    have hsend : st.sendWin = r.2.recvWin := by simpa [framesIn, MuxStream.streamEnd] using hwin
    omega

/-- In both directions and in every state of two honest sessions. -/
theorem stream_windows_agree (ha : muxSessionNew cfg .dialer = some a)
    (hb : muxSessionNew cfg' .acceptor = some b)
    (h : Reach (ofFun link) (Both ConsumesDelivered) (connect a b) l)
    (hf : Few l.1.session.toCore) (hf' : Few l.2.session.toCore)
    (hd : l.1.session.dead = false) (hd' : l.2.session.dead = false) (sid : UInt32) :
    (∀ r ∈ stFind l.1.session.tab sid, WindowsAgree l.1 l.2 sid r.2)
      ∧ ∀ r ∈ stFind l.2.session.tab sid, WindowsAgree l.2 l.1 sid r.2 := by
  have hw : _ ∧ _ := ⟨wire_connect ha hb, wire_connect hb ha⟩
  obtain ⟨h1, h2⟩ := link_peers (by decide) ha hb h hf hf'
  obtain ⟨w1, w2⟩ := link_wire h hw
  obtain ⟨t1, t2⟩ := link_thrifty ha hb h
  have hnew : ∀ {cfg r s}, muxSessionNew cfg r = some s → Bounded s.toCore := fun hs =>
    (muxSessionNew_spec hs).1 ▸ bounded_start _ _
  obtain ⟨b1, b2⟩ := link_sessions h hw (I := fun s => Bounded s.toCore) ⟨hnew ha, hnew hb⟩
    fun s a hw ha hi => (Session.call_steps hw (ha.permits hw)).inv hi
      fun _ _ _ hi ha hs => hs.bounded ha hi
  exact ⟨fun r hr => windowsAgree w1 w2 h1 h2 hd hd' b2 (t2 hd') hr,
    fun r hr => windowsAgree w2 w1 h2 h1 hd' hd b1 (t1 hd) hr⟩

/-- Two bytes, delivered and consumed. -/
def consumedLink : List (Bool × Party.Move) :=
  greetLink ++ [(false, .call (.open []) trivial), (false, .call (.write 1 [7, 8]) trivial),
    (false, .transmit 200), (true, .receive 200), (true, .call (.consume 1 2) trivial)]

theorem stream_windows_agree_consumedLink :
    ∃ l, l = consumedLink.foldl link (connect newDialer newAcceptor)
      ∧ ∃ r ∈ stFind l.1.session.tab 1, ∃ r' ∈ stFind l.2.session.tab 1,
        r'.2.consumed = 2 ∧ r.2.sendWin = r'.2.recvWin
          ∧ l.2.session.initWindow.toNat < 2 * r.2.sendWin := by
  have hrun : Reach (ofFun link) (Both ConsumesDelivered) (connect newDialer newAcceptor)
      (consumedLink.foldl link (connect newDialer newAcceptor)) :=
    .foldl consumedLink (by decide +kernel)
  have hfacts : let l := consumedLink.foldl link (connect newDialer newAcceptor)
      (synIds l.1.session.sent).length < 2 ^ 31 ∧ (synIds l.2.session.sent).length < 2 ^ 31
        ∧ l.1.session.dead = false ∧ l.2.session.dead = false ∧ l.1.underWay l.2 = []
        ∧ l.2.underWay l.1 = [] ∧ ((stFind l.1.session.tab 1).isSome = true)
        ∧ (stFind l.2.session.tab 1).map (fun r => (r.2.consumed, r.2.delivered))
          = some (2, 2) := by
    decide +kernel
  generalize consumedLink.foldl link (connect newDialer newAcceptor) = l at hrun hfacts ⊢
  obtain ⟨hf, hf', hd, hd', hq, hq', h1, h2⟩ := hfacts
  obtain ⟨r, hr⟩ := Option.isSome_iff_exists.1 h1
  obtain ⟨r', hr', hc⟩ := Option.map_eq_some_iff.1 h2
  rw [Prod.mk.injEq] at hc
  have hw := (stream_windows_agree muxSessionNew_newDialer muxSessionNew_newAcceptor hrun hf hf' hd
    hd' 1).1 r hr
  refine ⟨l, rfl, r, hr, r', hr', hc.1, ?_, hw.quiet r' hr' hq hq' (hc.1.trans hc.2.symm)⟩
  have := hw.live r' hr'
  rw [inFlight, hq, inFlight, hq'] at this
  simpa [framesIn] using this

end Windows

/-! ### The connection window -/

section Connection

variable {c c' x y : Core} {act : Act} {f : Frame}

instance Fits.decidable (c : Core) (f : Frame) (st : MuxStream) : Decidable (Fits c f st) :=
  decidable_of_iff ((f.payload ≠ [] → st.life ≠ .hclRemote)
    ∧ (f.payload ≠ [] → (f.payload.length : ℤ) ≤ c.sessRecvWin)
    ∧ (f.payload ≠ [] → (f.payload.length : ℤ) ≤ st.recvWin))
    ⟨fun h => ⟨h.1, h.2.1, h.2.2⟩, fun h => ⟨h.1, h.2, h.3⟩⟩

/-- A payload that is not delivered: its stream is not in the table, or does not take it. -/
def Discards (c : Core) (f : Frame) : Prop :=
  f.cost ≠ 0 ∧ ∀ r ∈ stFind c.tab f.sid, ¬ Fits c f r.2

instance Discards.decidable (c : Core) (f : Frame) : Decidable (Discards c f) :=
  inferInstanceAs (Decidable (_ ∧ _))

theorem Aborts.not_fits {st code} (h : Aborts c f st code) (hp : f.payload ≠ []) :
    ¬ Fits c f st := by
  intro hfit
  cases h with
  | life h => exact hfit.life hp h
  | overrun _ _ h => exact absurd (hfit.strm hp) (Int.not_le.2 h)

/-- What is delivered is what was heard, as long as nothing is dropped. -/
theorem Step.heard_eq (h : Step c act c') (ha : ∀ f, act = .hear f → ¬ Discards c f)
    (hd : c'.dead = false) (hi : costOf c.got = deliveredBytes c.queued) :
    costOf c'.got = deliveredBytes c'.queued := by
  have hsyn : ∀ {f}, SynOk c f → f.cost = 0 := fun h => by simp [Frame.cost, h.syn]
  have hcredit : ∀ {f}, CreditOn c f → f.cost = 0 := fun h =>
    cost_of_type (by rw [h.type]; decide)
  cases h with
  | @data f _ _ _ hon _ hr | @fin f _ _ _ hon _ hr | @finLast f _ _ _ hon _ hr =>
    simp [deliveredBytes_deliver, size, -deliveredBytes_ite, cost_of_data hon hr, hi]
  | @stray f _ hon hno =>
    have hz : f.cost = 0 := by
      by_contra hz
      exact ha f rfl ⟨hz, by simp [hno]⟩
    simp [hz, hi]
  | @aborted f i st code ok _ hon hf hr hp hab =>
    refine absurd ⟨?_, ?_⟩ (ha f rfl)
    · rw [cost_of_data hon hr]
      exact fun hz => hp (List.length_eq_zero_iff.1 hz)
    · rw [hf]
      rintro r ⟨⟩
      exact hab.not_fits hp
  | @resetBy f i st code _ hon hf hr => simp [Frame.cost, hr, size, hi]
  | refused ok _ hok => cases ok <;> simp [hsyn hok, hi] at hd ⊢
  | accepted _ hok | acceptedFin _ hok | acceptedRst _ hok => simp [hsyn hok, size, hi]
  | credited _ hon | strayCredit _ hon | creditedOn _ hon | woken _ hon =>
    simp [hcredit hon, size, hi]
  | pong _ _ ht => simp [cost_of_type (f := _) (by rw [ht]; decide), hi]
  | ping ok _ _ ht =>
    cases ok <;> simp [cost_of_type (f := _) (by rw [ht]; decide), hi] at hd ⊢
  | @notice f e _ _ he =>
    have hz : e.size = 0 := by rcases he with ⟨rfl, -⟩ | ⟨rfl, -⟩ <;> rfl
    have hc : f.cost = 0 := by
      rcases he with ⟨-, ht⟩ | ⟨-, ht⟩ <;> exact cost_of_type (by rw [ht]; decide)
    simp [hz, hc, hi]
  | @hello f _ _ _ _ _ _ ht =>
    have hc : f.cost = 0 := by rcases ht with ht | ht <;> exact cost_of_type (by rw [ht]; decide)
    simp [size, hc, hi]
  | @helloReply f _ _ _ _ ok _ _ ht =>
    have hc : f.cost = 0 := cost_of_type (by rw [ht]; decide)
    cases ok <;> simp [size, hc, hi] at hd ⊢
  | helloBad _ _ hl =>
    simp at hd
  | openFailed | spill | expire | garbled | offend | creditedOver | creditedOnOver => simp at hd
  | reset ok => cases ok <;> simp [hi] at hd ⊢
  | _ => simpa [size] using hi

/-- A call in which no payload is dropped. -/
def Delivers (s : Session) : Call → Prop
  | .recv buf => EachFrame (fun s f => ¬ Discards s.toCore f) True buf.length s buf
  | _ => True

instance Delivers.decidable (s : Session) : ∀ a, Decidable (Delivers s a)
  | .recv buf => EachFrame.decidable _ _ buf.length s buf
  | .open _ | .write _ _ | .close _ | .reset _ _ | .consume _ _ | .sendCapacity _ | .goaway _
  | .onTimer _ | .sendAdvance _ | .nextEvent => inferInstanceAs (Decidable True)

theorem Delivers.permits {s a} (h : Delivers s a) :
    Permits (fun c a => ∀ f, a = .hear f → ¬ Discards c f) s a := by
  refine permits_unless (fun c f hdis ht => hdis.1 (cost_of_type (by rw [ht]; decide))) ?_
  rintro buf rfl
  exact h

/-- The connection window from `p` to `q`, with what is under way. -/
def WindowKept (p q : Party) : Prop :=
  p.session.sessSendWin + costOf (inFlight p q) + grantsOf (inFlight q p) = q.session.sessRecvWin

instance WindowKept.decidable (p q : Party) : Decidable (WindowKept p q) :=
  inferInstanceAs (Decidable (_ = _))

theorem windowKept (h : Wire p q) (h' : Wire q p) (hc : Conn p.session.toCore q.session.toCore)
    (hc' : Conn q.session.toCore p.session.toCore) (hd : p.session.dead = false)
    (hd' : q.session.dead = false) (hs : p.session.peerHelloSeen = true)
    (he : costOf q.session.got = deliveredBytes q.session.queued) : WindowKept p q := by
  have hsend := hc.send hs
  have hrecv := hc'.recv
  rw [(h.inFlight_eq hd').1, costOf_append] at hsend
  rw [(h'.inFlight_eq hd).1, grantsOf_append] at hrecv
  unfold WindowKept
  omega

/-- The connection window is conserved, as long as no payload is dropped. -/
theorem connection_window_kept {r r' : MuxRole} (ha : muxSessionNew cfg r = some a)
    (hb : muxSessionNew cfg' r' = some b)
    (h : Reach (ofFun link) (Both Delivers) (connect a b) l)
    (hd : l.1.session.dead = false) (hd' : l.2.session.dead = false)
    (hs : l.1.session.peerHelloSeen = true) (hs' : l.2.session.peerHelloSeen = true) :
    WindowKept l.1 l.2 ∧ WindowKept l.2 l.1 := by
  obtain ⟨hca, hwa, -⟩ := muxSessionNew_spec ha
  obtain ⟨hcb, hwb, -⟩ := muxSessionNew_spec hb
  have h₀ := And.intro (wire_connect ha hb) (wire_connect hb ha)
  have hsteps := link_steps h h₀ fun _ _ _ _ h => Delivers.permits h
  have hinv := hsteps.inv_pair
    (J := fun x y => Conn x y ∧ (x.dead = false → costOf x.got = deliveredBytes x.queued)) ?_ ?_
  · obtain ⟨⟨hc, he⟩, hc', he'⟩ := hinv
    obtain ⟨hw, hw'⟩ := link_wire h h₀
    exact ⟨windowKept hw hw' hc hc' hd hd' hs (he' hd'),
      windowKept hw' hw hc' hc hd' hd hs' (he hd)⟩
  · have he : ∀ (cfg : MuxConfig) (r : MuxRole),
        costOf (startCore cfg r).got = deliveredBytes (startCore cfg r).queued := fun cfg r => by
      simp [startCore_got, startCore_queued]
    change (Conn a.toCore b.toCore ∧ (_ → costOf a.toCore.got = deliveredBytes a.toCore.queued))
      ∧ Conn b.toCore a.toCore ∧ (_ → costOf b.toCore.got = deliveredBytes b.toCore.queued)
    rw [hca] at hwa ⊢
    rw [hcb] at hwb ⊢
    exact ⟨⟨conn_start hwa _ _, fun _ => he _ _⟩, conn_start hwb _ _, fun _ => he _ _⟩
  · rintro x y act x' ⟨hc, he⟩ ⟨hc', he'⟩ ⟨hp, ha⟩ hx
    exact ⟨⟨hx.conn hp hc hc', fun hd => hx.heard_eq ha hd (he (hx.alive hd))⟩, hc'.peer hx, he'⟩

/-- The acceptor resets the stream before the bytes written on it arrive. -/
def resetLink : List (Bool × Party.Move) :=
  greetLink ++ [(false, .call (.open []) trivial), (false, .transmit 200), (true, .receive 200),
    (false, .call (.write 1 [7, 8]) trivial), (true, .call (.reset 1 0) trivial),
    (false, .transmit 200), (true, .receive 200), (true, .transmit 200), (false, .receive 200)]

/-- With nothing under way the sender's window is two bytes short, and stays so. -/
theorem connection_window_lost : ∃ l, l = resetLink.foldl link (connect newDialer newAcceptor)
    ∧ muxSessionNew { maxStreams := 1 } .dialer = some newDialer
    ∧ muxSessionNew { maxStreams := 1 } .acceptor = some newAcceptor
    ∧ l.1.session.dead = false ∧ l.2.session.dead = false
    ∧ l.1.session.peerHelloSeen = true ∧ l.2.session.peerHelloSeen = true
    ∧ l.1.underWay l.2 = [] ∧ l.2.underWay l.1 = [] ∧ ¬ WindowKept l.1 l.2
    ∧ l.1.session.sessSendWin + 2 = l.2.session.sessRecvWin :=
  ⟨_, rfl, muxSessionNew_newDialer, muxSessionNew_newAcceptor, by decide +kernel⟩

theorem connection_window_kept_consumedLink :
    ∃ l, l = consumedLink.foldl link (connect newDialer newAcceptor)
      ∧ deliveredBytes l.2.session.queued = 2 ∧ WindowKept l.1 l.2 ∧ WindowKept l.2 l.1 := by
  have hrun : Reach (ofFun link) (Both Delivers) (connect newDialer newAcceptor)
      (consumedLink.foldl link (connect newDialer newAcceptor)) :=
    .foldl consumedLink (by decide +kernel)
  have hfacts : let l := consumedLink.foldl link (connect newDialer newAcceptor)
      l.1.session.dead = false ∧ l.2.session.dead = false ∧ l.1.session.peerHelloSeen = true
        ∧ l.2.session.peerHelloSeen = true ∧ deliveredBytes l.2.session.queued = 2 := by
    decide +kernel
  generalize consumedLink.foldl link (connect newDialer newAcceptor) = l at hrun hfacts ⊢
  obtain ⟨hd, hd', hs, hs', h2⟩ := hfacts
  exact ⟨l, rfl, h2, connection_window_kept muxSessionNew_newDialer
    muxSessionNew_newAcceptor hrun hd hd' hs hs'⟩

end Connection

end MuxProtocol
