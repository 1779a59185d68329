import MuxProtocol.Proofs.Calls

/-!
# No lost wake-up

A stream is marked as blocked only while one of its two windows is closed, and the number of marks
is counted exactly, so the sweep over the table that reopens the connection window is never skipped
when it is owed. A stream on which a write was short is marked until its `WRITABLE` is queued.
-/

namespace MuxProtocol

open LinearProbe Machine Core

/-! ### Blocked streams -/

section Blocked

variable {c c' : Core} {a : Act}

/-- A marked stream has a closed window; `w` is the connection's. -/
def Stuck (w : ℤ) (st : MuxStream) : Prop := st.sendBlocked = true → st.sendWin ≤ 0 ∨ w ≤ 0

/-- Since the last short write the stream has been marked, or its `WRITABLE` is queued. -/
def Owed (q : List Event) (st : MuxStream) : Prop :=
  ∀ n, st.shortAt = some n → n ≤ q.length ∧ (st.sendBlocked = true ∨ .writable st.sid ∈ q.drop n)

structure Wakeful (c : Core) : Prop where
  wf : TabWf c.tab
  early : c.peerHelloSeen = false → Every c.tab fun _ => False
  count : c.blockedCount = c.tab.countIf MuxStream.sendBlocked
  stuck : c.dead = false → Every c.tab (Stuck c.sessSendWin)
  owed : c.dead = false → Every c.tab (Owed c.queued)

theorem Step.early (h : Step c a c') (hi : Wakeful c) (hs : c'.peerHelloSeen = false) :
    Every c'.tab fun _ => False := by
  have he := hi.early
  cases h with
  | opened h | openFailed h => simp [h.seen] at hs
  | accepted _ h | acceptedFin _ h | acceptedRst _ h => simp [h.seen] at hs
  | hello | helloReply => simp at hs
  | helloBad _ hs hl =>
    exact he hs
  | data _ h | fin _ h | finLast _ h | resetBy _ _ h | aborted _ _ h => simp [h.seen] at hs
  | creditedOn _ h | woken _ h | creditedOnOver _ h => simp [h.seen] at hs
  | block hg | short hg | wrote hg | closedHalf hg | closedFull hg | reset _ _ hg | useOn _ hg
  | creditOn hg | wake hg => exact (he (by simpa using hs) _ _ hg).elim
  | _ => simpa using he (by simpa using hs)

theorem Wakeful.not_blocked {i : ℕ} {st : MuxStream} (hi : Wakeful c) (h0 : c.blockedCount = 0)
    (hg : c.tab.get i = some st) : st.sendBlocked = false := by
  have hs := Table.get_eq_some.1 hg
  have hc := hi.count
  unfold Table.countIf at hc
  by_contra hb
  have hpos : 0 < tally (Slot.holds MuxStream.sendBlocked) c.tab.slots c.tab.cap :=
    tally_pos (hi.wf.lt_cap hs) (by rw [hs]; simpa [Slot.holds] using hb)
  omega

/-- The count after a removal, whatever else the step did to the table. -/
theorem count_remove {t : Table MuxStream} {b i : ℕ} {st} (hw : TabWf t)
    (hb : b = t.countIf MuxStream.sendBlocked) (hg : t.get i = some st) :
    (if (t.get i).any MuxStream.sendBlocked then b - 1 else b)
      = (t.remove i).countIf MuxStream.sendBlocked := by
  have := Table.countIf_remove hw (Table.get_eq_some.1 hg) MuxStream.sendBlocked
  rw [hg, hb]
  cases hst : st.sendBlocked <;> simp [hst] at this ⊢ <;> omega

/-- The counter of marked streams follows the marks. -/
theorem Step.count (h : Step c a c') (hi : Wakeful c) :
    c'.blockedCount = c'.tab.countIf MuxStream.sendBlocked := by
  have hc := hi.count
  have hw := hi.wf
  have hins : ∀ {sid t i}, stInsert c.tab (freshStream c sid) = (t, some i) →
      c.blockedCount = t.countIf MuxStream.sendBlocked := by
    intro sid t i h
    rw [(Inserted.of_eq hw h).countIf, hc]
    rfl
  cases h with
  | opened _ h | accepted _ _ _ _ _ h => simpa using hins h
  | openFailed _ h | acceptedRst _ _ _ _ h =>
    simpa using count_remove (Inserted.of_eq hw h).wf (hins h) (Inserted.of_eq hw h).get
  | acceptedFin _ _ _ _ _ h =>
    simpa [countIf_modify_same (Inserted.of_eq hw h).wf] using hins h
  | block hg hb =>
    have := Table.countIf_modify hw (Table.get_eq_some.1 hg)
      (fun st => { st with sendBlocked := true }) MuxStream.sendBlocked
    simp only [hb, Bool.toNat_false, Bool.toNat_true] at this
    simp only [block_blockedCount, block_tab]
    omega
  | wake hg hb =>
    have := Table.countIf_modify hw (Table.get_eq_some.1 hg)
      (fun st => { st with sendBlocked := false }) MuxStream.sendBlocked
    simp only [hb, Bool.toNat_false, Bool.toNat_true] at this
    simp only [push_blockedCount, unblock_blockedCount, push_tab, unblock_tab]
    omega
  | @woken f _ _ _ _ _ hf _ hb =>
    have := Table.countIf_modify hw (Table.get_eq_some.1 (stFind_some hw hf).1)
      (fun st =>
        { st with sendBlocked := false, sendWin := st.sendWin + (beLoad32 f.payload).toNat })
      MuxStream.sendBlocked
    simp only [hb, Bool.toNat_false, Bool.toNat_true] at this
    simp only [push_blockedCount, unblock_blockedCount, push_tab, unblock_tab, edit_blockedCount,
      edit_tab, hear_blockedCount, hear_tab, Table.modify_modify, Function.comp_def]
    omega
  | short | wrote | closedHalf | useOn | creditOn | data | creditedOn | creditedOnOver | fin =>
    simpa [countIf_modify_same hw, Table.modify_modify] using hc
  | closedFull hg | reset _ _ hg => simpa using count_remove hw hc hg
  | resetBy _ _ _ hf | aborted _ _ _ hf => simpa using count_remove hw hc (stFind_some hw hf).1
  | @finLast f i st _ _ hf =>
    have hg := Table.get_modify_self (stFind_some hw hf).1 fun st =>
      { st with recvWin := st.recvWin - f.payload.length
                delivered := st.delivered + f.payload.length }
    have hw' : TabWf (c.tab.modify i fun st =>
        { st with recvWin := st.recvWin - f.payload.length
                  delivered := st.delivered + f.payload.length }) := hw.modify i fun _ => rfl
    simpa using count_remove hw' (by simpa [countIf_modify_same hw] using hc) hg
  | _ => simpa using hc

/-- A window that opens takes the mark off. -/
theorem Step.stuck (h : Step c a c') (hi : Wakeful c) (hd : c'.dead = false) :
    Every c'.tab (Stuck c'.sessSendWin) := by
  have hs := hi.stuck (h.alive hd)
  have hw := hi.wf
  have hnone : ∀ {t : Table MuxStream} {w : ℤ}, Every t (fun _ => False) → Every t (Stuck w) :=
    fun h => h.imp fun _ h => h.elim
  have hfresh : ∀ sid, Stuck c.sessSendWin (freshStream c sid) := by simp [Stuck, freshStream]
  cases h with
  | opened _ h | accepted _ _ _ _ _ h => simpa using hs.insert hw h (hfresh _)
  | acceptedFin _ _ _ _ _ h =>
    simp only [push_tab, edit_tab, seeSid_tab, setTab_tab, push_sessSendWin, edit_sessSendWin,
      seeSid_sessSendWin, setTab_sessSendWin, hear_sessSendWin]
    exact (hs.insert hw h (hfresh _)).modify fun _ h => h
  | acceptedRst _ _ _ _ h => simpa using (hs.insert hw h (hfresh _)).remove
  | block hg _ hwin => simpa using hs.modify_at hg fun _ => hwin
  | wake => simpa using hs.modify fun _ _ h => by cases h
  | woken =>
    simp only [push_tab, unblock_tab, edit_tab, hear_tab, Table.modify_modify]
    exact hs.modify fun _ _ h => by cases h
  | @wrote i st p hg _ _ hne _ hwin hsess =>
    have hpos := List.length_pos_of_ne_nil hne
    have hs' : Every c.tab (Stuck (c.sessSendWin - p.length)) :=
      hs.imp fun st h hb => by have := h hb; omega
    refine hs'.modify_at hg fun hb => ?_
    have := hs _ _ hg hb
    omega
  | @credited f _ _ _ _ hsweep =>
    simp only [raise_tab, hear_tab, raise_sessSendWin, hear_sessSendWin]
    intro i st hg hb
    have := hs i st hg hb
    by_cases hre : c.sessSendWin ≤ 0 ∧ 0 < c.sessSendWin + (beLoad32 f.payload).toNat
    · rcases hsweep hre.1 hre.2 with h0 | hall
      · -- no stream is marked, so the sweep is not owed
        exact absurd hb (by simp [hi.not_blocked h0 hg])
      · exact .inl (hall i st hg hb)
    · omega
  | creditedOn _ _ _ hf _ hwin =>
    refine hs.modify_at (stFind_some hw hf).1 fun hb => ?_
    have := hwin hb
    dsimp only
    omega
  | short | closedHalf | useOn | creditOn | data | fin =>
    simp only [put_tab, edit_tab, deliver_tab, hear_tab, push_tab,
      put_sessSendWin, edit_sessSendWin, deliver_sessSendWin, hear_sessSendWin,
      push_sessSendWin, Table.modify_modify]
    exact hs.modify fun _ h => h
  | closedFull | reset | resetBy | aborted => simpa using hs.remove
  | finLast =>
    refine (hs.modify ?_).remove
    exact fun _ h => h
  | hello _ h _ _ hl | helloReply _ _ h _ _ hl =>
    simpa using hnone (hi.early h)
  | openFailed | spill | expire | garbled | offend | creditedOver | creditedOnOver | helloBad =>
    cases hd
  | _ => simpa using hs

theorem Owed.mono {q q'} (h : q <+: q') {st} (ho : Owed q st) : Owed q' st := by
  intro n hn
  obtain ⟨h1, h2⟩ := ho n hn
  obtain ⟨es, rfl⟩ := h
  refine ⟨by rw [List.length_append]; omega, h2.imp_right fun hm => ?_⟩
  rw [List.drop_append_of_le_length h1]
  exact List.mem_append_left _ hm

theorem Owed.pay {q} {st st' : MuxStream} (ho : Owed q st) (hsid : st'.sid = st.sid)
    (hshort : st'.shortAt = st.shortAt) : Owed (q ++ [.writable st.sid]) st' := by
  intro n hn
  obtain ⟨h1, -⟩ := ho n (hshort ▸ hn)
  refine ⟨by rw [List.length_append]; omega, .inr ?_⟩
  rw [List.drop_append_of_le_length h1, hsid]
  exact List.mem_append_right _ (List.mem_singleton_self _)

/-- A mark that goes leaves a WRITABLE. -/
theorem Step.owed (h : Step c a c') (hi : Wakeful c) (hd : c'.dead = false) :
    Every c'.tab (Owed c'.queued) := by
  have hs : Every c.tab (Owed c'.queued) :=
    (hi.owed (h.alive hd)).imp fun _ => Owed.mono h.queued_prefix
  have hw := hi.wf
  have hfresh : ∀ sid, Owed c'.queued (freshStream c sid) := by simp [Owed, freshStream]
  have ho := hi.owed (h.alive hd)
  cases h with
  | opened _ h | accepted _ _ _ _ _ h => exact hs.insert hw h (hfresh _)
  | acceptedFin _ _ _ _ _ h =>
    exact (hs.insert hw h (hfresh _)).modify fun _ h => h
  | acceptedRst _ _ _ _ h =>
    exact (hs.insert hw h (hfresh _)).remove
  | block =>
    exact hs.modify fun st h n hn => ⟨(h n hn).1, .inl rfl⟩
  | short hg hb =>
    have hlive : c.dead = false := by simpa using hd
    refine hs.modify_at hg fun n hn => ?_
    cases hn
    exact ⟨Nat.le_refl _, .inl (hb.resolve_right (by simp [hlive]))⟩
  | wake hg hb _ =>
    exact hs.modify_at hg ((ho _ _ hg).pay rfl rfl)
  | woken _ _ _ hf =>
    obtain ⟨hg, hsid⟩ := stFind_some hw hf
    simp only [push_tab, unblock_tab, edit_tab, hear_tab, Table.modify_modify]
    refine hs.modify_at hg ?_
    rw [← hsid]
    exact (ho _ _ hg).pay rfl rfl
  | wrote | closedHalf | useOn | creditOn | data | creditedOn =>
    exact hs.modify fun _ h => h
  | fin =>
    simp only [push_tab, edit_tab, deliver_tab, hear_tab, Table.modify_modify]
    exact hs.modify fun _ h => h
  | closedFull | reset | resetBy | aborted =>
    exact hs.remove
  | finLast =>
    refine (hs.modify ?_).remove
    exact fun _ h => h
  | hello _ _ _ _ hl | helloReply _ _ _ _ _ hl =>
    exact hs
  | openFailed | spill | expire | garbled | offend | creditedOver | creditedOnOver | helloBad =>
    cases hd
  | _ => simpa using hs

theorem Step.wakeful (h : Step c a c') (hi : Wakeful c) : Wakeful c' :=
  ⟨h.tabWf hi.wf, h.early hi, h.count hi, h.stuck hi, h.owed hi⟩

theorem wakeful_start (cfg role) : Wakeful (startCore cfg role) := by
  obtain ⟨hw, hnone⟩ := startCore_tab cfg role
  have hempty : ∀ {P}, Every (startCore cfg role).tab P := fun i st hg => by simp [hnone i] at hg
  refine ⟨hw, fun _ => hempty, ?_, fun _ => hempty, fun _ => hempty⟩
  have hzero : (startCore cfg role).blockedCount = 0 := by cases role <;> rfl
  rw [hzero]
  refine (tally_eq_zero fun i _ => ?_).symm
  have := hnone i
  unfold Table.get at this
  rcases hs : (startCore cfg role).tab.slots i with _ | _ | r <;> simp_all [Slot.holds]

end Blocked

/-- A write that returns less than asked is in the history of its stream. -/
theorem muxWrite_short {s s' : Session} (hw : s.toCore.Wf) {sid} {p : Bytes} {k : ℕ}
    (h : muxWrite s sid p = (s', .ok k)) (hk : k < p.length) :
    ∃ i st, s'.tab.get i = some st ∧ st.sid = sid ∧ st.shortAt = some s'.queued.length := by
  have hnote : ∀ {s₁ : Session} {i st}, s₁.tab.get i = some st → st.sid = sid →
      s' = noteShort s₁ i true → ∃ i st, s'.tab.get i = some st ∧ st.sid = sid
        ∧ st.shortAt = some s'.queued.length := by
    intro s₁ i st hg hsid hs
    subst hs
    exact ⟨i, _, Table.get_modify_self hg _, hsid, rfl⟩
  rcases @muxWrite_cases s (fun _ _ => True) (fun _ => trivial) (fun _ => trivial) hw sid p
    with ⟨e, he⟩ | ⟨i, st, hg, hsid, -, he⟩ | ⟨i, st, s₁, j, -, rfl, -, hp⟩
  · rw [he] at h
    cases h
  · rw [he] at h
    cases h
    obtain ⟨st', hg', -, hsid'⟩ := get_setBlocked hg
    exact hnote hg' (hsid'.trans hsid) (by rw [decide_eq_true hk])
  · rw [hp.eq] at h
    cases h
    obtain ⟨st', hg', -, hsid'⟩ := get_setBlocked hp.get
    split_ifs at * with hb
    · exact hnote hg' hsid' (by rw [decide_eq_true hk])
    · exact hnote hp.get rfl (by rw [decide_eq_true hk])

/-- No wake-up is lost. In every state a session reaches, by any calls and any bytes: a live stream
marked as blocked has a closed window; where both windows of a stream are open, its `WRITABLE` has
been queued since the last write on it that was short; and the marks are counted exactly, so where
the count is zero no stream is marked. -/
theorem no_lost_wakeup {cfg : MuxConfig} {role : MuxRole} {s₀ s : Session}
    (h₀ : muxSessionNew cfg role = some s₀)
    (h : Reach (ofFun Session.call) (fun _ _ => True) s₀ s) :
    (s.dead = false → ∀ i st, s.tab.get i = some st →
      (st.sendBlocked = true → st.sendWin ≤ 0 ∨ s.sessSendWin ≤ 0)
        ∧ ∀ n, st.shortAt = some n → 0 < st.sendWin → 0 < s.sessSendWin →
          .writable st.sid ∈ s.queued.drop n)
      ∧ (∀ sid p k s', muxWrite s sid p = (s', .ok k) → k < p.length →
        ∃ i st, s'.tab.get i = some st ∧ st.sid = sid ∧ st.shortAt = some s'.queued.length)
      ∧ s.blockedCount = s.tab.countIf MuxStream.sendBlocked
      ∧ (s.blockedCount = 0 → ∀ i st, s.tab.get i = some st → st.sendBlocked = false) := by
  obtain ⟨hcore, hw, -⟩ := muxSessionNew_spec h₀
  have hsteps := Session.reach_steps h hw fun s a _ _ => permits_any s a
  have hi : Wakeful s.toCore :=
    hsteps.inv (hcore ▸ wakeful_start cfg role) fun _ _ _ hi _ hs => hs.wakeful hi
  refine ⟨fun hd i st hg => ⟨hi.stuck hd i st hg, fun n hn h1 h2 => ?_⟩,
    fun sid p k s' => muxWrite_short (Steps.wf hsteps hw), hi.count,
    fun h0 i st => hi.not_blocked h0⟩
  refine (hi.owed hd i st hg n hn).2.resolve_left fun hb => ?_
  have := hi.stuck hd i st hg hb
  omega

/-- A dialer that grants one byte a stream, to an acceptor that writes two. -/
def smallWindowRun : List Call :=
  [.recv (encode { type := muxTHello, flags := 0, sid := muxSidControl
                   payload := tlvBytes (muxTlvInitWindow, bePut32 1) }),
    .recv (encode (synFrame 1 [])), .write 1 [7, 7], .recv (encode (creditFrame 1 3))]

theorem no_lost_wakeup_smallWindowRun :
    Event.writable 1 ∈
      (smallWindowRun.foldl Session.call (initSession { maxStreams := 1 } .acceptor)).queued.drop
        2 := by
  have hnew : muxSessionNew { maxStreams := 1 } .acceptor
      = some (initSession { maxStreams := 1 } .acceptor) := rfl
  obtain ⟨h, -⟩ := no_lost_wakeup hnew (.foldl smallWindowRun (by simp [smallWindowRun, Allowed]))
  set s := smallWindowRun.foldl Session.call (initSession { maxStreams := 1 } .acceptor) with hs
  have hg : s.tab.get (mixSid 1 % 64)
      = some { sid := 1, life := .open, sendBlocked := false, sendWin := 3, recvWin := 262144,
               recvPending := 0, delivered := 0, consumed := 0, shortAt := some 2 } := by
    rw [hs]
    decide +kernel
  exact (h (by rw [hs]; decide +kernel) _ _ hg).2 2 rfl (by decide) (by rw [hs]; decide +kernel)

end MuxProtocol
