import MuxProtocol.Proofs.Ids
import MuxProtocol.Proofs.OneStream

/-!
# The streams of a session

A step of a session is, on every stream, a step of that stream (`Step.view`). The peer is any.
-/

namespace MuxProtocol

open LinearProbe Machine Core

/-! ### The view of a stream -/

def MuxStream.streamEnd (st : MuxStream) : StreamEnd := ⟨st.life, st.sendWin, st.recvWin⟩

/-- The session's end of the stream `sid`. -/
def endOf (t : Table MuxStream) (sid : UInt32) : Option StreamEnd :=
  (t.lookup mixSid MuxStream.sid sid).map MuxStream.streamEnd

def Core.view (c : Core) (sid : UInt32) : View where
  live := endOf c.tab sid
  out := msgs sid c.sent
  inp := msgs sid c.got
  told := notices sid c.queued

section Lists

variable (sid : UInt32) (e : Event) (q q' : List Event)

@[simp] theorem notices_nil : notices sid [] = [] := rfl

@[simp] theorem notices_append : notices sid (q ++ q') = notices sid q ++ notices sid q' := by
  simp [notices]

@[simp] theorem notices_cons : notices sid (e :: q) = (e.notice sid).toList ++ notices sid q := by
  rcases h : e.notice sid <;> simp [notices, h]

@[simp] theorem notice_fatal (code) : (Event.fatal code).notice sid = none := rfl

end Lists

section Table

variable {t t' : Table MuxStream} {i : ℕ} {st : MuxStream} {sid : UInt32}

theorem endOf_of_get (h : TabWf t) (hd : t.Distinct MuxStream.sid) (hg : t.get i = some st) :
    endOf t st.sid = some st.streamEnd := by
  rw [endOf, (Table.lookup_eq_some h hd).2 ⟨Table.mem_of_get h hg, rfl⟩]
  rfl

theorem endOf_eq_none (h : TabWf t) :
    endOf t sid = none ↔ ∀ st, t.Mem st → st.sid ≠ sid := by
  rw [endOf, Option.map_eq_none_iff, Table.lookup_eq_none h]

theorem endOf_modify (h : TabWf t) (hd : t.Distinct MuxStream.sid) (hg : t.get i = some st) {g}
    (hk : ∀ st, (g st).sid = st.sid) (sid) :
    endOf (t.modify i g) sid = if st.sid = sid then some (g st).streamEnd else endOf t sid := by
  rw [endOf, Table.lookup_modify h hd hg hk]
  simp only [eq_comm (a := sid)]
  split <;> rfl

theorem endOf_remove (h : TabWf t) (hd : t.Distinct MuxStream.sid) (hg : t.get i = some st) (sid) :
    endOf (t.remove i) sid = if st.sid = sid then none else endOf t sid := by
  rw [endOf, Table.lookup_remove h hd hg]
  simp only [eq_comm (a := sid)]
  split <;> rfl

theorem endOf_insert (h : TabWf t) (hd : t.Distinct MuxStream.sid)
    (hi : stInsert t st = (t', some i)) (hne : ∀ st', t.Mem st' → st'.sid ≠ st.sid) (sid) :
    endOf t' sid = if st.sid = sid then some st.streamEnd else endOf t sid := by
  have hins := Inserted.of_eq h hi
  rw [endOf, Table.lookup_of_mem_iff h hd hins.wf (hins.distinct hd hne) hins.mem]
  simp only [eq_comm (a := sid)]
  split <;> rfl

theorem endOf_modify_remove (h : TabWf t) (hd : t.Distinct MuxStream.sid) (hg : t.get i = some st)
    {g} (hk : ∀ st, (g st).sid = st.sid) (sid) :
    endOf ((t.modify i g).remove i) sid = if st.sid = sid then none else endOf t sid := by
  rw [endOf_remove (h.modify i hk) (hd.modify i hk) (Table.get_modify_self hg g),
    endOf_modify h hd hg hk, hk]
  split <;> rfl

theorem endOf_insert_modify (h : TabWf t) (hd : t.Distinct MuxStream.sid)
    (hi : stInsert t st = (t', some i)) (hne : ∀ st', t.Mem st' → st'.sid ≠ st.sid) {g}
    (hk : ∀ st, (g st).sid = st.sid) (sid) :
    endOf (t'.modify i g) sid = if st.sid = sid then some (g st).streamEnd else endOf t sid := by
  have hins := Inserted.of_eq h hi
  rw [endOf_modify hins.wf (hins.distinct hd hne) hins.get hk, endOf_insert h hd hi hne]
  split <;> rfl

theorem endOf_insert_remove (h : TabWf t) (hd : t.Distinct MuxStream.sid)
    (hi : stInsert t st = (t', some i)) (hne : ∀ st', t.Mem st' → st'.sid ≠ st.sid) (sid) :
    endOf (t'.remove i) sid = endOf t sid := by
  have hins := Inserted.of_eq h hi
  rw [endOf_remove hins.wf (hins.distinct hd hne) hins.get, endOf_insert h hd hi hne]
  split
  · rename_i hs
    exact ((endOf_eq_none h).2 fun st' hm => hs ▸ hne st' hm).symm
  · rfl

end Table

/-! ### Steps -/

section Steps

variable {c c' : Core} {a : Act} {sid : UInt32} {f : Frame} {i : ℕ} {st : MuxStream}

theorem View.Step.congr {gone own : Prop} {w pw : ℤ} {v v' v₁} (h : View.Step gone own w pw v v₁)
    (he : v' = v₁) : View.Step gone own w pw v v' := he ▸ h

/-- A step of a session, on one of its streams. -/
abbrev ViewStep (c c' : Core) (sid : UInt32) : Prop :=
  View.Step (c'.dead = true) (Own c.role sid) c.initWindow.toNat c.peerInitWindow.toNat
    (c.view sid) (c'.view sid)

theorem view_idle (h : c'.view sid = c.view sid) : ViewStep c c' sid := (View.Step.idle _).congr h

theorem Ids.live (hi : Ids c) (hg : c.tab.get i = some st) (hs : st.sid = sid) :
    (c.view sid).live = some st.streamEnd := hs ▸ endOf_of_get hi.wf hi.distinct hg

@[simp] theorem freshStream_sid (c sid) : (freshStream c sid).sid = sid := rfl

@[simp] theorem freshStream_end (c : Core) (sid) :
    (freshStream c sid).streamEnd = ⟨.open, c.peerInitWindow.toNat, c.initWindow.toNat⟩ := rfl

/-- A stream has a SYN among its messages where its id is one of those opened. -/
theorem isSyn_mem_msgs {fs} : (∃ m ∈ msgs sid fs, m.isSyn = true) ↔ sid ∈ synIds fs := by
  have hone : ∀ f : Frame, (∃ m, f.msg sid = some m ∧ m.isSyn = true)
      ↔ f.isSyn = true ∧ f.sid = sid := by
    intro f
    unfold Frame.msg
    split
    · rename_i hs
      constructor
      · rintro ⟨m, hm, hsyn⟩
        exact ⟨(Frame.said_isSyn hm).symm.trans hsyn, hs⟩
      · rintro ⟨hsyn, -⟩
        obtain ⟨m, hm⟩ := Frame.said_of_isSyn hsyn
        exact ⟨m, hm, (Frame.said_isSyn hm).trans hsyn⟩
    · rename_i hs
      simp [hs]
  simp only [msgs, synIds, List.mem_filterMap, List.mem_map, List.mem_filter]
  constructor
  · rintro ⟨m, ⟨f, hf, hm⟩, hs⟩
    obtain ⟨h1, h2⟩ := (hone f).1 ⟨m, hm, hs⟩
    exact ⟨f, ⟨hf, h1⟩, h2⟩
  · rintro ⟨f, ⟨hf, h1⟩, h2⟩
    obtain ⟨m, hm, hs⟩ := (hone f).2 ⟨h1, h2⟩
    exact ⟨m, ⟨f, hf, hm⟩, hs⟩

theorem Ids.syn_fresh (hi : Ids c) (hf : Few c) {m} (hok : OpenOk c m) :
    Msg.syn ∉ msgs c.nextLocalSid c.sent := by
  intro hm
  have hid := isSyn_mem_msgs.1 ⟨_, hm, rfl⟩
  have := (hi.own _ hid).2
  have := (hi.next_eq hf hok).1
  omega

/-- What the host does, seen on one stream. -/
theorem Step.view_host (h : Step c a c') (hi : Ids c) (hf : Few c') (h0 : sid ≠ muxSidControl)
    (ha : a.heard = []) : ViewStep c c' sid := by
  have hw := hi.wf
  have hd := hi.distinct
  have hfew := h.few hf
  cases h with
  | @opened t i m hok hins =>
    have hins := endOf_insert hw hd hins fun _ hm => hi.fresh hfew hok hm
    by_cases hs : c.nextLocalSid = sid
    · subst hs
      refine (View.Step.opened (hi.next_eq hfew hok).2 ?_ (hi.syn_fresh hfew hok)).congr ?_
      · exact (endOf_eq_none hw).2 fun _ hm => hi.fresh hfew hok hm
      · simp [view, hins, msgs_singleton]
    · exact view_idle (by simp [view, hins, msgs_singleton, hs])
  | openFailed hok hins =>
    have hins := endOf_insert_remove hw hd hins fun _ hm => hi.fresh hfew hok hm
    refine view_idle ?_
    by_cases hdead : c.dead = true <;> simp [view, hins, hdead]
  | block hg | short hg | useOn n hg =>
    refine view_idle ?_
    simp only [view, block_tab, block_sent, block_got, block_queued,
      edit_tab, edit_sent, edit_got, edit_queued]
    rw [endOf_modify hw hd hg]
    · split
      · rename_i hs
        rw [← hs, endOf_of_get hw hd hg]
        rfl
      · rfl
    · exact fun _ => rfl
  | @wrote i st p hg _ hlife hp _ hwin =>
    by_cases hs : st.sid = sid
    · refine (View.Step.wrote (hi.live hg hs) hlife hp hwin).congr ?_
      simp [view, endOf_modify hw hd hg, hs, msgs_singleton, MuxStream.streamEnd]
    · exact view_idle (by simp [view, endOf_modify hw hd hg, hs, msgs_singleton])
  | @closedHalf i st hg _ hlife =>
    by_cases hs : st.sid = sid
    · refine (View.Step.half (hi.live hg hs) hlife).congr ?_
      simp [view, endOf_modify hw hd hg, hs, msgs_singleton, MuxStream.streamEnd]
    · exact view_idle (by simp [view, endOf_modify hw hd hg, hs, msgs_singleton])
  | @closedFull i st hg _ hlife =>
    by_cases hs : st.sid = sid
    · refine (View.Step.full (hi.live hg hs) hlife).congr ?_
      simp [view, endOf_remove hw hd hg, hs, msgs_singleton]
    · exact view_idle (by simp [view, endOf_remove hw hd hg, hs, msgs_singleton])
  | @reset i st ok code hg hdead =>
    by_cases hs : st.sid = sid
    · cases ok
      · refine (View.Step.lost (hi.live hg hs) (by simp)).congr ?_
        simp [view, endOf_remove hw hd hg, hs, hdead]
      · refine (View.Step.reset (hi.live hg hs)).congr ?_
        simp [view, endOf_remove hw hd hg, hs, msgs_singleton]
    · refine view_idle ?_
      cases ok <;> simp [view, endOf_remove hw hd hg, hs, hdead, msgs_singleton]
  | @creditOn i st k hg =>
    by_cases hs : st.sid = sid
    · refine (View.Step.granted k.toNat (hi.live hg hs)).congr ?_
      simp [view, endOf_modify hw hd hg, hs, msgs_singleton, MuxStream.streamEnd]
    · exact view_idle (by simp [view, endOf_modify hw hd hg, hs, msgs_singleton])
  | @wake i st hg =>
    by_cases hs : st.sid = sid
    · refine (View.Step.woke (hi.live hg hs)).congr ?_
      have := hi.live hg hs
      simp [view, endOf_modify hw hd hg, hs, Event.notice] at this ⊢
      exact this.symm
    · exact view_idle (by simp [view, endOf_modify hw hd hg, hs, Event.notice])
  | use | drain => exact view_idle rfl
  | credit =>
    exact view_idle (by simp [view, msgs_singleton, h0.symm])
  | control _ hc => exact view_idle (by simp [view, msgs_singleton, hc.mute.msg])
  | spill | expire | garbled =>
    refine view_idle ?_
    by_cases hdead : c.dead = true <;> simp [view, hdead]
  | _ => simp [Act.heard] at ha

/-! ### What a frame says -/

theorem msg_of_ne (h : f.sid ≠ sid) : f.msg sid = none := if_neg h

theorem msg_self (f : Frame) : f.msg f.sid = f.said := if_pos rfl

theorem SynOk.said (h : SynOk c f) : f.said = some (if f.has muxFRst then .synEnd true
    else if f.has muxFFin then .synEnd false else .syn) := by
  rw [Frame.said, if_pos h.type, if_pos h.syn]

theorem DataOn.said (h : DataOn c f) :
    f.said = some (if f.has muxFRst then .rst else .data f.payload (f.has muxFFin)) := by
  rw [Frame.said, if_pos h.type, if_neg (by simp [h.syn])]

theorem CreditOn.said (h : CreditOn c f) :
    f.said = some (.credit (beLoad32 f.payload).toNat) := by
  rw [Frame.said, if_neg (by rw [h.type]; decide), if_pos h.type]

theorem view_deaf (hd : c'.dead = true)
    (h : c'.view sid = { c.view sid with inp := (c.view sid).inp ++ (f.msg sid).toList }) :
    ViewStep c c' sid := by
  rcases hm : f.msg sid with _ | m
  · exact view_idle (by simpa [hm] using h)
  · exact (View.Step.deaf m hd).congr (by simpa [hm] using h)

theorem Ids.syn_first (hi : Ids c) (hd : c.dead = false) (hok : SynOk c f) :
    ∀ m ∈ (c.view f.sid).inp, m.isSyn = false := by
  intro m hm
  by_contra hs
  have hid := isSyn_mem_msgs.1 ⟨m, hm, by simpa using hs⟩
  have hle := hi.heard hd f.sid hid
  exact absurd hok.fresh (UInt32.not_lt.2 hle)

theorem SynOk.not_own (h : SynOk c f) : ¬ Own c.role f.sid := parity_iff.1 h.parity

theorem SynOk.not_live (hw : TabWf c.tab) (h : SynOk c f) : (c.view f.sid).live = none :=
  (endOf_eq_none hw).2 ((stFind_none hw).1 h.absent)

theorem DataOn.not_isSyn (h : DataOn c f) {m : Msg} (hm : f.said = some m) : m.isSyn = false := by
  rw [Frame.said_isSyn hm, isSyn_eq h.type, h.syn]

/-- A frame is heard on its own stream alone. -/
theorem Step.view_other (h : Step c (.hear f) c') (hi : Ids c) (hs : f.sid ≠ sid) :
    c'.view sid = c.view sid := by
  have hw := hi.wf
  have hdis := hi.distinct
  have hm := msg_of_ne hs
  cases h with
  | accepted _ hok _ _ _ hins =>
    have hins := endOf_insert hw hdis hins ((stFind_none hw).1 hok.absent)
    simp [view, hins, msgs_singleton, hm, hs, Event.notice]
  | acceptedFin _ hok _ _ _ hins =>
    have hins := fun g hk => @endOf_insert_modify _ _ _ _ hw hdis hins
      ((stFind_none hw).1 hok.absent) g hk
    simp [view, hins, msgs_singleton, hm, hs, Event.notice]
  | acceptedRst _ hok _ _ hins =>
    have hins := endOf_insert_remove hw hdis hins ((stFind_none hw).1 hok.absent)
    simp [view, hins, msgs_singleton, hm, hs, Event.notice]
  | resetBy _ _ _ hfind | aborted _ _ _ hfind | data _ _ hfind | fin _ _ hfind | finLast _ _ hfind
  | creditedOn _ _ _ hfind | woken _ _ _ hfind | creditedOnOver _ _ _ hfind =>
    obtain ⟨hg, hsid⟩ := stFind_some hw hfind
    simp [view, Table.modify_modify, endOf_modify hw hdis hg, endOf_remove hw hdis hg,
      endOf_modify_remove hw hdis hg, hsid, hs, msgs_singleton, hm, Event.notice,
      apply_ite (notices sid), apply_ite (msgs sid)]
  | notice e _ _ he =>
    rcases he with ⟨rfl, -⟩ | ⟨rfl, -⟩ <;> simp [view, msgs_singleton, hm, Event.notice]
  | _ =>
    simp [view, msgs_singleton, hm, hs, Event.notice, (mute_helloFrame _ _).msg,
      (mute_pingFrame _ _).msg, apply_ite (notices sid), apply_ite (msgs sid)]

/-- What a frame does, seen on one stream. -/
theorem Step.view_hear (h : Step c (.hear f) c') (hi : Ids c) (h0 : sid ≠ muxSidControl) :
    ViewStep c c' sid := by
  by_cases hs : f.sid = sid
  swap
  · exact view_idle (h.view_other hi hs)
  subst hs
  have hw := hi.wf
  have hdis := hi.distinct
  have hmute : ∀ {t}, f.type = t → t ≠ muxTData → t ≠ muxTWindowUpdate → f.msg f.sid = none :=
    fun ht h1 h2 => msg_of_type f.sid (ht ▸ h1) (ht ▸ h2)
  cases h with
  | offend hd | helloBad hd | creditedOver hd =>
    exact view_deaf (f := f) (by simp) (by simp [view, hd, msgs_singleton])
  | hello _ _ _ hsid | helloReply _ _ _ _ hsid | credited _ _ hsid => exact absurd hsid h0
  | refused ok hd hok =>
    have hsyn := Frame.said_isSyn hok.said
    rw [isSyn_eq hok.type, hok.syn] at hsyn
    refine (View.Step.refused ok hok.not_own (hok.not_live hw) hsyn (hi.syn_first hd hok)
      ?_).congr ?_
    · cases ok <;> simp
    · cases ok <;> simp [view, msgs_singleton, msg_self, hok.said, hd, putRst]
  | accepted hd hok _ hr hfin hins =>
    have hins := endOf_insert hw hdis hins ((stFind_none hw).1 hok.absent)
    refine (View.Step.accepted hok.not_own (hok.not_live hw) (hi.syn_first hd hok)).congr ?_
    simp [view, hins, msgs_singleton, msg_self, hok.said, hr, hfin, Event.notice]
  | acceptedFin hd hok _ hr hfin hins =>
    have hins := fun g hk => @endOf_insert_modify _ _ _ _ hw hdis hins
      ((stFind_none hw).1 hok.absent) g hk
    refine (View.Step.acceptedFin hok.not_own (hok.not_live hw) (hi.syn_first hd hok)).congr ?_
    simp [view, hins, msgs_singleton, msg_self, hok.said, hr, hfin, Event.notice,
      MuxStream.streamEnd, freshStream]
  | acceptedRst hd hok _ hr hins =>
    have hins := endOf_insert_remove hw hdis hins ((stFind_none hw).1 hok.absent)
    refine (View.Step.acceptedRst hok.not_own (hok.not_live hw) (hi.syn_first hd hok)).congr ?_
    simp [view, hins, msgs_singleton, msg_self, hok.said, hr, Event.notice]
  | stray hd hon hnone =>
    refine (View.Step.stray ?_ (hon.not_isSyn hon.said)).congr ?_
    · exact (endOf_eq_none hw).2 ((stFind_none hw).1 hnone)
    · simp [view, msgs_singleton, msg_self, hon.said]
  | resetBy code hd hon hfind hr =>
    obtain ⟨hg, hsid⟩ := stFind_some hw hfind
    refine (View.Step.resetBy (hi.live hg hsid)).congr ?_
    simp [view, endOf_remove hw hdis hg, hsid, msgs_singleton, msg_self, hon.said, hr, Event.notice]
  | aborted ok hd hon hfind hr hp =>
    obtain ⟨hg, hsid⟩ := stFind_some hw hfind
    refine (View.Step.aborted f.payload (f.has muxFFin) ok (hi.live hg hsid) ?_).congr ?_
    · cases ok <;> simp
    · cases ok <;> simp [view, endOf_remove hw hdis hg, hsid, msgs_singleton, msg_self,
        hon.said, hr, hd, Event.notice, putRst]
  | data hd hon hfind hr hfits hfin =>
    obtain ⟨hg, hsid⟩ := stFind_some hw hfind
    refine (View.Step.data f.payload (hi.live hg hsid) hfits.life).congr ?_
    by_cases hp : f.payload = [] <;> simp [view, endOf_modify hw hdis hg, hsid,
      msgs_singleton, msg_self, hon.said, hr, hfin, Event.notice, tellData, hp,
      MuxStream.streamEnd]
  | fin hd hon hfind hr hfits hfin hlife =>
    obtain ⟨hg, hsid⟩ := stFind_some hw hfind
    refine (View.Step.fin f.payload (hi.live hg hsid) hlife hfits.life).congr ?_
    by_cases hp : f.payload = [] <;> simp [view, Table.modify_modify,
      endOf_modify hw hdis hg, hsid, msgs_singleton, msg_self, hon.said, hr, hfin, Event.notice,
      tellData, hp, MuxStream.streamEnd]
  | finLast hd hon hfind hr hfits hfin hlife =>
    obtain ⟨hg, hsid⟩ := stFind_some hw hfind
    refine (View.Step.finLast f.payload (hi.live hg hsid) hlife).congr ?_
    by_cases hp : f.payload = [] <;> simp [view, endOf_modify_remove hw hdis hg, hsid,
      msgs_singleton, msg_self, hon.said, hr, hfin, Event.notice, tellData, hp]
  | strayCredit hd hon _ hnone =>
    refine (View.Step.stray (m := .credit (beLoad32 f.payload).toNat) ?_ rfl).congr ?_
    · exact (endOf_eq_none hw).2 ((stFind_none hw).1 hnone)
    · simp [view, msgs_singleton, msg_self, hon.said]
  | creditedOn hd hon _ hfind =>
    obtain ⟨hg, hsid⟩ := stFind_some hw hfind
    refine (View.Step.credited (beLoad32 f.payload).toNat false (hi.live hg hsid)).congr ?_
    simp [view, endOf_modify hw hdis hg, hsid, msgs_singleton, msg_self, hon.said,
      MuxStream.streamEnd]
  | woken hd hon _ hfind =>
    obtain ⟨hg, hsid⟩ := stFind_some hw hfind
    refine (View.Step.credited (beLoad32 f.payload).toNat true (hi.live hg hsid)).congr ?_
    simp [view, Table.modify_modify, endOf_modify hw hdis hg, hsid, msgs_singleton, msg_self,
      hon.said, MuxStream.streamEnd, Event.notice]
  | creditedOnOver hd hon _ hfind =>
    obtain ⟨hg, hsid⟩ := stFind_some hw hfind
    refine (View.Step.credited (beLoad32 f.payload).toNat false (hi.live hg hsid)).congr ?_
    simp [view, endOf_modify hw hdis hg, hsid, msgs_singleton, msg_self, hon.said, hd,
      MuxStream.streamEnd]
  | pong _ _ ht =>
    exact view_idle (by simp [view, msgs_singleton, hmute ht (by decide) (by decide)])
  | ping ok hd _ ht =>
    refine view_idle ?_
    cases ok <;> simp [view, msgs_singleton, hmute ht (by decide) (by decide),
      (mute_pingFrame _ _).msg, hd]
  | notice e _ _ he =>
    refine view_idle ?_
    rcases he with ⟨rfl, ht⟩ | ⟨rfl, ht⟩ <;>
      simp [view, msgs_singleton, hmute ht (by decide) (by decide), Event.notice]

theorem Step.view (h : Step c a c') (hi : Ids c) (hf : Few c') (h0 : sid ≠ muxSidControl) :
    ViewStep c c' sid := by
  cases a with
  | hear f => exact h.view_hear hi h0
  | _ => exact h.view_host hi hf h0 rfl

end Steps

end MuxProtocol
