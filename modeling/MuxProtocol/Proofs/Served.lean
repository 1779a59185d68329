import MuxProtocol.Daemon
import MuxProtocol.Proofs.Chunks
import MuxProtocol.Proofs.Grammar
import MuxProtocol.Proofs.Strokes

/-!
# What a host may rely on

Against any peer. The events a host takes are those the session has queued, in order; a call other
than `mux_recv` queues no more than FATAL; and a stream known to the host is live only as long as
the host has not ended it.
-/

namespace MuxProtocol

open LinearProbe Machine List Option Core Event RingQueue

/-! ### The event queue -/

section Queue

variable {s s' s'' : Session}

/-- The events queued are at the end of the queue. -/
def Pushes (s s' : Session) : Prop :=
  ∃ l, s'.queued = s.queued ++ l ∧ s'.q = s.q.pushAll l

/-- The events that a host can take before the next `mux_recv`. -/
def Session.left (s : Session) : ℕ := s.q.count + if s.dead then 0 else 1

/-- Nothing is queued, but for the FATAL of a session that dies. -/
structure Hushed (s s' : Session) : Prop where
  pushes : Pushes s s'
  left : s'.left = s.left

theorem Pushes.trans (h : Pushes s s') (h' : Pushes s' s'') : Pushes s s'' := by
  obtain ⟨l, h1, h2⟩ := h
  obtain ⟨l', h3, h4⟩ := h'
  exact ⟨l ++ l', by rw [h3, h1, append_assoc], by rw [h4, h2, pushAll_append]⟩

namespace Hushed

theorem keep (h1 : s'.queued = s.queued) (h2 : s'.q = s.q) (h3 : s'.dead = s.dead) :
    Hushed s s' :=
  ⟨⟨[], by simp [h1], h2⟩, by rw [Session.left, Session.left, h2, h3]⟩

theorem refl (s) : Hushed s s := keep rfl rfl rfl

theorem trans (h : Hushed s s') (h' : Hushed s' s'') : Hushed s s'' :=
  ⟨h.pushes.trans h'.pushes, h'.left.trans h.left⟩

theorem after (h : Hushed s' s'') (h1 : s'.queued = s.queued) (h2 : s'.q = s.q)
    (h3 : s'.dead = s.dead) : Hushed s s'' :=
  (keep h1 h2 h3).trans h

end Hushed

theorem raiseFatal_hushed (s code) : Hushed s (raiseFatal s code) := by
  unfold raiseFatal
  split
  · exact .refl s
  · rename_i hd
    refine ⟨⟨[.fatal code], rfl, rfl⟩, ?_⟩
    simp [Session.left, evqPush, hd]

theorem emit_hushed (s type flags sid payload) : Hushed s (emit s type flags sid payload).1 := by
  unfold emit
  split
  · exact (raiseFatal_hushed _ _).after rfl rfl rfl
  · split <;> exact .keep rfl rfl rfl

/-- Of the effects, only an event of the peer's frames adds to what a host can take. -/
theorem Stroke.hushed {e} (h : Stroke s e s') (he : ∀ ev, e ≠ .push ev) : Hushed s s' := by
  cases h with
  | edit h =>
    exact .keep (congrArg (·.2.2.2.2.2) h) rfl (congrArg (·.1) h)
  | push _ => exact absurd rfl (he _)
  | fatal code => exact raiseFatal_hushed s code
  | emit f => exact emit_hushed s _ _ _ _
  | _ => exact .keep rfl rfl rfl

theorem Stroke.pushes {e} (h : Stroke s e s') : Pushes s s' := by
  by_cases he : ∃ ev, e = .push ev
  · obtain ⟨ev, rfl⟩ := he
    cases h
    exact ⟨[ev], rfl, rfl⟩
  · exact (h.hushed fun ev hev => he ⟨ev, hev⟩).pushes

theorem muxSendAdvance_hushed (s) (n : ℕ) : Hushed s (muxSendAdvance s n) := by
  unfold muxSendAdvance
  dsimp only
  split <;> exact .keep rfl rfl rfl

/-- FATAL is queued by the death of the session. -/
def Session.Silent (s : Session) : Prop := s.dead = true ↔ ∃ code, .fatal code ∈ s.queued

theorem Session.Silent.raiseFatal (h : s.Silent) (code) : (raiseFatal s code).Silent := by
  unfold MuxProtocol.raiseFatal
  split
  · exact h
  · exact iff_of_true rfl ⟨code, by simp [evqPush]⟩

theorem Stroke.silent {e} (h : Stroke s e s') (hs : s.Silent) : s'.Silent := by
  cases h with
  | @edit c h =>
    have hd : c.dead = s.dead := congrArg (·.1) h
    have hq : c.queued = s.queued := congrArg (·.2.2.2.2.2) h
    change c.dead = true ↔ ∃ code, .fatal code ∈ c.queued
    rw [hd, hq]
    exact hs
  | push hev =>
    refine hs.trans (exists_congr fun code => ?_)
    simp [evqPush, (hev code).symm]
  | fatal code => exact hs.raiseFatal code
  | emit f =>
    unfold MuxProtocol.emit
    split
    · refine Session.Silent.raiseFatal ?_ _
      exact hs
    · split <;> exact hs
  | _ => exact hs

/-- A call that neither processes frames nor takes an event. -/
def Call.Quiet : Call → Prop
  | .recv _ | .nextEvent => False
  | _ => True

/-- The calls that a daemon makes for no stream. -/
def Call.Idle : Call → Prop
  | .recv _ | .onTimer _ | .sendAdvance _ | .goaway _ => True
  | _ => False

theorem Call.Idle.ne_open {a : Call} (h : a.Idle) (m) : a ≠ .open m := by
  rintro rfl
  exact h

theorem Call.Idle.ne_nextEvent {a : Call} (h : a.Idle) : a ≠ .nextEvent := by
  rintro rfl
  exact h

theorem Session.call_hushed {a : Call} (ha : a.Quiet) (s : Session) : Hushed s (s.call a) := by
  have hinner : a.Inner → Hushed s (s.call a) := by
    intro hi
    refine Session.call_inv (I := Hushed s) hi (fun s₁ e s₂ h he hs => ?_) (.refl s)
    refine h.trans (hs.hushed ?_)
    rintro ev rfl
    cases a with
    | recv => exact ha
    | _ => exact he
  cases a with
  | recv => exact ha.elim
  | nextEvent => exact ha.elim
  | sendAdvance n => exact muxSendAdvance_hushed s n
  | _ => exact hinner trivial

theorem Session.call_pushes {a} (ha : a ≠ .nextEvent) (s : Session) : Pushes s (s.call a) := by
  cases a with
  | recv buf =>
    exact Session.call_inv (a := .recv buf) (I := Pushes s) trivial
      (fun _ _ _ h _ hs => h.trans hs.pushes) (Hushed.refl s).pushes
  | nextEvent => exact absurd rfl ha
  | _ => exact (Session.call_hushed (by trivial) s).pushes

theorem Pushes.popped (h : Pushes s s') : s'.popped = s.popped := by
  obtain ⟨l, h1, h2⟩ := h
  have hc : s'.q.count = s.q.count + l.length := by
    rw [h2, ← RingQueue.length_toList, RingQueue.toList_pushAll, length_append,
      RingQueue.length_toList]
  rw [Session.popped, Session.popped, hc, h1, length_append,
    Nat.add_sub_add_right, take_append_of_le_length (Nat.sub_le _ _)]

theorem Pushes.toList (h : Pushes s s') : ∃ l, s'.queued = s.queued ++ l
    ∧ s'.q.toList = s.q.toList ++ l := by
  obtain ⟨l, h1, h2⟩ := h
  exact ⟨l, h1, by rw [h2, toList_pushAll]⟩

end Queue

/-! ### The invariant -/

section Served

variable {s s' : Session} {a : Call} {sid : UInt32} {ev : Event}

/-- The events that wait are the last of those queued. -/
def Session.Queues (s : Session) : Prop := s.q.toList <:+ s.queued

/-- A session in the hands of a host. -/
structure Served (s : Session) : Prop where
  wf : s.toCore.Wf
  few : Few s.toCore
  order : InOrder s.toCore
  waiting : s.Queues
  silent : s.Silent

theorem Session.Queues.queued_eq (h : s.Queues) : s.queued = s.popped ++ s.q.toList := by
  obtain ⟨l, hl⟩ := h
  rw [Session.popped, ← RingQueue.length_toList, ← hl, length_append, Nat.add_sub_cancel, take_left]

theorem Served.queued_eq (h : Served s) : s.queued = s.popped ++ s.q.toList := h.waiting.queued_eq

theorem Served.popped_mem (h : Served s) (he : ev ∈ s.popped) : ev ∈ s.queued := by
  rw [h.queued_eq]
  exact mem_append_left _ he

theorem Steps.inOrder {ok : Core → Act → Prop} {c c'} (h : Reach Step ok c c') (hi : InOrder c)
    (hf : Few c') : InOrder c' := by
  induction h with
  | start => exact hi
  | step _ _ h ih => exact h.inOrder (ih (h.few hf)) hf

/-- The event that the host takes next. -/
def Session.front (s : Session) : Option Event := (muxNextEvent s).2

theorem front_some (h : s.front = some ev) :
    s.q.toList = ev :: (s.call .nextEvent).q.toList
      ∧ (s.call .nextEvent).toCore = s.toCore := by
  unfold Session.front muxNextEvent at h
  unfold Session.call muxNextEvent
  rcases hp : s.q.pop with _ | ⟨e, q⟩
  · simp [hp] at h
  · rw [hp, some_inj] at h
    exact ⟨h ▸ pop_some hp, rfl⟩

theorem front_none (h : s.front = none) : s.q.toList = [] ∧ s.call .nextEvent = s := by
  unfold Session.front muxNextEvent at h
  unfold Session.call muxNextEvent
  rcases hp : s.q.pop with _ | ⟨e, q⟩
  · exact ⟨pop_none hp, rfl⟩
  · simp [hp] at h

theorem left_front (h : s.front = some ev) : s.left = (s.call .nextEvent).left + 1 := by
  obtain ⟨h1, h2⟩ := front_some h
  have hc := congrArg length h1
  rw [length_cons, RingQueue.length_toList, RingQueue.length_toList] at hc
  rw [Session.left, Session.left, hc, h2]
  omega

theorem Session.Silent.call (h : s.Silent) (a) : (s.call a).Silent := by
  cases a with
  | sendAdvance n =>
    rw [Session.Silent, Session.call, muxSendAdvance_toCore]
    exact h
  | nextEvent =>
    rw [Session.Silent, Session.call, muxNextEvent_toCore]
    exact h
  | _ => exact Session.call_inv trivial (fun _ _ _ hi _ hs => hs.silent hi) h

/-- A session from which FATAL was taken is dead. -/
theorem Session.Silent.dead (h : s.Silent) {code} (hp : .fatal code ∈ s.popped) : s.dead = true :=
  h.2 ⟨code, take_subset _ _ hp⟩

namespace Session.Queues

theorem call (h : s.Queues) (a) : (s.call a).Queues := by
  unfold Session.Queues
  by_cases ha : a = .nextEvent
  · subst ha
    rcases hfr : s.front with _ | ev
    · rw [(front_none hfr).2]
      exact h
    · obtain ⟨h1, h2⟩ := front_some hfr
      rw [h2]
      exact (h1 ▸ suffix_cons _ _).trans h
  · obtain ⟨l, h1, h2⟩ := (Session.call_pushes ha s).toList
    rw [h1, h2]
    obtain ⟨r, hr⟩ := h
    exact ⟨r, by rw [← hr, append_assoc]⟩

theorem popped_front (h : s.Queues) (hfr : s.front = some ev) :
    (s.call .nextEvent).popped = s.popped ++ [ev] := by
  obtain ⟨h1, h2⟩ := front_some hfr
  have hq := h.queued_eq
  obtain ⟨r, hr⟩ := h
  have hlen := congrArg length h1
  have hlen' := congrArg length hr
  rw [length_append] at hlen'
  rw [length_cons] at hlen
  rw [Session.popped, h2, ← RingQueue.length_toList]
  rw [hq, h1]
  have hp : s.popped.length = s.queued.length - s.q.toList.length := by
    rw [Session.popped, length_take, RingQueue.length_toList]
    omega
  rw [show (s.popped ++ ev :: (s.call .nextEvent).q.toList).length
      - (s.call .nextEvent).q.toList.length = s.popped.length + 1 by
    rw [length_append, length_cons]; omega]
  rw [take_append, take_of_length_le (by omega), Nat.add_sub_cancel_left]
  rfl

theorem popped_call (h : s.Queues) (a) : s.popped <+: (s.call a).popped := by
  by_cases ha : a = .nextEvent
  · subst ha
    rcases hfr : s.front with _ | ev
    · rw [(front_none hfr).2]
    · rw [h.popped_front hfr]
      exact prefix_append _ _
  · rw [(Session.call_pushes ha s).popped]

end Session.Queues

namespace Served

theorem call (h : Served s) (a) (hf : Few (s.call a).toCore) : Served (s.call a) := by
  have hsteps := Session.call_steps h.wf (permits_any s a)
  exact ⟨Steps.wf hsteps h.wf, hf, Steps.inOrder hsteps h.order hf, h.waiting.call a,
    h.silent.call a⟩

theorem call_acceptor (h : Served s) (hr : s.role = .acceptor) (a) : Served (s.call a) := by
  have hsteps := Session.call_steps h.wf (permits_any s a)
  obtain ⟨-, -, hf⟩ := hsteps.inv (I := fun c => InOrder c ∧ c.role = .acceptor ∧ Few c)
    ⟨h.order, hr, h.few⟩ fun c b c' hi _ hs => by
      have hf := hs.few_of_acceptor hi.1.sound.ids hi.2.1 hi.2.2
      exact ⟨hs.inOrder hi.1 hf, hs.role_eq.trans hi.2.1, hf⟩
  exact h.call a hf

theorem popped_front (h : Served s) (hfr : s.front = some ev) :
    (s.call .nextEvent).popped = s.popped ++ [ev] :=
  h.waiting.popped_front hfr

end Served

theorem Served.popped_call (h : Served s) (a) : s.popped <+: (s.call a).popped :=
  h.waiting.popped_call a

theorem muxSessionNew_queue {cfg role} (h : muxSessionNew cfg role = some s) : s.q.toList = [] := by
  have hq : s.queued = [] := by rw [(muxSessionNew_spec h).1, startCore_queued]
  have hp := muxSessionNew_inv (I := Pushes (initSession cfg role)) (Hushed.refl _).pushes
    (fun _ _ _ h _ hs => h.trans hs.pushes) h
  obtain ⟨l, h1, h2⟩ := hp.toList
  have hl : l = [] := by simpa [hq, initSession] using h1
  simpa [hl, initSession] using h2

theorem silent_new {cfg role} (h : muxSessionNew cfg role = some s) : s.Silent := by
  rw [Session.Silent, (muxSessionNew_spec h).1, startCore_queued]
  cases role <;> simp [startCore, initSession]

theorem served_new {cfg role} (h : muxSessionNew cfg role = some s) : Served s ∧ s.popped = [] := by
  obtain ⟨hc, hw, -⟩ := muxSessionNew_spec h
  have hq : s.queued = [] := by rw [hc, startCore_queued]
  have hf : Few s.toCore := by simp [Few, hc, startCore_synIds]
  refine ⟨⟨hw, hf, hc ▸ inOrder_start cfg role, ?_, silent_new h⟩,
    by simp [Session.popped, hq]⟩
  rw [Session.Queues, muxSessionNew_queue h]
  exact nil_suffix

end Served

/-! ### Streams -/

section Streams

variable {s s' : Session} {a : Call} {sid : UInt32} {ev : Event}

/-- The session has a record of the stream. -/
def Session.Live (s : Session) (sid : UInt32) : Prop := (stFind s.tab sid).isSome = true

instance Session.Live.decidable (s : Session) (sid : UInt32) : Decidable (s.Live sid) :=
  inferInstanceAs (Decidable (_ = true))

/-- A live stream that the host knows: no OPENED waits for it. -/
def Session.Carries (s : Session) (sid : UInt32) : Prop :=
  s.Live sid ∧ sid ∉ openedIds s.q.toList

instance Session.Carries.decidable (s : Session) (sid : UInt32) : Decidable (s.Carries sid) :=
  inferInstanceAs (Decidable (_ ∧ _))

/-- Our side of the stream is closed, or the stream is gone. -/
def Session.Closing (s : Session) (sid : UInt32) : Prop :=
  ∀ e, (s.toCore.view sid).live = some e → e.life = .hclLocal

theorem live_iff (hw : TabWf s.tab) : s.Live sid ↔ (s.toCore.view sid).live ≠ none := by
  rw [Session.Live, isSome_iff_ne_none]
  exact not_congr ((stFind_none hw).trans (endOf_eq_none hw).symm)

theorem not_live_new {cfg role} (h : muxSessionNew cfg role = some s) (sid) : ¬ s.Live sid := by
  obtain ⟨hc, hw, -⟩ := muxSessionNew_spec h
  rw [live_iff hw.tab, hc, view_start]
  simp

/-- A call opens the streams whose ids it returns. -/
theorem Session.call_synIds (hw : s.toCore.Wf) (a) :
    synIds (s.call a).sent = synIds s.sent ++ s.returned a := by
  by_cases ha : ∃ m, a = .open m
  · obtain ⟨m, rfl⟩ := ha
    rcases muxOpen_cases hw m with ⟨-, e, he⟩ | ⟨-, t, i, s', -, -, ⟨he, hc⟩ | ⟨he, hc⟩⟩
    · simp [Session.returned, Session.call, he, Except.toOption]
    · simp [Session.returned, Session.call, he, hc, Except.toOption, synIds_singleton]
    · simp [Session.returned, Session.call, he, hc, Except.toOption]
  · have hno : ∀ m, a ≠ .open m := fun m h => ha ⟨m, h⟩
    have hret : s.returned a = [] := by
      cases a with
      | «open» m => exact absurd rfl (hno m)
      | _ => rfl
    rw [hret, append_nil]
    exact (Steps.no_open (Session.call_steps hw (permits_not_open s hno))).1

theorem Session.call_few (hw : s.toCore.Wf) (hf : Few s.toCore) (ha : ∀ m, a ≠ .open m) :
    Few (s.call a).toCore := by
  have := Session.call_synIds hw a
  cases a with
  | «open» m => exact absurd rfl (ha m)
  | _ => simpa [Few, this, Session.returned] using hf

theorem born_of_synIds {c : Core} (h : sid ∈ synIds c.sent)
    (hs : Sends (Own c.role sid) (c.view sid)) : (c.view sid).Born (Own c.role sid) := by
  obtain ⟨m, hm, -⟩ := isSyn_mem_msgs.2 h
  exact hs.born (.inr (ne_nil_of_mem hm))

theorem mem_openedIds {q} : sid ∈ openedIds q ↔ .opened ∈ notices sid q := by
  simp only [openedIds, notices, mem_filterMap]
  refine exists_congr fun e => and_congr_right fun _ => ?_
  cases e <;> simp [openedId, notice]

theorem AllPlain.synIds_ne {c : Core} {sid} (h : AllPlain c) (hm : sid ∈ synIds c.sent) :
    sid ≠ muxSidControl := by
  obtain ⟨f, hf, rfl⟩ := mem_map.1 hm
  obtain ⟨hf, hsyn⟩ := mem_filter.1 hf
  cases h.sent f hf with
  | syn h0 => exact h0
  | data p | fin | rst | credit => simp at hsyn
  | ping flags => simp [(mute_pingFrame _ flags).isSyn] at hsyn
  | goaway reason lastSid => simp [(Control.goaway reason lastSid).mute.isSyn] at hsyn
  | capacity weight => simp [(Control.capacity weight).mute.isSyn] at hsyn
  | hello ack => simp [(mute_helloFrame c ack).isSyn] at hsyn

/-- The host knows the stream: it has opened it, or was told that the peer has. -/
def Session.Knows (s : Session) (sid : UInt32) : Prop :=
  sid ∈ synIds s.sent ∨ sid ∈ openedIds s.popped

namespace Served

theorem opened_of_popped (h : Served s) (hm : sid ∈ openedIds s.popped) :
    sid ∈ openedIds s.queued := by
  rw [h.queued_eq, openedIds_append]
  exact mem_append_left _ hm

theorem knows_ne (h : Served s) (hk : s.Knows sid) : sid ≠ muxSidControl :=
  hk.elim h.order.sound.plain.synIds_ne fun hm => (h.order.opened sid (h.opened_of_popped hm)).2.1

theorem knows_call (h : Served s) (a) (hk : s.Knows sid) : (s.call a).Knows sid := by
  refine hk.imp (fun hm => ?_) fun hm => ?_
  · rw [Session.call_synIds h.wf]
    exact mem_append_left _ hm
  · obtain ⟨l, hl⟩ := h.popped_call a
    rw [← hl, openedIds_append]
    exact mem_append_left _ hm

theorem born_of_knows (h : Served s) (hk : s.Knows sid) :
    (s.toCore.view sid).Born (Own s.role sid) := by
  have h0 := h.knows_ne hk
  refine hk.elim (fun hm => born_of_synIds hm (h.order.sound.sends sid h0)) fun hm => ?_
  exact (h.order.sound.tells sid h0).born
    (ne_nil_of_mem (mem_openedIds.1 (h.opened_of_popped hm)))

theorem not_closed_of_data (h : Served s) (hk : s.Knows sid) {p}
    (hfr : s.front = some (.data sid p)) : .closed sid ∉ s.popped := by
  intro hm
  have hann := (h.order.sound.tells sid (h.knows_ne hk)).announced.closed
  have hq : (s.toCore.view sid).told = notices sid s.popped
      ++ .data p :: notices sid (s.call .nextEvent).q.toList := by
    change notices sid s.queued = _
    rw [h.queued_eq, (front_some hfr).1]
    simp [notice]
  rw [hq, pairwise_append] at hann
  exact hann.2.2 .closed (mem_notices hm (if_pos rfl)) _ mem_cons_self rfl p rfl

end Served

namespace Served

theorem sid_ne (h : Served s) (hl : s.Live sid) : sid ≠ muxSidControl := by
  obtain ⟨⟨i, st⟩, hf⟩ := isSome_iff_exists.1 hl
  obtain ⟨hg, rfl⟩ := stFind_some h.wf.tab hf
  exact h.order.sound.plain.sids i st hg

theorem live_before (h : Served s) (hf : Few (s.call a).toCore) (hl : (s.call a).Live sid)
    (hb : (s.toCore.view sid).Born (Own s.role sid)) : s.Live sid := by
  have h' := h.call a hf
  have hsteps := Session.call_steps h.wf (permits_any s a)
  by_contra hno
  rw [live_iff h.wf.tab, not_not] at hno
  have := (Steps.over hsteps h.order.sound hf (h'.sid_ne hl) ⟨hno, hb⟩).1.gone
  exact (live_iff h'.wf.tab).1 hl this

/-- A stream that is carried after a call was before, or the call has opened it. -/
theorem carries_call (h : Served s) (ha : a ≠ .nextEvent) (hf : Few (s.call a).toCore)
    (hc : (s.call a).Carries sid) : s.Carries sid ∨ sid ∈ s.returned a := by
  have h' := h.call a hf
  obtain ⟨hl, hw⟩ := hc
  have h0 := h'.sid_ne hl
  obtain ⟨l, hq, hlist⟩ := (Session.call_pushes ha s).toList
  rw [hlist, openedIds_append, mem_append, not_or] at hw
  have hlive := (live_iff h'.wf.tab).1 hl
  by_cases hown : Own (s.call a).role sid
  · -- a stream of our own: its SYN was sent before the call, or by it
    have hsyn := ((h'.order.sound.sends sid h0).born (.inl hlive)).1 hown
    have hmem := isSyn_mem_msgs.1 ⟨_, hsyn, rfl⟩
    rw [Session.call_synIds h.wf, mem_append] at hmem
    rcases hmem with hmem | hmem
    · exact .inl ⟨h.live_before hf hl
        (born_of_synIds hmem (h.order.sound.sends sid h0)), hw.1⟩
    · exact .inr hmem
  · -- a stream of the peer: its OPENED was queued before the call
    have hop := mem_openedIds.2 ((h'.order.sound.refuses sid h0).opened hown hlive)
    rw [hq, openedIds_append, mem_append] at hop
    have hop := hop.resolve_right hw.2
    have htold := ne_nil_of_mem (mem_openedIds.1 hop)
    exact .inl ⟨h.live_before hf hl ((h.order.sound.tells sid h0).born htold), hw.1⟩

theorem carries_front (hfr : s.front = some ev)
    (hc : (s.call .nextEvent).Carries sid) : s.Carries sid ∨ ev.openedId = some sid := by
  obtain ⟨h1, h2⟩ := front_some hfr
  obtain ⟨hl, hw⟩ := hc
  have hl : s.Live sid := by
    unfold Session.Live at hl ⊢
    rwa [h2] at hl
  by_cases he : ev.openedId = some sid
  · exact .inr he
  · refine .inl ⟨hl, ?_⟩
    rw [h1, openedIds_cons, mem_append, not_or]
    exact ⟨by simpa using he, hw⟩

theorem not_live_of_reset (h : Served s) {code} (he : .reset sid code ∈ s.queued) :
    ¬ s.Live sid := by
  intro hl
  have h0 := h.sid_ne hl
  exact (h.order.sound.tells sid h0).unreset ((live_iff h.wf.tab).1 hl)
    (mem_notices he (if_pos rfl))

theorem not_live_of_closed (h : Served s) (he : .closed sid ∈ s.queued) (hc : s.Closing sid) :
    ¬ s.Live sid := by
  intro hl
  have h0 := h.sid_ne hl
  obtain ⟨e, he'⟩ := ne_none_iff_exists'.1 ((live_iff h.wf.tab).1 hl)
  refine (h.order.sound.tells sid h0).unclosed e he' ?_ (mem_notices he (if_pos rfl))
  rw [hc e he']
  decide

end Served

theorem View.Step.closing {gone own : Prop} {w pw : ℤ} {v v' : View}
    (h : View.Step gone own w pw v v') (hb : v.Born own)
    (hc : ∀ e, v.live = some e → e.life = .hclLocal) :
    ∀ e, v'.live = some e → e.life = .hclLocal := by
  have hno : ¬ own → ¬ ∀ m ∈ v.inp, m.isSyn = false := fun hown hno => by
    obtain ⟨m, hm, hs⟩ := hb.2 hown
    simp [hno m hm] at hs
  cases h with
  | opened hown _ hs => exact absurd (hb.1 hown) hs
  | refused _ hown _ _ h | accepted hown _ h | acceptedFin hown _ h | acceptedRst hown _ h =>
    exact absurd h (hno hown)
  | wrote hl hlife => exact absurd (hc _ hl) hlife
  | fin p hl hlife => exact absurd (hc _ hl) hlife
  | _ => simp_all

theorem Served.closing_call (h : Served s) (a) (hf : Few (s.call a).toCore)
    (hb : (s.toCore.view sid).Born (Own s.role sid)) (hc : s.Closing sid) :
    (s.call a).Closing sid := by
  have h' := h.call a hf
  by_cases h0 : sid = muxSidControl
  · intro e he
    exact absurd h0 (h'.sid_ne ((live_iff h'.wf.tab).2 (by simp [he])))
  have hsteps := Session.call_steps h.wf (permits_any s a)
  have hinv : ∀ {c'}, Reach Step (fun _ _ => True) s.toCore c' → Few c' →
      (c'.view sid).Born (Own c'.role sid)
        ∧ ∀ e, (c'.view sid).live = some e → e.life = .hclLocal := by
    intro c' hr
    induction hr with
    | start => exact fun _ => ⟨hb, hc⟩
    | step hr _ hs ih =>
      intro hf'
      obtain ⟨h1, h2⟩ := ih (hs.few hf')
      have hv := hs.view (Steps.sound hr h.order.sound (hs.few hf')).ids hf' h0
      exact ⟨hs.role_eq ▸ hv.born h1, hv.closing h1 h2⟩
  exact (hinv hsteps hf).2

theorem Served.reset_gone (h : Served s) (sid code) :
    (s.call (.reset sid code)).dead = true ∨ ¬ (s.call (.reset sid code)).Live sid := by
  rw [show s.call (.reset sid code) = (muxReset s sid code).1 from rfl, muxReset]
  by_cases hd : s.dead = true
  · exact .inl (by rw [if_pos hd]; exact hd)
  rw [if_neg hd]
  rcases hfind : stFind s.tab sid with _ | ⟨i, st⟩
  · exact .inr (by simp [Session.Live, hfind])
  obtain ⟨hg, rfl⟩ := stFind_some h.wf.tab hfind
  refine .inr ?_
  have htab : (stRemove (emit s muxTData muxFRst st.sid (bePut32 code)).1 i).tab
      = s.tab.remove i := by
    rw [stRemove_toCore, emit_toCore _ _ _ _ (le_maxPayload_rst code)]
    rfl
  have hnone := endOf_remove h.wf.tab h.order.sound.ids.distinct hg st.sid
  rw [if_pos rfl, endOf_eq_none (h.wf.tab.remove i), ← stFind_none (h.wf.tab.remove i)] at hnone
  simp only [Session.Live, htab, hnone]
  simp

theorem Served.close_closing (h : Served s) (sid) :
    (s.call (.close sid)).dead = true ∨ (s.call (.close sid)).Closing sid := by
  rw [show s.call (.close sid) = (muxClose s sid).1 from rfl, muxClose]
  by_cases hd : s.dead = true
  · exact .inl (by rw [if_pos hd]; exact hd)
  rw [if_neg hd]
  have hlive : ∀ i st, stFind s.tab sid = some (i, st) →
      (s.toCore.view sid).live = some st.streamEnd := fun i st hfind => by
    obtain ⟨hg, rfl⟩ := stFind_some h.wf.tab hfind
    exact endOf_of_get h.wf.tab h.order.sound.ids.distinct hg
  rcases hfind : stFind s.tab sid with _ | ⟨i, st⟩
  · refine .inr fun e he => ?_
    have := (endOf_eq_none h.wf.tab).2 ((stFind_none h.wf.tab).1 hfind)
    simp [view, this] at he
  have hl := hlive i st hfind
  obtain ⟨hg, rfl⟩ := stFind_some h.wf.tab hfind
  dsimp only
  by_cases hlife : st.life = .hclLocal
  · rw [if_pos hlife]
    refine .inr fun e he => ?_
    rw [hl, some_inj] at he
    exact he ▸ hlife
  rw [if_neg hlife]
  have hp : ([] : Bytes).length ≤ muxMaxPayload := Nat.zero_le _
  have hdis := h.order.sound.ids.distinct
  rcases he : emit s muxTData muxFFin st.sid [] with ⟨s₁, e | ⟨⟩⟩
  · exact .inl (by simp [emit_error hp he])
  · dsimp only
    have hcore := emit_ok hp he
    refine .inr ?_
    by_cases hr : st.life = .hclRemote
    · rw [if_pos hr]
      intro e he
      simp [view, hcore, endOf_remove h.wf.tab hdis hg] at he
    · rw [if_neg hr]
      intro e he
      simp only [view, hcore, put_tab] at he
      rw [endOf_modify h.wf.tab hdis hg, if_pos rfl, some_inj] at he
      · exact he ▸ rfl
      · exact fun _ => rfl

/-! ### Streams that start -/

namespace Served

/-- The id that `mux_open` returns is new, and nothing was sent or told on it. -/
theorem open_fresh (h : Served s) {m} (hf : Few (s.call (.open m)).toCore)
    (ho : (muxOpen s m).2 = .ok sid) :
    sid ∉ synIds s.sent ∧ msgs sid s.sent = [] ∧ notices sid s.queued = []
      ∧ Own s.role sid ∧ sid ≠ muxSidControl := by
  have h' := h.call (.open m) hf
  have hsyn := Session.call_synIds h.wf (.open m)
  have hret : s.returned (.open m) = [sid] := by
    simp [Session.returned, ho, Except.toOption]
  have hsorted := h'.order.sound.ids.sorted
  rw [hsyn, hret, pairwise_append] at hsorted
  have hnew : sid ∉ synIds s.sent := fun hm =>
    UInt32.lt_irrefl _ (hsorted.2.2 sid hm sid (mem_singleton_self _))
  have hown : Own s.role sid := by
    rw [← Session.call_role (a := .open m) h.wf]
    exact (h'.order.sound.ids.own sid (by rw [hsyn, hret]; simp)).1
  have h0 : sid ≠ muxSidControl := by
    rcases muxOpen_cases h.wf m with ⟨-, e, he⟩ | ⟨hok, t, i, s', -, -, ⟨he, -⟩ | ⟨he, -⟩⟩
    · simp [he] at ho
    · rw [he, Except.ok.injEq] at ho
      exact ho ▸ hok.sid_ne
    · simp [he] at ho
  have hborn : ¬ (s.toCore.view sid).Born (Own s.role sid) := fun hb =>
    hnew (isSyn_mem_msgs.1 ⟨_, hb.1 hown, rfl⟩)
  refine ⟨hnew, ?_, ?_, hown, h0⟩
  · by_contra hne
    exact hborn ((h.order.sound.sends sid h0).born (.inr hne))
  · by_contra hne
    exact hborn ((h.order.sound.tells sid h0).born hne)

/-- A stream that is announced was not known before. -/
theorem front_fresh (h : Served s) {m} (hfr : s.front = some (.opened sid m)) :
    sid ∉ openedIds s.popped ∧ notices sid s.popped = [] ∧ ¬ Own s.role sid
      ∧ sid ≠ muxSidControl := by
  have hq : s.queued = s.popped ++ .opened sid m :: (s.call .nextEvent).q.toList := by
    rw [h.queued_eq, (front_some hfr).1]
  have hsorted := h.order.sorted
  rw [hq, openedIds_append, openedIds_cons, openedId, pairwise_append] at hsorted
  have hnew : sid ∉ openedIds s.popped := fun hm =>
    UInt32.lt_irrefl _ (hsorted.2.2 sid hm sid (by simp))
  obtain ⟨-, h0, hown⟩ := h.order.opened sid (by rw [hq]; simp [openedId])
  refine ⟨hnew, ?_, hown, h0⟩
  have htold := (h.order.sound.tells sid h0).announced.opened hown
  have hn : (s.toCore.view sid).told
      = notices sid s.popped ++ .opened :: notices sid (s.call .nextEvent).q.toList := by
    change notices sid s.queued = _
    rw [hq]
    simp [notice]
  rw [hn] at htold
  rcases htold with htold | ⟨t, ht, hno⟩
  · simp at htold
  · rcases hp : notices sid s.popped with _ | ⟨n, ns⟩
    · rfl
    · rw [hp, cons_append, cons.injEq] at ht
      exact absurd (ht.2 ▸ mem_append_right ns mem_cons_self) hno

theorem not_knows_open (h : Served s) {m} (hf : Few (s.call (.open m)).toCore)
    (ho : (muxOpen s m).2 = .ok sid) : ¬ s.Knows sid := by
  obtain ⟨hsyn, -, htold, -⟩ := h.open_fresh hf ho
  rintro (hm | hm)
  · exact hsyn hm
  · have := mem_openedIds.1 (h.opened_of_popped hm)
    simp [htold] at this

theorem not_knows_front (h : Served s) {m} (hfr : s.front = some (.opened sid m)) :
    ¬ s.Knows sid := by
  obtain ⟨hop, -, hown, -⟩ := h.front_fresh hfr
  rintro (hm | hm)
  · exact hown (h.order.sound.ids.own sid hm).1
  · exact hop hm

end Served

end Streams

/-- An HMAC for the runs without a token, which do not use it. -/
def nullHmac : Hmac := fun _ _ => ⟨List.replicate 32 0, rfl⟩

end MuxProtocol
