import MuxProtocol.Proofs.Admission
import MuxProtocol.Proofs.Isolation
import MuxProtocol.Proofs.Link

/-!
# A peer that is refused

A session tells its host of the peer's HELLO before it tells of a stream, and after a GOAWAY of its
own it tells of no further one. So where the host answers a HELLO that fails its check with GOAWAY,
and no stream has been announced by then, none ever is. The frames that were read together with
the HELLO are processed before the host sees it, and that is what a host can not undo.
-/

namespace MuxProtocol

open Intrusive LinearProbe Machine List Option Session Event

/-! ### What a session announces -/

section Announce

variable {c c' : Core} {a : Act} {s : Session} {bad : Event → Prop}

def Event.isHello : Event → Bool
  | .peerHello _ _ _ _ _ _ => true
  | _ => false

/-- An event that tells of no HELLO and no new stream. -/
def Event.Plain (ev : Event) : Prop := ev.isHello = false ∧ ev.openedId = none

/-- No further stream of the peer is accepted. -/
def Core.Closing (c : Core) : Prop := c.localGoaway = true ∨ c.dead = true

/-- What a step adds to the events: no HELLO, and a stream only after one and before GOAWAY; or the
one HELLO. -/
structure Adds (c c' : Core) (l : List Event) : Prop where
  queued : c'.queued = c.queued ++ l
  closing : c.Closing → c'.Closing
  which : (c'.peerHelloSeen = c.peerHelloSeen ∧ (∀ ev ∈ l, ev.isHello = false)
      ∧ (openedIds l = [] ∨ c.peerHelloSeen = true ∧ ¬c.Closing))
    ∨ c.peerHelloSeen = false ∧ c'.peerHelloSeen = true
      ∧ ∃ h r, l = h :: r ∧ h.isHello = true ∧ ∀ ev ∈ r, ev.Plain

/-- What each step adds to the events, of its many kinds. -/
theorem Step.adds (h : Step c a c') : ∃ l, Adds c c' l := by
  have hquiet : ∀ (l : List Event), c'.queued = c.queued ++ l →
      c'.peerHelloSeen = c.peerHelloSeen → (c.Closing → c'.Closing) →
      (∀ ev ∈ l, ev.Plain) → ∃ l, Adds c c' l := by
    intro l h1 h2 h3 h4
    refine ⟨l, h1, h3, .inl ⟨h2, fun ev hev => (h4 ev hev).1, .inl ?_⟩⟩
    exact filterMap_eq_nil_iff.2 fun ev hev => (h4 ev hev).2
  cases h with
  | opened | block | short | wrote | closedHalf | closedFull | use | credit | useOn | creditOn
  | control | drain | stray | credited | strayCredit | creditedOn | pong =>
    exact hquiet [] (by simp) (by simp) (by simp [Core.Closing]) (by simp)
  | openFailed hok =>
    exact hquiet [.fatal muxCodeInternal] (by simp [hok.alive]) (by simp) (by simp [Core.Closing])
      (by simp [Event.Plain, isHello, openedId])
  | spill =>
    exact hquiet (if c.dead then [] else [.fatal muxCodeInternal]) (by simp; split <;> simp)
      (by simp) (by simp [Core.Closing])
      (by split <;> simp [Event.Plain, isHello, openedId])
  | reset ok _ _ hd | refused ok hd | ping ok hd =>
    exact hquiet (if ok then [] else [.fatal muxCodeInternal]) (by simp [hd]; split <;> simp)
      (by simp) (by simp [Core.Closing, hd]; tauto)
      (by split <;> simp [Event.Plain, isHello, openedId])
  | garbled hd | expire hd | offend hd | creditedOver hd | creditedOnOver hd =>
    exact hquiet [.fatal _] (by simp [hd]; rfl) (by simp) (by simp [Core.Closing])
      (by simp [Event.Plain, isHello, openedId])
  | wake | woken | resetBy =>
    exact hquiet [_] (by simp; rfl) (by simp) (by simp [Core.Closing])
      (by simp [Event.Plain, isHello, openedId])
  | notice e _ _ he =>
    refine hquiet [e] (by simp) (by simp) (by simp [Core.Closing]) ?_
    rcases he with ⟨rfl, -⟩ | ⟨rfl, -⟩ <;> simp [Event.Plain, isHello, openedId]
  | @aborted f _ _ _ ok hd =>
    exact hquiet ((if ok then [] else [.fatal muxCodeInternal]) ++ [.reset f.sid 0])
      (by simp [hd]; split <;> simp) (by simp) (by simp [Core.Closing, hd]; tauto)
      (by split <;> simp [Event.Plain, isHello, openedId])
  | @data f =>
    exact hquiet (if f.payload = [] then [] else [.data f.sid f.payload])
      (by simp; split <;> simp) (by simp) (by simp [Core.Closing])
      (by split <;> simp [Event.Plain, isHello, openedId])
  | @fin f | @finLast f =>
    exact hquiet ((if f.payload = [] then [] else [.data f.sid f.payload]) ++ [.closed f.sid])
      (by simp; split <;> simp) (by simp) (by simp [Core.Closing])
      (by split <;> simp [Event.Plain, isHello, openedId])
  | helloBad hd _ hl =>
    exact hquiet [.fatal muxCodeProtocol] (by simp [hd]) (by simp) (by simp [Core.Closing])
      (by simp [Event.Plain, isHello, openedId])
  | @hello _ _ _ _ e hd hs _ _ hl =>
    exact ⟨[e.event], by simp, by simp [Core.Closing],
      .inr ⟨hs, by simp, e.event, [], rfl, rfl, by simp⟩⟩
  | @helloReply _ _ _ _ e ok hd hs _ _ hl =>
    refine ⟨e.event :: if ok then [] else [.fatal muxCodeInternal],
      by simp [hd]; split <;> simp, by simp [Core.Closing, hd]; tauto,
      .inr ⟨hs, by simp, e.event, _, rfl, rfl, ?_⟩⟩
    split <;> simp [Event.Plain, isHello, openedId]
  | @accepted f _ _ hd hok hadm =>
    refine ⟨[.opened f.sid f.payload], by simp, by simp [Core.Closing], .inl ⟨by simp, ?_, .inr ?_⟩⟩
    · simp [isHello]
    · exact ⟨hok.seen, by simp [Core.Closing, hd, hadm.staying]⟩
  | @acceptedFin f _ _ hd hok hadm =>
    refine ⟨[.opened f.sid f.payload, .closed f.sid], by simp, by simp [Core.Closing],
      .inl ⟨by simp, ?_, .inr ?_⟩⟩
    · simp [isHello]
    · exact ⟨hok.seen, by simp [Core.Closing, hd, hadm.staying]⟩
  | @acceptedRst f _ _ hd hok hadm =>
    refine ⟨[.opened f.sid f.payload, .reset f.sid 0], by simp, by simp [Core.Closing],
      .inl ⟨by simp, ?_, .inr ?_⟩⟩
    · simp [isHello]
    · exact ⟨hok.seen, by simp [Core.Closing, hd, hadm.staying]⟩

/-- The events of a session: plain ones, the HELLO, and then no other HELLO. -/
def Ushered (c : Core) : Prop :=
  (c.peerHelloSeen = false ∧ ∀ ev ∈ c.queued, ev.Plain)
    ∨ c.peerHelloSeen = true ∧ ∃ l h r, c.queued = l ++ h :: r ∧ h.isHello = true
      ∧ (∀ ev ∈ l, ev.Plain) ∧ ∀ ev ∈ r, ev.isHello = false

theorem plain_of_openedIds {l} (h : ∀ ev ∈ l, ev.isHello = false) (ho : openedIds l = []) :
    ∀ ev ∈ l, ev.Plain := fun ev hev =>
  ⟨h ev hev, filterMap_eq_nil_iff.1 ho ev hev⟩

theorem Step.ushered (h : Step c a c') (hu : Ushered c) : Ushered c' := by
  obtain ⟨l, hq, -, hw⟩ := h.adds
  rcases hu with ⟨hs, hp⟩ | ⟨hs, l₁, e, r, hr, he, hl, hno⟩
  · rcases hw with ⟨hs', hnoh, ho⟩ | ⟨-, hs', e, r, rfl, he, hr⟩
    · refine .inl ⟨hs'.trans hs, fun ev hev => ?_⟩
      rw [hq, mem_append] at hev
      refine hev.elim (hp ev) (plain_of_openedIds hnoh (ho.resolve_right ?_) ev)
      simp [hs]
    · exact .inr ⟨hs', c.queued, e, r, hq, he, hp, fun ev hev => (hr ev hev).1⟩
  · rcases hw with ⟨hs', hnoh, -⟩ | ⟨hs', -⟩
    · refine .inr ⟨hs'.trans hs, l₁, e, r ++ l, by rw [hq, hr]; simp, he, hl, fun ev hev => ?_⟩
      exact (mem_append.1 hev).elim (hno ev) (hnoh ev)
    · simp [hs] at hs'

theorem Ushered.before {l r} {e : Event} (h : Ushered c) (hq : c.queued = l ++ e :: r)
    (he : e.isHello = true) : ∀ ev ∈ l, ev.Plain := by
  rcases h with ⟨-, hp⟩ | ⟨-, l₁, x, r₁, hr, -, hl, hno⟩
  · simp [(hp e (by simp [hq])).1] at he
  rw [hq] at hr
  rcases append_eq_append_iff.1 hr with ⟨m, rfl, -⟩ | ⟨m, rfl, hm⟩
  · exact fun ev hev => hl ev (mem_append_left _ hev)
  · rcases m with _ | ⟨y, m⟩
    · simpa using hl
    · obtain ⟨-, rfl⟩ := cons_eq_cons.1 hm
      simp [hno e (by simp)] at he

/-- The session has been left, and no stream was announced. -/
def Sealed (c : Core) : Prop := c.Closing ∧ openedIds c.queued = []

theorem Step.sealed (h : Step c a c') (hs : Sealed c) : Sealed c' := by
  obtain ⟨l, hq, hc, hw⟩ := h.adds
  refine ⟨hc hs.1, ?_⟩
  rw [hq, openedIds_append, hs.2, nil_append]
  rcases hw with ⟨-, -, ho | ⟨-, ho⟩⟩ | ⟨-, -, e, r, rfl, he, hr⟩
  · exact ho
  · exact absurd hs.1 ho
  · have hno : openedIds r = [] := filterMap_eq_nil_iff.2 fun ev hev => (hr ev hev).2
    rw [openedIds_cons, hno]
    cases e <;> simp_all [isHello, openedId]

/-! ### Under a host -/

/-- A session in the hands of a host. -/
structure Hosted (s : Session) : Prop where
  wf : s.toCore.Wf
  waiting : s.Queues
  silent : s.Silent
  ushered : Ushered s.toCore

namespace Hosted

theorem call (h : Hosted s) (b) : Hosted (s.call b) := by
  have hsteps := call_steps h.wf (permits_any s b)
  exact ⟨Steps.wf hsteps h.wf, h.waiting.call b, h.silent.call b,
    hsteps.inv h.ushered fun _ _ _ hu _ hs => hs.ushered hu⟩

theorem new {cfg role} (h : muxSessionNew cfg role = some s) : Hosted s ∧ s.queued = [] := by
  obtain ⟨hc, hw, -⟩ := muxSessionNew_spec h
  have hq : s.queued = [] := by rw [hc, startCore_queued]
  refine ⟨⟨hw, ?_, silent_new h, .inl ⟨?_, by simp [hq]⟩⟩, hq⟩
  · rw [Session.Queues, muxSessionNew_queue h]
    exact nil_suffix
  · rw [hc]
    cases role <;> rfl

theorem hello_unique (h : Hosted s) {e e' : Event} (he : e ∈ s.queued) (hh : e.isHello = true)
    (he' : e' ∈ s.queued) (hh' : e'.isHello = true) : e' = e := by
  rcases h.ushered with ⟨-, hp⟩ | ⟨-, l, x, r, hq, -, hl, hr⟩
  · simp [(hp e he).1] at hh
  · have hx : ∀ y ∈ s.queued, y.isHello = true → y = x := by
      intro y hy hyh
      rw [hq, mem_append, mem_cons] at hy
      rcases hy with hy | hy | hy
      · simp [(hl y hy).1] at hyh
      · exact hy
      · simp [hr y hy] at hyh
    rw [hx e he hh, hx e' he' hh']

theorem hello_popped (h : Hosted s) (ho : openedIds s.popped ≠ []) :
    ∃ e ∈ s.popped, e.isHello = true := by
  have hq := h.waiting.queued_eq
  have hsome : ∃ e ∈ s.popped, e.openedId ≠ none := by
    by_contra hno
    push Not at hno
    exact ho (filterMap_eq_nil_iff.2 hno)
  obtain ⟨e, he, hne⟩ := hsome
  rcases h.ushered with ⟨-, hp⟩ | ⟨-, l, x, r, hr, hx, hl, -⟩
  · exact absurd (hp e (hq ▸ mem_append_left _ he)).2 hne
  -- what was taken goes beyond the events before the HELLO
  rw [hr] at hq
  rcases append_eq_append_iff.1 hq with ⟨m, hm, hm'⟩ | ⟨m, hm, -⟩
  · rcases m with _ | ⟨y, m⟩
    · rw [append_nil] at hm
      exact absurd (hl e (hm ▸ he)).2 hne
    · obtain ⟨rfl, -⟩ := cons_eq_cons.1 hm'
      exact ⟨x, by simp [hm], hx⟩
  · exact absurd (hl e (hm ▸ mem_append_left _ he)).2 hne

theorem goaway_closing (s : Session) (reason) : (s.call (.goaway reason)).toCore.Closing := by
  change (muxGoaway s reason).1.toCore.Closing
  unfold muxGoaway
  split
  · exact .inr ‹_›
  · exact .inl (by simp)

theorem goaway_openedIds (h : Hosted s) (reason) :
    openedIds (s.call (.goaway reason)).queued = openedIds s.queued := by
  have hsteps : Reach Step (fun _ b => b.heard = []) s.toCore (s.call (.goaway reason)).toCore :=
    call_steps h.wf (permits_of_host trivial fun _ _ hb _ => hb)
  refine hsteps.inv (I := fun c => openedIds c.queued = openedIds s.queued) rfl
    fun c b c' hc hb hs => ?_
  rw [← hc]
  cases hs with
  | accepted | acceptedFin | acceptedRst => simp [Act.heard] at hb
  | notice e _ _ he => rcases he with ⟨rfl, -⟩ | ⟨rfl, -⟩ <;> simp [openedId]
  | _ => simp [openedId]

end Hosted

/-- An event was taken that the host has answered with GOAWAY, with no stream behind it. -/
def Barred (bad : Event → Prop) (s : Session) : Prop := (∃ ev ∈ s.popped, bad ev) → Sealed s.toCore

/-- The HELLO was taken, and is not among the bad. -/
def Admitted (bad : Event → Prop) (s : Session) : Prop :=
  ∃ ev ∈ s.popped, ev.isHello = true ∧ ¬bad ev

namespace Barred

theorem call {b} (hb : Barred bad s) (h : Hosted s) (hne : b ≠ .nextEvent) :
    Barred bad (s.call b) := by
  intro hex
  rw [(call_pushes hne s).popped] at hex
  exact (call_steps h.wf (permits_any s b)).inv (hb hex) fun _ _ _ hc _ hs => hs.sealed hc

theorem pop {ev} (hb : Barred bad s) (h : Hosted s) (hfr : s.front = some ev) (hev : ¬bad ev) :
    Barred bad (s.call .nextEvent) := by
  rintro ⟨e, he, hbad⟩
  rw [(front_some hfr).2]
  rw [h.waiting.popped_front hfr, mem_append, mem_singleton] at he
  exact hb ⟨e, he.resolve_right (by rintro rfl; exact hev hbad), hbad⟩

theorem refuse {ev : Event} (h : Hosted s) (hfr : s.front = some ev) (hh : ev.isHello = true)
    (hlone : openedIds (s.call .nextEvent).q.toList = []) (reason) :
    Barred bad ((s.call .nextEvent).call (.goaway reason)) := by
  intro _
  have h' := h.call .nextEvent
  refine ⟨Hosted.goaway_closing _ _, ?_⟩
  have hq := h.waiting.queued_eq
  rw [(front_some hfr).1] at hq
  have hno : openedIds s.popped = [] :=
    filterMap_eq_nil_iff.2 fun e he => (h.ushered.before hq hh e he).2
  rw [h'.goaway_openedIds, (front_some hfr).2, hq, openedIds_append, openedIds_cons, hno, hlone]
  cases ev <;> simp_all [isHello, openedId]

theorem admitted (hb : Barred bad s) (h : Hosted s) (ho : openedIds s.popped ≠ []) :
    Admitted bad s := by
  obtain ⟨e, he, hh⟩ := h.hello_popped ho
  refine ⟨e, he, hh, fun hbad => ho ?_⟩
  have hnil := (hb ⟨e, he, hbad⟩).2
  rw [h.waiting.queued_eq, openedIds_append] at hnil
  exact (append_eq_nil_iff.1 hnil).1

end Barred

/-- A session whose host refuses the bad. -/
def Gated (bad : Event → Prop) (s : Session) : Prop := Hosted s ∧ Barred bad s

theorem Gated.call {b} (h : Gated bad s) (hne : b ≠ .nextEvent) : Gated bad (s.call b) :=
  ⟨h.1.call b, h.2.call h.1 hne⟩

theorem Gated.new {cfg role} (h : muxSessionNew cfg role = some s) : Gated bad s := by
  obtain ⟨hh, hq⟩ := Hosted.new h
  refine ⟨hh, fun ⟨ev, hev, _⟩ => ?_⟩
  simp [popped, hq] at hev

theorem Hosted.not_admitted (h : Hosted s) {e : Event} (he : e ∈ s.queued) (hh : e.isHello = true)
    (hbad : bad e) : ¬Admitted bad s := by
  rintro ⟨e', he', hh', hno⟩
  have hq : e' ∈ s.queued := h.waiting.queued_eq ▸ mem_append_left _ he'
  exact hno (h.hello_unique he hh hq hh' ▸ hbad)

theorem Admitted.call {b} (h : Admitted bad s) (hh : Hosted s) : Admitted bad (s.call b) := by
  obtain ⟨e, he, h'⟩ := h
  exact ⟨e, (hh.waiting.popped_call b).subset he, h'⟩

end Announce

/-! ### The check -/

section Check

variable (hmac : Hmac) (token : Option Bytes)

/-- A HELLO with a proof that does not pass, where a token is configured. -/
def Event.refused : Event → Bool
  | .peerHello _ _ _ _ auth nonce => token.any fun t => !proofPasses hmac t auth nonce
  | _ => false

/-- The HELLOs that are refused. -/
abbrev Refusals : Event → Prop := fun ev => ev.refused hmac token = true

theorem Event.isHello_of_refused {ev : Event} (h : ev.refused hmac token = true) :
    ev.isHello = true := by
  cases ev with
  | peerHello => rfl
  | _ => cases h

/-- If the next event is a HELLO that is refused, no new stream waits behind it. -/
def Session.LoneHello (s : Session) : Prop :=
  ∀ ev ∈ s.front, ev.refused hmac token = true → openedIds (s.call .nextEvent).q.toList = []

instance Session.LoneHello.decidable (s : Session) : Decidable (s.LoneHello hmac token) :=
  inferInstanceAs (Decidable (∀ ev ∈ s.front, _))

/-- The session after an event was handled that may be a HELLO. -/
def Session.greet (s : Session) (ev : Event) : Session :=
  if ev.refused hmac token then (s.call .nextEvent).call (.goaway muxCodeRefused)
  else s.call .nextEvent

variable {hmac token} {s : Session} {ev : Event}

theorem Gated.greet (h : Gated (Refusals hmac token) s) (hfr : s.front = some ev)
    (hl : s.LoneHello hmac token) : Gated (Refusals hmac token) (s.greet hmac token ev) := by
  unfold Session.greet
  split
  · rename_i hr
    exact ⟨(h.1.call _).call _,
      .refuse h.1 hfr (isHello_of_refused _ _ hr) (hl ev hfr hr) _⟩
  · rename_i hr
    exact ⟨h.1.call _, h.2.pop h.1 hfr hr⟩

end Check

/-! ### The library -/

namespace LpClient

variable {c c' : LpClient} {a : Act} {s : Session} {p : ℕ} {g : LpStream → LpStream}
  {hmac : Hmac} {cfg : LpConfig}

@[simp] theorem modify_cfg : (c.modify p g).cfg = c.cfg := rfl

@[simp] theorem notifyRaise_cfg : c.notifyRaise.cfg = c.cfg := by
  unfold notifyRaise
  split <;> rfl

@[simp] theorem readyMark_cfg {bits} : (c.readyMark p bits).cfg = c.cfg := by
  unfold readyMark
  split
  · rfl
  · rw [notifyRaise_cfg, modify_cfg]

@[simp] theorem pendingPush_cfg : (c.pendingPush p).cfg = c.cfg := by
  unfold pendingPush
  split <;> rfl

@[simp] theorem streamTryFree_cfg : (c.streamTryFree p).cfg = c.cfg := by
  rcases streamTryFree_cases c p with h | ⟨st, hp, hd, hc, h1, h2⟩
  · rw [h]
  · simp [streamTryFree, hp, hd, hc, h1, h2]

@[simp] theorem onOpened_cfg {sid m} : (c.onOpened sid m).cfg = c.cfg := by
  unfold onOpened regPut
  dsimp only
  split <;> exact notifyRaise_cfg

theorem unlink_foldl_cfg : ∀ (l : List ℕ) (c : LpClient), (l.foldl unlink c).cfg = c.cfg
  | [], _ => rfl
  | _ :: l, _ => unlink_foldl_cfg l _

theorem Deed.cfg_eq (h : Deed c a c') : c'.cfg = c.cfg := by
  cases h with
  | opened => exact onOpened_cfg
  | data | room | lose => exact readyMark_cfg
  | closed | reset => exact streamTryFree_cfg.trans readyMark_cfg
  | retire | stall | reap | forget => exact streamTryFree_cfg
  | writable | read | put | close => exact pendingPush_cfg
  | rearm => exact notifyRaise_cfg
  | hangUp => exact unlink_foldl_cfg _ _
  | _ => rfl

theorem move_cfg (hi : Links c) (m) : (c.move hmac m).cfg = c.cfg :=
  (move_deeds hmac hi m).inv (I := fun c' => c'.cfg = c.cfg) rfl fun _ _ _ h _ hs =>
    hs.cfg_eq.trans h

theorem nextEvent_mux {ev} (hs : c.mux = some s) (hfr : s.front = some ev) :
    (c.nextEvent hmac).mux = some (s.greet hmac c.cfg.token ev) := by
  have hcall : (c.call .nextEvent).mux = some (s.call .nextEvent) := by rw [call, hs]; rfl
  have hev : (muxNextEvent s).2 = some ev := hfr
  unfold nextEvent greet
  rw [hs, bind_some, hev]
  dsimp only
  cases ev with
  | peerHello w ms iw pid auth nonce =>
    simp only [onEvent, onPeerHello, refused]
    rw [show (c.call .nextEvent).cfg = c.cfg from rfl]
    rcases c.cfg.token with _ | t
    · exact hcall
    · rcases hp : proofPasses hmac t auth nonce
      · simp [call, hs, hp]
      · simp [call, hs, hp]
  | opened => exact (Kin.refl _).onOpened.mux.trans hcall
  | data sid b =>
    simp only [onEvent]
    split
    · exact hcall
    · exact (Kin.refl _).modify.readyMark.mux.trans hcall
  | closed sid | reset sid =>
    simp only [onEvent]
    split
    · exact hcall
    · exact (Kin.refl _).modify.readyMark.streamTryFree.mux.trans hcall
  | writable sid =>
    simp only [onEvent, onWritable]
    split
    · exact hcall
    · split
      · exact (Kin.refl _).pendingPush.mux.trans hcall
      · exact hcall
  | capacity | goaway | fatal => exact hcall

theorem nextEvent_of_none (h : c.mux.bind front = none) : c.nextEvent hmac = c := by
  have h' : (c.mux.bind fun s => (muxNextEvent s).2) = none := h
  unfold nextEvent
  rw [h']

/-- A HELLO that is refused has no new stream behind it when the host takes it. -/
def Lone (hmac : Hmac) (c : LpClient) : Move → Prop
  | .event => ∀ s ∈ c.mux, s.LoneHello hmac c.cfg.token
  | _ => True

instance Lone.decidable (hmac : Hmac) (c : LpClient) :
    ∀ m, Decidable (c.Lone hmac m)
  | .event => inferInstanceAs (Decidable (∀ s ∈ c.mux, s.LoneHello hmac c.cfg.token))
  | .app _ | .up _ | .work | .stash _ | .recv | .timer _ | .advance _ | .down =>
    inferInstanceAs (Decidable True)

/-- The session of the client is guarded by the check. -/
def Guarded (hmac : Hmac) (token : Option Bytes) (c : LpClient) : Prop :=
  ∀ s, c.mux = some s → Gated (Refusals hmac token) s

/-- A deed other than an event leaves the guard alone. -/
theorem Deed.guarded {token} (h : Deed c a c') (hi : Links c) (hg : c.Guarded hmac token)
    (hev : ∀ ev, a ≠ .event ev) : c'.Guarded hmac token := by
  intro s' hs'
  by_cases hup : a = .up
  · subst hup
    cases h with
    | up hfd hn =>
      cases hs'
      exact .new hn
  by_cases hdown : a = .hangUp
  · subst hdown
    cases h
    cases hs'
  have hcall : ∀ b : Call, b ≠ .nextEvent → c'.mux = c.mux.map (·.call b) →
      Gated (Refusals hmac token) s' := by
    intro b hb hm
    obtain ⟨s, hs, rfl⟩ := map_eq_some_iff.1 (hm.symm.trans hs')
    exact (hg s hs).call hb
  cases h.called hi hup hdown with
  | none h => exact hg s' (h.mux.symm.trans hs')
  | idle hb h => exact hcall _ hb.ne_nextEvent h.mux
  | event => exact absurd rfl (hev _)
  | issue hp hin hb h =>
    refine hcall _ ?_ h.mux
    rcases hb with rfl | rfl | rfl <;> simp

/-- Every move keeps the guard, where no new stream waits behind a HELLO that is refused. -/
theorem move_guarded (hi : Links c) (hg : c.Guarded hmac c.cfg.token) {m} (hok : c.Lone hmac m) :
    (c.move hmac m).Guarded hmac c.cfg.token := by
  by_cases hm : m = .event
  · subst hm
    rcases hev : c.mux.bind front with _ | ev
    · rw [move, nextEvent_of_none hev]
      exact hg
    · intro s' hs'
      obtain ⟨s, hs, hfr⟩ := bind_eq_some_iff.1 hev
      rw [move, nextEvent_mux hs hfr, some_inj] at hs'
      subst hs'
      exact (hg s hs).greet hfr (hok s hs)
  · refine ((move_deeds hmac hi m).inv (I := fun c' => Links c' ∧ c'.Guarded hmac c.cfg.token)
      ⟨hi, hg⟩ fun _ a _ h ha hs => ⟨hs.links h.1, hs.guarded h.1 h.2 ?_⟩).2
    rintro ev rfl
    exact hm ha

theorem reach_guarded (hr : Reach (ofFun (move hmac)) (Lone hmac) (lpConnect cfg) c) :
    Sound c ∧ c.cfg = cfg ∧ c.Guarded hmac cfg.token := by
  refine hr.inv (I := fun c => Sound c ∧ c.cfg = cfg ∧ c.Guarded hmac cfg.token)
    ⟨sound_start cfg, rfl, fun s hs => by cases hs⟩ fun c m c' h hok hs => ?_
  obtain ⟨h1, rfl, h3⟩ := h
  rw [hs]
  exact ⟨move_sound h1 m, move_cfg h1.links m, move_guarded h1.links h3 hok⟩

/-- No stream of the session has reached the application or will: none was told of, and those in
the queues are of other sessions. -/
structure Unserved (c : LpClient) (s : Session) : Prop where
  untold : openedIds s.popped = []
  none : ∀ p st, c.heap p = some st → st.born ≠ c.epoch
  accept : ∀ p ∈ c.accept, ∃ st, c.heap p = some st ∧ st.born ≠ c.epoch
  ready : ∀ p ∈ c.ready, ∃ st, c.heap p = some st ∧ st.born ≠ c.epoch

/-- Once a HELLO was refused, nothing is served in any state that is reached. -/
theorem reach_unserved (hr : Reach (ofFun (move hmac)) (Lone hmac) (lpConnect cfg) c)
    (hs : c.mux = some s) {ev : Event} (hev : ev ∈ s.queued)
    (hbad : ev.refused hmac cfg.token = true) : c.Unserved s := by
  obtain ⟨hsound, -, hg⟩ := reach_guarded hr
  obtain ⟨hh, hb⟩ := hg s hs
  have huntold : openedIds s.popped = [] := by
    by_contra ho
    exact hh.not_admitted hev (isHello_of_refused _ _ hbad) hbad (hb.admitted hh ho)
  have hnone : ∀ p st, c.heap p = some st → st.born ≠ c.epoch := by
    intro p st hp hborn
    obtain ⟨s', hs', hm⟩ := hsound.opened_of_current hp ⟨hborn, by simp [hs]⟩
    obtain rfl := some.inj (hs.symm.trans hs')
    simp [huntold] at hm
  have hin : ∀ {flag : LpStream → Prop} {l : List ℕ}, Threaded flag c.heap l → ∀ p ∈ l,
      ∃ st, c.heap p = some st ∧ st.born ≠ c.epoch := by
    intro flag l hl p hp
    obtain ⟨st, hst, -⟩ := (hl.2 p).1 hp
    exact ⟨st, hst, hnone p st hst⟩
  exact ⟨huntold, hnone, hin hsound.links.accept, hin hsound.links.ready⟩

end LpClient

end MuxProtocol
