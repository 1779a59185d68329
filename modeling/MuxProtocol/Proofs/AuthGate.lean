import MuxProtocol.Proofs.Edits
import MuxProtocol.Proofs.Lifetime

/-!
# The authentication gate

What comes of a peer whose proof does not pass, in the router and in the library.
-/

namespace MuxProtocol

open Machine List Option

variable {ne nw : ℕ}

namespace Router

variable {e e' : Router ne nw} {t t' : Tunnel ne nw} {s : Session} {cfg : EpConfig}
  {hmac : Hmac} {token : Option Bytes}

/-- A HELLO of an edge that is refused has no new stream behind it when the router takes it. -/
def Lone (hmac : Hmac) (e : Router ne nw) : Move ne nw → Prop
  | .event (.edge i) => ∀ s ∈ (e.conn (.edge i)).mux, s.LoneHello hmac e.cfg.token
  | _ => True

instance Lone.decidable (hmac : Hmac) (e : Router ne nw) :
    ∀ m, Decidable (e.Lone hmac m)
  | .event (.edge i) =>
    inferInstanceAs (Decidable (∀ s ∈ (e.conn (.edge i)).mux, s.LoneHello hmac e.cfg.token))
  | .event (.worker _) | .tick .. | .finish .. | .timer .. | .stash .. | .recv _ | .advance ..
  | .teardown .. => inferInstanceAs (Decidable True)

/-- A tunnel that is ready or has routes has admitted its peer, and an edge that was refused has
opened nothing. -/
structure Guarded (hmac : Hmac) (token : Option Bytes) (e : Router ne nw) :
    Prop where
  base : Base (Admitted (Refusals hmac token)) e
  cfg : e.cfg.token = token
  barred : ∀ i s, (e.conn (.edge i)).mux = some s → Barred (Refusals hmac token) s

theorem admitted_call {bad : Event → Prop} (s : Session) (a) (hh : Hosted s) (h : Admitted bad s) :
    Admitted bad (s.call a) := h.call hh

/-- An event that is handled admits no tunnel but by the check of its HELLO. -/
theorem Guarded.event (h : Guarded hmac token e) (hs : (e.conn t).mux = some s) {ev}
    (hfr : s.front = some ev) (hlone : e.Lone hmac (.event t))
    (hh : Handled hmac (e.call t .nextEvent) t ev e') : Guarded hmac token e' := by
  have hhost := h.base.hosted t s hs
  have hs₁ : ((e.call t .nextEvent).conn t).mux = some (s.call .nextEvent) := by
    rw [call_mux_self, hs]
    rfl
  have hmem : ev ∈ (s.call .nextEvent).popped := by simp [hhost.waiting.popped_front hfr]
  have htok : (e.call t .nextEvent).cfg.token = token := by rw [call_cfg, h.cfg]
  -- the edges, if the event is no HELLO that is refused
  have hpop : ev.refused hmac token = false → ∀ i s,
      ((e.call t .nextEvent).conn (.edge i)).mux = some s → Barred (Refusals hmac token) s := by
    intro hev i s' hs'
    obtain ⟨s₀, hs₀, rfl⟩ := (call_mux_eq_some e t _).1 hs'
    split
    · rename_i ht
      subst ht
      obtain rfl := some.inj (hs.symm.trans hs₀)
      exact (h.barred i s hs).pop hhost hfr (by simp [hev])
    · exact h.barred i s₀ hs₀
  have hbase : Base (Admitted (Refusals hmac token)) e' := by
    refine (h.base.call admitted_call t .nextEvent).handled admitted_call hh (fun hhello hev => ?_)
      fun hopen hup => ?_
    · rw [htok] at hev
      exact ⟨_, hs₁, ev, hmem, hhello, by simp [hev]⟩
    · cases t with
      | edge i =>
        have hev : ev.refused hmac token = false := by
          cases ev with
          | peerHello => simp [Event.openedId] at hopen
          | _ => rfl
        refine ⟨_, hs₁, (hpop hev i _ hs₁).admitted (hhost.call _) fun hnil => hopen ?_⟩
        exact filterMap_eq_nil_iff.1 hnil ev hmem
      | worker j => cases hup
  refine ⟨hbase, hh.cfg_eq ▸ htok, ?_⟩
  have hedits : ∀ {e'' : Router ne nw}, Edits (e.call t .nextEvent) e'' →
      ev.refused hmac token = false → ∀ i s, (e''.conn (.edge i)).mux = some s →
      Barred (Refusals hmac token) s := by
    intro e'' hed hev i s hs
    refine (hed.sessions (Q := Gated (Refusals hmac token)) (fun _ _ ha hq => hq.call ha)
      (fun s hs => ?_) s hs).2
    exact ⟨(h.base.call admitted_call t .nextEvent).hosted _ s hs, hpop hev i s hs⟩
  intro i s' hs'
  cases hh with
  | edits hev hed => exact hedits hed (htok ▸ hev) i s' hs'
  | greet hhello hev hm => exact hpop (htok ▸ hev) i s' (hm.mux _ ▸ hs')
  | route hr hed =>
    rw [routeNew_mux] at hs'
    exact hedits hed rfl i s' hs'
  | refuse hev =>
    rw [htok] at hev
    obtain ⟨s₁, hs₁', rfl⟩ := (call_mux_eq_some _ t _).1 hs'
    split
    · rename_i ht
      subst ht
      obtain rfl := some.inj (hs₁.symm.trans hs₁')
      refine .refuse hhost hfr (Event.isHello_of_refused _ _ hev) ?_ _
      exact hlone s hs ev hfr (h.cfg.symm ▸ hev)
    · rename_i ht
      rw [call_of_ne _ _ _ ht] at hs₁'
      exact h.barred i s₁ hs₁'

/-- Every move keeps the guard, where no new stream waits behind a HELLO that is refused. -/
theorem Guarded.move (h : Guarded hmac token e) {m} (hok : e.Lone hmac m) :
    Guarded hmac token (e.move hmac m) := by
  by_cases hm : ∃ t, m = .event t
  · obtain ⟨t, rfl⟩ := hm
    rcases nextEvent_cases hmac e t with heq | ⟨s, ev, hs, hfr, heq⟩
    · rw [Router.move, heq]
      exact h
    · rw [Router.move, heq]
      exact h.event hs hfr hok (onEvent_handled hmac _ t ev)
  · have hno : ∀ t, m ≠ .event t := fun t ht => hm ⟨t, ht⟩
    refine ⟨h.base.move admitted_call hno, (move_cfg e m).symm ▸ h.cfg, fun i s hs => ?_⟩
    exact (move_sessions hno (Q := Gated (Refusals hmac token)) (fun _ _ ha hq => hq.call ha)
      (fun _ _ hnew => .new hnew) (fun s hs => ⟨h.base.hosted _ s hs, h.barred i s hs⟩) s hs).2

theorem guarded_start (cfg : EpConfig) : Guarded hmac cfg.token (start ne nw cfg) := by
  refine ⟨⟨⟨by simp [start], by simp [start], by simp [start]⟩, ?_, ?_, ?_, ?_, ?_⟩, rfl, ?_⟩
  all_goals simp [start, routeOf]

theorem reach_guarded (hr : Reach (ofFun (move hmac)) (Lone hmac) (start ne nw cfg) e) :
    Guarded hmac cfg.token e :=
  hr.inv (guarded_start cfg) fun _ _ _ h hok he => by
    rw [he]
    exact h.move hok

/-- Only the tunnel `t` has changed, and no route. -/
structure Alone (t : Tunnel ne nw) (e e' : Router ne nw) : Prop where
  heap : e'.heap = e.heap
  next : e'.next = e.next
  others : ∀ t', t' ≠ t → e'.conn t' = e.conn t'

theorem Alone.call (h : Alone t e e') (a) : Alone t e (e'.call t a) :=
  ⟨by rw [call_heap, h.heap], by rw [call_next, h.next],
    fun t' ht => (call_of_ne _ _ _ ht).trans (h.others t' ht)⟩

theorem Alone.modify (h : Alone t e e') (g) : Alone t e (e'.modify t g) :=
  ⟨h.heap, h.next, fun t' ht => (modify_of_ne _ _ _ ht).trans (h.others t' ht)⟩

/-- Without a route, an event that opens no stream has an effect on its tunnel only. -/
theorem Alone.onEvent (h : Alone t e e') (hf : ∀ sid, e'.find t sid = none) {ev : Event}
    (hev : t.side = .up → ev.openedId = none) : Alone t e (e'.onEvent hmac t ev) := by
  cases t with
  | edge i =>
    cases ev with
    | peerHello =>
      simp only [Router.onEvent, onUpEvent]
      split
      · exact h.modify _
      · exact h.call _
    | opened => simp [Tunnel.side, Event.openedId] at hev
    | data sid => simpa [Router.onEvent, onUpEvent, onStreamData, hf] using h
    | writable sid => simpa [Router.onEvent, onUpEvent, onWritable, hf] using h
    | closed sid => simpa [Router.onEvent, onUpEvent, onStreamClosed, hf] using h
    | reset sid => simpa [Router.onEvent, onUpEvent, hf] using h
    | capacity | goaway | fatal => exact h
  | worker j =>
    cases ev with
    | peerHello =>
      simp only [Router.onEvent, onWorkerEvent]
      split
      · exact h.modify _
      · exact h.call _
    | opened => exact h.call _
    | capacity =>
      simp only [Router.onEvent, onWorkerEvent]
      exact h.modify _
    | data sid => simpa [Router.onEvent, onWorkerEvent, onStreamData, hf] using h
    | writable sid => simpa [Router.onEvent, onWorkerEvent, onWritable, hf] using h
    | closed sid => simpa [Router.onEvent, onWorkerEvent, onStreamClosed, hf] using h
    | reset sid => simpa [Router.onEvent, onWorkerEvent, hf] using h
    | goaway | fatal => exact h

/-- The peer of a tunnel is not served: the tunnel is not among those that are balanced over and has
no route, an edge has told of no stream, and whatever event comes next, nothing comes of it in
another tunnel. -/
structure Unrouted (hmac : Hmac) (e : Router ne nw) (t : Tunnel ne nw)
    (s : Session) : Prop where
  ready : (e.conn t).ready = false
  routes : ∀ sid, e.find t sid = none
  untold : t.side = .up → openedIds s.popped = []
  still : Alone t e (e.nextEvent hmac t)

theorem Guarded.unrouted (h : Guarded hmac token e) (hs : (e.conn t).mux = some s) {b : Event}
    (hb : b ∈ s.queued) (hbad : b.refused hmac token = true) : e.Unrouted hmac t s := by
  have hno : ∀ s', Hosted s' → b ∈ s'.queued → ¬Admitted (Refusals hmac token) s' :=
    fun s' hs' hm => hs'.not_admitted hm (Event.isHello_of_refused _ _ hbad) hbad
  have hhost := h.base.hosted t s hs
  have hroutes : ∀ sid, e.routeOf (t, sid) = none := by
    intro sid
    by_contra hne
    obtain ⟨p, hp⟩ := ne_none_iff_exists'.1 hne
    obtain ⟨s', hs', hadm⟩ := h.base.routed _ p hp
    obtain rfl := some.inj (hs.symm.trans hs')
    exact hno s hhost hb hadm
  have hfind : ∀ sid, e.find t sid = none := fun sid => by
    rw [find, show (e.conn t).routes.lookup sid = none from hroutes sid]
    rfl
  refine ⟨?_, hfind, fun hup => ?_, ?_⟩
  · by_contra hr
    obtain ⟨s', hs', hadm⟩ := h.base.ready t (by simpa using hr)
    obtain rfl := some.inj (hs.symm.trans hs')
    exact hno s hhost hb hadm
  · cases t with
    | edge i =>
      by_contra ho
      exact hno s hhost hb ((h.barred i s hs).admitted hhost ho)
    | worker j => cases hup
  · rcases nextEvent_cases hmac e t with heq | ⟨s', ev, hs', hfr, heq⟩
    · rw [heq]
      exact ⟨rfl, rfl, fun _ _ => rfl⟩
    obtain rfl := some.inj (hs.symm.trans hs')
    rw [heq]
    have hself : Alone t e e := ⟨rfl, rfl, fun _ _ => rfl⟩
    refine (hself.call .nextEvent).onEvent (fun sid => ?_) fun hup => ?_
    · rw [find, call_routes, show (e.conn t).routes.lookup sid = none from hroutes sid]
      rfl
    · cases t with
      | edge i =>
        by_contra ho
        have hev : ¬Refusals hmac token ev := by
          cases ev with
          | opened => simp [Refusals, Event.refused]
          | _ => simp [Event.openedId] at ho
        -- the stream would be told of, and its peer be admitted
        refine hno _ (hhost.call .nextEvent) ((front_some hfr).2 ▸ hb)
          (((h.barred i s hs).pop hhost hfr hev).admitted (hhost.call _) fun hnil => ho ?_)
        refine filterMap_eq_nil_iff.1 hnil ev ?_
        simp [hhost.waiting.popped_front hfr]
      | worker j => cases hup

end Router

/-! ### The result -/

/-- A peer that is refused, where no stream of it waits when it is. -/
theorem refused_peer_not_served (hmac : Hmac) :
    (∀ (ne nw : ℕ) (cfg : EpConfig) (e : Router ne nw),
      Reach (ofFun (Router.move hmac)) (Router.Lone hmac) (Router.start ne nw cfg) e →
      ∀ t s, (e.conn t).mux = some s → (∃ ev ∈ s.queued, ev.refused hmac cfg.token = true) →
      e.Unrouted hmac t s)
    ∧ ∀ (cfg : LpConfig) (c : LpClient),
      Reach (ofFun (LpClient.move hmac)) (LpClient.Lone hmac) (lpConnect cfg) c →
      ∀ s, c.mux = some s → (∃ ev ∈ s.queued, ev.refused hmac cfg.token = true) →
      c.Unserved s := by
  refine ⟨fun ne nw cfg e hr t s hs ⟨ev, hev, hbad⟩ => ?_, fun cfg c hr s hs ⟨ev, hev, hbad⟩ => ?_⟩
  · exact (Router.reach_guarded hr).unrouted hs hev hbad
  · exact LpClient.reach_unserved hr hs hev hbad

/-- With a token. -/
def Router.keyed : Router 1 1 := Router.start 1 1 { token := some [1] }

def LpClient.keyed : LpClient := lpConnect { listens := true, token := some [1] }

/-- An edge with no proof opens a stream, in a read of its own. -/
def Router.barredRun : List (Router.Move 1 1) :=
  Router.plugIn (.edge 0) ++ Router.hears (.edge 0) (synFrame 2 [])

def LpClient.barredRun : List LpClient.Move := LpClient.plugIn ++ LpClient.hears (synFrame 1 [])

theorem refused_peer_not_served_barredRun :
    (∃ e s, e = Router.barredRun.foldl (Router.move nullHmac) Router.keyed
      ∧ (e.conn (.edge 0)).mux = some s ∧ (∃ ev ∈ s.queued, ev.refused nullHmac (some [1]) = true)
      ∧ e.Unrouted nullHmac (.edge 0) s)
    ∧ ∃ c s, c = LpClient.barredRun.foldl (LpClient.move nullHmac) LpClient.keyed
      ∧ c.mux = some s ∧ (∃ ev ∈ s.queued, ev.refused nullHmac (some [1]) = true)
      ∧ c.Unserved s := by
  obtain ⟨hrouter, hlib⟩ := refused_peer_not_served nullHmac
  constructor
  · have hrun : Reach (ofFun (Router.move nullHmac)) (Router.Lone nullHmac) Router.keyed
        (Router.barredRun.foldl (Router.move nullHmac) Router.keyed) :=
      .foldl Router.barredRun (by decide +kernel)
    have hbad : ((Router.barredRun.foldl (Router.move nullHmac) Router.keyed).conn
        (.edge 0)).mux.any (fun s => s.queued.any (Event.refused nullHmac (some [1]))) = true := by
      decide +kernel
    obtain ⟨s, hs, hev⟩ := (Option.any_eq_true _ _).1 hbad
    have hev' := List.any_eq_true.1 hev
    exact ⟨_, s, rfl, hs, hev', hrouter 1 1 _ _ hrun _ s hs hev'⟩
  · have hrun : Reach (ofFun (LpClient.move nullHmac)) (LpClient.Lone nullHmac) LpClient.keyed
        (LpClient.barredRun.foldl (LpClient.move nullHmac) LpClient.keyed) :=
      .foldl LpClient.barredRun (by decide +kernel)
    have hbad : (LpClient.barredRun.foldl (LpClient.move nullHmac) LpClient.keyed).mux.any
        (fun s => s.queued.any (Event.refused nullHmac (some [1]))) = true := by decide +kernel
    obtain ⟨s, hs, hev⟩ := (Option.any_eq_true _ _).1 hbad
    have hev' := List.any_eq_true.1 hev
    exact ⟨_, s, rfl, hs, hev', hlib _ _ hrun s hs hev'⟩

/-- An edge with no proof sends its HELLO, a SYN and a byte in one read. -/
def Router.coalescedRun : List (Router.Move 1 1) :=
  Router.plugIn (.worker 0)
      (initSession { auth := List.replicate 32 0, nonce := List.replicate 16 0 } .acceptor).toCore
    ++ Router.plugIn (.edge 0) (initSession {} .acceptor).toCore
      (encode (synFrame 2 []) ++ encode (dataFrame 2 [7]))
    ++ [.event (.edge 0), .event (.edge 0)]

def LpClient.coalescedRun : List LpClient.Move :=
  [.up zeroNonce,
    .stash (encode (helloFrame (initSession {} .dialer).toCore false) ++ encode (synFrame 1 [])),
    .recv, .event, .event]

/-- The stream is routed, and the byte sent to the worker; the library has the stream accepted. -/
theorem refused_peer_served_coalescedRun :
    (∃ (e : Router 1 1) (s w : Session),
      Reach (ofFun (Router.move nullHmac)) (fun _ _ => True) Router.keyed e
      ∧ (e.conn (.edge 0)).mux = some s ∧ (∃ ev ∈ s.queued, ev.refused nullHmac (some [1]) = true)
      ∧ (e.find (.edge 0) 2).isSome = true
      ∧ (e.conn (.worker 0)).mux = some w ∧ dataFrame 1 [7] ∈ w.sent)
    ∧ ∃ (c : LpClient) (s : Session) (st : LpStream),
      Reach (ofFun (LpClient.move nullHmac)) (fun _ _ => True) LpClient.keyed c
      ∧ c.mux = some s ∧ (∃ ev ∈ s.queued, ev.refused nullHmac (some [1]) = true)
      ∧ c.accept = [0] ∧ c.heap 0 = some st ∧ st.born = c.epoch := by
  constructor
  · have hrun : Reach (ofFun (Router.move nullHmac)) (fun _ _ => True) Router.keyed
        (Router.coalescedRun.foldl (Router.move nullHmac) Router.keyed) :=
      .foldl Router.coalescedRun (by decide +kernel)
    have hfacts : let e := Router.coalescedRun.foldl (Router.move nullHmac) Router.keyed;
        (e.conn (.edge 0)).mux.any (fun s => s.queued.any (Event.refused nullHmac (some [1])))
          ∧ (e.find (.edge 0) 2).isSome
          ∧ (e.conn (.worker 0)).mux.any (fun w => dataFrame 1 [7] ∈ w.sent) := by decide +kernel
    generalize Router.coalescedRun.foldl (Router.move nullHmac) Router.keyed = e at hrun hfacts
    obtain ⟨hbad, hfind, hsent⟩ := hfacts
    obtain ⟨s, hs, hev⟩ := (Option.any_eq_true _ _).1 hbad
    obtain ⟨w, hw, hmem⟩ := (Option.any_eq_true _ _).1 hsent
    exact ⟨e, s, w, hrun, hs, List.any_eq_true.1 hev, hfind, hw, of_decide_eq_true hmem⟩
  · have hrun : Reach (ofFun (LpClient.move nullHmac)) (fun _ _ => True) LpClient.keyed
        (LpClient.coalescedRun.foldl (LpClient.move nullHmac) LpClient.keyed) :=
      .foldl LpClient.coalescedRun (by decide +kernel)
    have hfacts : let c := LpClient.coalescedRun.foldl (LpClient.move nullHmac) LpClient.keyed;
        c.mux.any (fun s => s.queued.any (Event.refused nullHmac (some [1]))) ∧ c.accept = [0]
          ∧ (c.heap 0).any (fun st => st.born = c.epoch) := by decide +kernel
    generalize LpClient.coalescedRun.foldl (LpClient.move nullHmac) LpClient.keyed = c
      at hrun hfacts
    obtain ⟨hbad, hacc, hborn⟩ := hfacts
    obtain ⟨s, hs, hev⟩ := (Option.any_eq_true _ _).1 hbad
    obtain ⟨st, hst, hb⟩ := (Option.any_eq_true _ _).1 hborn
    exact ⟨c, s, st, hrun, hs, List.any_eq_true.1 hev, hacc, hst, of_decide_eq_true hb⟩

end MuxProtocol
