import Mathlib.Logic.Relation
import MuxProtocol.Proofs.Gate
import MuxProtocol.Proofs.Router

/-!
# What the router does, change by change

The handlers call the sessions, note things about the tunnels, and change and free routes. What
holds of the routes and of the sessions with no bound on the number of streams follows from that:
a route is found through its tunnels only, and a tunnel that was torn down has none.
-/

namespace MuxProtocol

open Machine Relation Function List Option EpConn

variable {ne nw : ℕ}

namespace Router

variable {e e' e'' : Router ne nw} {t t' : Tunnel ne nw} {sid : UInt32} {a : Call} {p : ℕ}
  {r r' : Route ne nw} {s : Session} {hmac : Hmac}

/-! ### Changes -/

/-- The sessions, the routes and the sockets are as they were, and no tunnel has become ready but
perhaps `t`. -/
structure Minor (t : Option (Tunnel ne nw)) (e e' : Router ne nw) : Prop where
  cfg : e'.cfg = e.cfg
  heap : e'.heap = e.heap
  next : e'.next = e.next
  mux : ∀ t', (e'.conn t').mux = (e.conn t').mux
  routes : ∀ t', (e'.conn t').routes = (e.conn t').routes
  fd : ∀ t', (e'.conn t').fd = (e.conn t').fd
  connecting : ∀ t', (e'.conn t').connecting = (e.conn t').connecting
  ready : ∀ t', (e'.conn t').ready = true → (e.conn t').ready = true ∨ t = some t'

theorem minor_modify {g} (hm : (g (e.conn t)).mux = (e.conn t).mux)
    (hr : (g (e.conn t)).routes = (e.conn t).routes) (hf : (g (e.conn t)).fd = (e.conn t).fd)
    (hc : (g (e.conn t)).connecting = (e.conn t).connecting) : Minor (some t) e (e.modify t g) := by
  refine ⟨rfl, rfl, rfl, fun _ => modify_field _ _ _ mux hm,
    fun _ => modify_field _ _ _ routes hr, fun _ => modify_field _ _ _ fd hf,
    fun _ => modify_field _ _ _ connecting hc, fun t' h => ?_⟩
  by_cases ht : t' = t
  · exact .inr (by rw [ht])
  · rw [modify_of_ne _ _ _ ht] at h
    exact .inl h

theorem Minor.of_ready (h : Minor (some t) e e') (hr : (e'.conn t).ready = (e.conn t).ready) :
    Minor none e e' := by
  refine ⟨h.cfg, h.heap, h.next, h.mux, h.routes, h.fd, h.connecting, fun t' ht' => .inl ?_⟩
  rcases h.ready t' ht' with h' | h'
  · exact h'
  · cases h'
    exact hr ▸ ht'

inductive Edit : Router ne nw → Router ne nw → Prop
  | call {e : Router ne nw} (t : Tunnel ne nw) {a : Call} (ha : a ≠ .nextEvent) :
      Edit e (e.call t a)
  | minor {e e' : Router ne nw} (h : Minor none e e')
      (hb : ∀ t, (e'.conn t).recv = (e.conn t).recv) : Edit e e'
  | set {e : Router ne nw} {p : ℕ} {r r' : Route ne nw} (hp : e.heap p = some r)
      (hk : ∀ d, r'.key d = r.key d) (hg : r'.gone = r.gone) : Edit e (e.setRoute p r')
  | drop {e : Router ne nw} {p : ℕ} {r r' : Route ne nw} (hp : e.heap p = some r)
      (hk : ∀ d, r'.key d = r.key d) : Edit e ((e.setRoute p r').routeFree p)
  | free {e : Router ne nw} (p : ℕ) : Edit e (e.routeFree p)

abbrev Edits : Router ne nw → Router ne nw → Prop := ReflTransGen Edit

theorem Calls.edits (h : Calls e e') : Edits e e' := by
  induction h with
  | refl => exact .refl
  | call t _ ha _ ih => exact ih.tail (.call t (by rintro rfl; exact ha))

theorem call_edits (e : Router ne nw) (t) (ha : a ≠ .nextEvent) :
    Edits e (e.call t a) := .single (.call t ha)

/-! ### The handlers -/

theorem onStreamData_edits (e : Router ne nw) (t sid data) :
    Edits e (e.onStreamData t sid data) := by
  unfold onStreamData
  rcases hf : e.find t sid with _ | ⟨p, r⟩
  · exact .refl
  dsimp only
  split
  · exact .refl
  have hc := fwd_calls e t (r.sid t.side) (r.tunnel t.side.other) (r.sid t.side.other)
    (r.pend t.side) data
  generalize e.fwd t (r.sid t.side) (r.tunnel t.side.other) (r.sid t.side.other)
    (r.pend t.side) data = res at hc
  exact hc.edits.tail (.set (hc.heap_eq ▸ (find_some hf).2) (by simp) (by simp))

theorem onWritable_edits (e : Router ne nw) (t sid) : Edits e (e.onWritable t sid) := by
  unfold onWritable
  rcases hf : e.find t sid with _ | ⟨p, r⟩
  · exact .refl
  dsimp only
  split
  · exact .refl
  have hc := flushPend_calls e (r.tunnel t.side.other) (r.sid t.side.other) t (r.sid t.side)
    (r.pend t.side.other)
  generalize e.flushPend (r.tunnel t.side.other) (r.sid t.side.other) t (r.sid t.side)
    (r.pend t.side.other) = res at hc
  exact hc.edits.tail (.set (hc.heap_eq ▸ (find_some hf).2) (by simp) (by simp))

/-- CLOSED flushes and closes the other side, and may free the route. -/
theorem onStreamClosed_edits (e : Router ne nw) (t sid) : Edits e (e.onStreamClosed t sid) := by
  unfold onStreamClosed
  rcases hf : e.find t sid with _ | ⟨p, r⟩
  · exact .refl
  dsimp only
  split
  · exact .refl
  have hc := flushPend_calls e t (r.sid t.side) (r.tunnel t.side.other) (r.sid t.side.other)
    (r.pend t.side)
  generalize e.flushPend t (r.sid t.side) (r.tunnel t.side.other) (r.sid t.side.other)
    (r.pend t.side) = res at hc
  have hset : Edits e ((res.1.call (r.tunnel t.side.other) (.close (r.sid t.side.other))).setRoute p
      ((r.setPend res.2 t.side).setFin t.side)) := by
    refine (hc.edits.tail (.call _ (by simp))).tail (.set (r := r) ?_ (by simp) (by simp))
    rw [call_heap, hc.heap_eq]
    exact (find_some hf).2
  split
  · exact hset.tail (.free p)
  · exact hset

theorem routeKill_edits (e : Router ne nw) (p : ℕ) (rstUp rstDown) :
    Edits e (e.routeKill p rstUp rstDown) := by
  unfold routeKill
  rcases hp : e.heap p with _ | r
  · exact .refl
  dsimp only
  split
  · exact .refl
  -- the mark is of no concern to the sessions
  have hcall : ∀ {e₁ : Router ne nw} {t} {b : Call} {r' : Route ne nw} (c : Bool),
      (if c = true then (e₁.setRoute p r').call t b else e₁.setRoute p r')
        = (if c = true then e₁.call t b else e₁).setRoute p r' := by
    intro e₁ t b r' c
    split
    · exact setRoute_call ..
    · rfl
  have hedits : ∀ {e₁ : Router ne nw} {t} {b : Call} (c : Bool), b ≠ .nextEvent → Edits e e₁ →
      e₁.heap = e.heap → Edits e (if c = true then e₁.call t b else e₁)
        ∧ (if c = true then e₁.call t b else e₁).heap = e.heap := by
    intro e₁ t b c hb h heq
    split
    · exact ⟨h.tail (.call _ hb), (call_heap ..).trans heq⟩
    · exact ⟨h, heq⟩
  rw [hcall, hcall]
  obtain ⟨h1, h1'⟩ := hedits (t := .edge r.edgeIdx) (b := .reset r.upSid muxCodeInternal) rstUp
    (by simp) .refl rfl
  obtain ⟨h2, h2'⟩ := hedits (t := .worker r.workerIdx) (b := .reset r.downSid muxCodeInternal)
    rstDown (by simp) h1 h1'
  exact h2.tail (.drop (by rw [h2', hp]) fun d => by cases d <;> rfl)

theorem pickWorker_minor (e : Router ne nw) : Minor none e e.pickWorker.1 := by
  obtain ⟨ha, hw, -⟩ := pickWorker_picked e
  refine ⟨?_, ha.heap, ha.next, ha.mux, ha.routes, fun t => congrArg (·.2.1) (hw t),
    fun t => congrArg (·.2.2.1) (hw t), fun t ht => .inl ((congrArg Prod.fst (hw t)).symm.trans ht)⟩
  have hfold : ∀ (js : List (Fin nw)) (acc : Router ne nw × ℤ × Option (Fin nw × ℤ)),
      (js.foldl pickStep acc).1.cfg = acc.1.cfg := by
    intro js
    induction js with
    | nil => exact fun _ => rfl
    | cons j js ih =>
      intro acc
      rw [foldl_cons, ih]
      unfold pickStep
      dsimp only
      split <;> rfl
  have h := hfold (finRange nw) (e, 0, none)
  unfold pickWorker
  generalize (finRange nw).foldl pickStep (e, 0, none) = acc at h
  obtain ⟨e₁, total, _ | ⟨j, cw⟩⟩ := acc <;> exact h

/-- A route of a tunnel is reset on its other side. -/
def resetRoute (t : Tunnel ne nw) (e : Router ne nw) (en : Sigma fun _ : UInt32 => ℕ) :
    Router ne nw :=
  match e.heap en.2 with
  | none => e
  | some r =>
    if r.gone then e
    else e.call (r.tunnel t.side.other) (.reset (r.sid t.side.other) muxCodeInternal)

theorem resetRoute_edits (t) (e : Router ne nw) (en : Sigma fun _ : UInt32 => ℕ) :
    Edits e (resetRoute t e en) ∧ (resetRoute t e en).heap = e.heap := by
  unfold resetRoute
  split
  · exact ⟨.refl, rfl⟩
  · split
    · exact ⟨.refl, rfl⟩
    · exact ⟨call_edits _ _ (by simp), call_heap ..⟩

theorem resetRoute_foldl_edits (t) : ∀ (l : List (Sigma fun _ : UInt32 => ℕ))
    (e : Router ne nw), Edits e (l.foldl (resetRoute t) e)
  | [], _ => .refl
  | en :: l, e => (resetRoute_edits t e en).1.trans (resetRoute_foldl_edits t l _)

theorem resetRoutes_edits (e : Router ne nw) (t) : Edits e (e.resetRoutes t) :=
  resetRoute_foldl_edits t _ e

theorem freeRoutes_edits (t) : ∀ (n : ℕ) (e : Router ne nw),
    Edits e (freeRoutes t n e)
  | 0, _ => .refl
  | n + 1, e => by
    unfold freeRoutes
    split
    · exact .refl
    · split
      · exact .refl
      · rename_i r hr
        exact .head (.drop hr fun d => by cases d <;> rfl) (freeRoutes_edits t n _)

theorem dropRoutes_edits (e : Router ne nw) (t) : Edits e (e.dropRoutes t) :=
  (resetRoutes_edits e t).trans (freeRoutes_edits t _ _)

/-- What becomes of an event, after it was taken from the queue of `t`. -/
inductive Handled (hmac : Hmac) (e : Router ne nw) :
    Tunnel ne nw → Event → Router ne nw → Prop
  | edits {t : Tunnel ne nw} {ev : Event} {e' : Router ne nw}
      (hev : ev.refused hmac e.cfg.token = false) (h : Edits e e') : Handled hmac e t ev e'
  | greet {t : Tunnel ne nw} {ev : Event} {e' : Router ne nw} (hh : ev.isHello = true)
      (hev : ev.refused hmac e.cfg.token = false) (h : Minor (some t) e e')
      (hb : ∀ t, (e'.conn t).recv = (e.conn t).recv) : Handled hmac e t ev e'
  | refuse {t : Tunnel ne nw} {ev : Event} (hev : ev.refused hmac e.cfg.token = true) :
      Handled hmac e t ev (e.call t (.goaway muxCodeRefused))
  | route {i : Fin ne} {j : Fin nw} {sid ds : UInt32} {m : Bytes} {e' : Router ne nw}
      (hr : (e.conn (.worker j)).ready = true) (h : Edits e e') :
      Handled hmac e (.edge i) (.opened sid m) (e'.routeNew i sid j ds)

theorem refused_eq {w ms iw pid auth nonce} :
    (Event.peerHello w ms iw pid auth nonce).refused hmac e.cfg.token
      = !e.checkAuth hmac auth nonce := by
  unfold Event.refused checkAuth
  dsimp only
  rcases e.cfg.token with _ | t <;> rfl

/-- What the events of an edge come to. -/
theorem onUpEvent_handled (e : Router ne nw) (i ev) :
    Handled hmac e (.edge i) ev (e.onUpEvent hmac i ev) := by
  cases ev with
  | peerHello w ms iw pid auth nonce =>
    simp only [onUpEvent]
    split
    · rename_i hc
      exact .greet rfl (refused_eq.trans (by simp [hc])) (minor_modify rfl rfl rfl rfl)
        fun _ => modify_field _ _ _ recv rfl
    · rename_i hc
      exact .refuse (refused_eq.trans (by simp [hc]))
  | opened sid m =>
    have hpick : Edit e e.pickWorker.1 :=
      .minor (pickWorker_minor e) fun t => congrArg (·.2.2.2) ((pickWorker_picked e).2.1 t)
    have hready := (pickWorker_picked e).2.2
    unfold onUpEvent
    generalize e.pickWorker = res at hpick hready
    obtain ⟨e₁, _ | j⟩ := res
    · exact .edits rfl (.tail (.single hpick) (.call _ (by simp)))
    dsimp only
    rcases (e₁.conn (.worker j)).mux with _ | w
    · exact .edits rfl (.single hpick)
    dsimp only
    have hopen : Edits e (e₁.call (.worker j) (.open m)) :=
      .tail (.single hpick) (.call _ (by simp))
    rcases (muxOpen w m).2 with err | ds
    · exact .edits rfl (hopen.tail (.call _ (by simp)))
    · exact .route (hready j rfl) hopen
  | data sid b => exact .edits rfl (onStreamData_edits e _ sid b)
  | writable sid => exact .edits rfl (onWritable_edits e _ sid)
  | closed sid => exact .edits rfl (onStreamClosed_edits e _ sid)
  | reset sid code =>
    refine .edits rfl ?_
    unfold onUpEvent
    dsimp only
    split
    · exact .refl
    · exact routeKill_edits _ _ _ _
  | capacity | goaway | fatal => exact .edits rfl .refl

/-- What the events of a worker come to. -/
theorem onWorkerEvent_handled (e : Router ne nw) (j ev) :
    Handled hmac e (.worker j) ev (e.onWorkerEvent hmac j ev) := by
  cases ev with
  | peerHello w ms iw pid auth nonce =>
    simp only [onWorkerEvent]
    split
    · rename_i hc
      exact .greet rfl (refused_eq.trans (by simp [hc])) (minor_modify rfl rfl rfl rfl)
        fun _ => modify_field _ _ _ recv rfl
    · rename_i hc
      exact .refuse (refused_eq.trans (by simp [hc]))
  | capacity weight =>
    simp only [onWorkerEvent]
    refine .edits rfl (.single (.minor (Minor.of_ready (t := .worker j) ?_ ?_) fun _ => ?_))
    · exact minor_modify rfl rfl rfl rfl
    · exact modify_field _ _ _ ready rfl
    · exact modify_field _ _ _ recv rfl
  | data sid b => exact .edits rfl (onStreamData_edits e _ sid b)
  | writable sid => exact .edits rfl (onWritable_edits e _ sid)
  | closed sid => exact .edits rfl (onStreamClosed_edits e _ sid)
  | reset sid code =>
    refine .edits rfl ?_
    unfold onWorkerEvent
    dsimp only
    split
    · exact .refl
    · exact routeKill_edits _ _ _ _
  | opened sid m => exact .edits rfl (call_edits _ _ (by simp))
  | goaway | fatal => exact .edits rfl .refl

theorem onEvent_handled (hmac) (e : Router ne nw) (t ev) :
    Handled hmac e t ev (e.onEvent hmac t ev) := by
  cases t with
  | edge i => exact onUpEvent_handled e i ev
  | worker j => exact onWorkerEvent_handled e j ev

/-! ### What the changes keep -/

@[simp] theorem call_cfg (e : Router ne nw) (t a) : (e.call t a).cfg = e.cfg := by
  unfold call
  split <;> rfl

@[simp] theorem routeFree_cfg (e : Router ne nw) (p : ℕ) : (e.routeFree p).cfg = e.cfg := by
  unfold routeFree
  split <;> rfl

theorem Edit.cfg_eq (h : Edit e e') : e'.cfg = e.cfg := by
  cases h with
  | call => exact call_cfg ..
  | minor h => exact h.cfg
  | set => rfl
  | drop | free => exact routeFree_cfg ..

theorem Edits.cfg_eq (h : Edits e e') : e'.cfg = e.cfg := by
  induction h with
  | refl => rfl
  | tail _ h ih => exact h.cfg_eq.trans ih

theorem Edit.mux (h : Edit e e') (t) : (e'.conn t).mux = (e.conn t).mux
    ∨ ∃ a, a ≠ Call.nextEvent ∧ (e'.conn t).mux = (e.conn t).mux.map (·.call a) := by
  cases h with
  | @call t' a ha =>
    by_cases ht : t = t'
    · subst ht
      exact .inr ⟨a, ha, call_mux_self ..⟩
    · rw [call_of_ne _ _ _ ht]
      exact .inl rfl
  | minor h => exact .inl (h.mux t)
  | set => exact .inl rfl
  | drop | free => exact .inl (routeFree_mux ..)

/-- No session comes or goes, and what holds of a session whatever is called still holds. -/
theorem Edits.session (h : Edits e e') {Q : Session → Prop}
    (hQ : ∀ s a, a ≠ Call.nextEvent → Q s → Q (s.call a)) (hs : (e.conn t).mux = some s)
    (hq : Q s) : ∃ s', (e'.conn t).mux = some s' ∧ Q s' := by
  induction h with
  | refl => exact ⟨s, hs, hq⟩
  | tail _ h ih =>
    obtain ⟨s₁, hs₁, hq₁⟩ := ih
    rcases h.mux t with heq | ⟨a, ha, heq⟩
    · exact ⟨s₁, heq.trans hs₁, hq₁⟩
    · exact ⟨s₁.call a, by rw [heq, hs₁]; rfl, hQ _ _ ha hq₁⟩

theorem Edits.mux_none (h : Edits e e') (hs : (e.conn t).mux = none) : (e'.conn t).mux = none := by
  induction h with
  | refl => exact hs
  | tail _ h ih =>
    rcases h.mux t with heq | ⟨a, -, heq⟩
    · exact heq.trans ih
    · rw [heq, ih]
      rfl

theorem Edits.sessions (h : Edits e e') {Q : Session → Prop}
    (hQ : ∀ s a, a ≠ Call.nextEvent → Q s → Q (s.call a))
    (hq : ∀ s, (e.conn t).mux = some s → Q s) : ∀ s, (e'.conn t).mux = some s → Q s := by
  intro s' hs'
  rcases hs : (e.conn t).mux with _ | s
  · rw [h.mux_none hs] at hs'
    cases hs'
  · obtain ⟨s₁, hs₁, hq₁⟩ := h.session hQ hs (hq s hs)
    obtain rfl := some.inj (hs'.symm.trans hs₁)
    exact hq₁

theorem modify_forall {P : EpConn → Prop} {g} (ht : P (g (e.conn t))) (h : ∀ t', P (e.conn t'))
    (t') : P ((e.modify t g).conn t') := by
  by_cases heq : t' = t
  · subst heq
    rwa [modify_self]
  · rw [modify_of_ne _ _ _ heq]
    exact h t'

/-! ### The invariant -/

/-- What holds of the tables with any number of streams: a route that is found has the key it was
found by, and a tunnel that is ready or has routes has a session with `adm`. -/
structure Base (adm : Session → Prop) (e : Router ne nw) : Prop where
  wired : Wired e
  owned : ∀ k p, e.routeOf k = some p → ∃ r, e.heap p = some r ∧ ∃ d, r.key d = k
  fresh : ∀ p, e.next ≤ p → e.heap p = none
  hosted : ∀ t s, (e.conn t).mux = some s → Hosted s
  ready : ∀ t, (e.conn t).ready = true → ∃ s, (e.conn t).mux = some s ∧ adm s
  routed : ∀ k p, e.routeOf k = some p → ∃ s, (e.conn k.1).mux = some s ∧ adm s

section Base

variable {adm : Session → Prop}

namespace Base

theorem lt_next (h : Base adm e) (hp : e.heap p = some r) : p < e.next := by
  by_contra hle
  simp [h.fresh p (Nat.not_lt.1 hle)] at hp

theorem minor {t} (h : Base adm e) (hm : Minor t e e')
    (ht : ∀ t', t = some t' → ∃ s, (e.conn t').mux = some s ∧ adm s) : Base adm e' := by
  have hrof : e'.routeOf = e.routeOf := funext fun k => by rw [routeOf, routeOf, hm.routes]
  have hready : ∀ t', (e'.conn t').ready = true → ∃ s, (e.conn t').mux = some s ∧ adm s :=
    fun t' hr => (hm.ready t' hr).elim (h.ready t') (ht t')
  refine ⟨⟨fun t' hr => ?_, fun t' hf => ?_, fun t' hc => ?_⟩, ?_, ?_, fun t' s hs => ?_,
    fun t' hr => ?_, fun k p hk => ?_⟩
  · obtain ⟨s, hs, -⟩ := hready t' hr
    simp [hm.mux, hs]
  · rw [hm.mux]
    exact h.wired.down t' (hm.fd t' ▸ hf)
  · rw [hm.mux]
    exact h.wired.connecting t' (hm.connecting t' ▸ hc)
  · rw [hrof, hm.heap]
    exact h.owned
  · rw [hm.heap, hm.next]
    exact h.fresh
  · exact h.hosted t' s (hm.mux t' ▸ hs)
  · rw [hm.mux]
    exact hready t' hr
  · rw [hm.mux]
    exact h.routed k p (hrof ▸ hk)

theorem setRoute (h : Base adm e) (hp : e.heap p = some r) (hk : ∀ d, r'.key d = r.key d) :
    Base adm (e.setRoute p r') := by
  refine ⟨h.wired.setRoute, fun k q hq => ?_, fun q hq => ?_, h.hosted, h.ready, h.routed⟩
  · obtain ⟨y, hy, d, hd⟩ := h.owned k q hq
    by_cases hqp : q = p
    · subst hqp
      rw [hp, some_inj] at hy
      subst hy
      exact ⟨r', setRoute_self .., d, (hk d).trans hd⟩
    · exact ⟨y, (setRoute_of_ne hqp e r').trans hy, d, hd⟩
  · have hq' : e.next ≤ q := hq
    have hlt := h.lt_next hp
    exact (setRoute_of_ne (by omega) e r').trans (h.fresh q hq)

theorem routeFree (h : Base adm e) (p : ℕ) : Base adm (e.routeFree p) := by
  rcases hp : e.heap p with _ | r
  · rwa [show e.routeFree p = e by rw [Router.routeFree, hp]]
  have hrof : ∀ k q, (e.routeFree p).routeOf k = some q → e.routeOf k = some q
      ∧ ∀ d, r.key d ≠ k := by
    intro k q hq
    have hk : ∀ d, r.key d ≠ k := by
      rintro d rfl
      rw [routeFree_routeOf_self e hp] at hq
      cases hq
    exact ⟨by rwa [routeFree_routeOf_of_ne e hp hk] at hq, hk⟩
  refine ⟨(sameLinks_free e p).wired h.wired, fun k q hq => ?_, fun q hq => ?_, fun t s hs => ?_,
    fun t hr => ?_, fun k q hq => ?_⟩
  · obtain ⟨hq', hk⟩ := hrof k q hq
    obtain ⟨y, hy, d, hd⟩ := h.owned k q hq'
    have hqp : q ≠ p := by
      rintro rfl
      rw [hp, some_inj] at hy
      exact hk d (hy ▸ hd)
    rw [routeFree_heap e hp, update_of_ne hqp]
    exact ⟨y, hy, d, hd⟩
  · rw [routeFree_next] at hq
    have hlt := h.lt_next hp
    rw [routeFree_heap e hp, update_of_ne (by omega)]
    exact h.fresh q hq
  · exact h.hosted t s (routeFree_mux e t ▸ hs)
  · rw [routeFree_mux]
    exact h.ready t (routeFree_field e EpConn.ready (fun _ _ _ => rfl) t ▸ hr)
  · rw [routeFree_mux]
    exact h.routed k q (hrof k q hq).1

section Calls

variable (hadm : ∀ s a, Hosted s → adm s → adm (s.call a))

include hadm

theorem call_adm (h : Base adm e) (hs : ∃ s, (e.conn t').mux = some s ∧ adm s) :
    ∃ s, ((e.call t a).conn t').mux = some s ∧ adm s := by
  obtain ⟨s, hs, ha⟩ := hs
  refine ⟨_, (call_mux_eq_some e t a).2 ⟨s, hs, rfl⟩, ?_⟩
  split
  · exact hadm s a (h.hosted t' s hs) ha
  · exact ha

theorem call (h : Base adm e) (t a) : Base adm (e.call t a) := by
  have hrof : (e.call t a).routeOf = e.routeOf := funext fun _ => by simp [routeOf]
  refine ⟨(sameLinks_call e t a).wired h.wired, ?_, by simpa using h.fresh, fun t' s hs => ?_,
    fun t' hr => ?_, fun k p hk => ?_⟩
  · rw [hrof, call_heap]
    exact h.owned
  · obtain ⟨s₀, hs₀, rfl⟩ := (call_mux_eq_some e t a).1 hs
    split
    · exact (h.hosted t' s₀ hs₀).call a
    · exact h.hosted t' s₀ hs₀
  · rw [call_field e t a EpConn.ready fun _ _ _ => rfl] at hr
    exact h.call_adm hadm (h.ready t' hr)
  · rw [hrof] at hk
    exact h.call_adm hadm (h.routed k p hk)

theorem edit (h : Base adm e) (hed : Edit e e') : Base adm e' := by
  cases hed with
  | call t => exact h.call hadm t _
  | minor hm => exact h.minor hm (by simp)
  | set hp hk => exact h.setRoute hp hk
  | drop hp hk => exact (h.setRoute hp hk).routeFree _
  | free p => exact h.routeFree p

theorem edits (h : Base adm e) (hed : Edits e e') : Base adm e' := by
  induction hed with
  | refl => exact h
  | tail _ h' ih => exact ih.edit hadm h'

end Calls

theorem routeNew (h : Base adm e) {i j ds} (hi : ∃ s, (e.conn (.edge i)).mux = some s ∧ adm s)
    (hj : ∃ s, (e.conn (.worker j)).mux = some s ∧ adm s) : Base adm (e.routeNew i sid j ds) := by
  have hend : ∀ d, ∃ s, (e.conn ((newRoute i j sid ds).tunnel d)).mux = some s ∧ adm s := by
    intro d
    cases d with
    | up => exact hi
    | down => exact hj
  refine ⟨(sameLinks_new e i j sid ds).wired h.wired, fun k q hq => ?_, fun q hq => ?_,
    fun t s hs => ?_, fun t hr => ?_, fun k q hq => ?_⟩
  · by_cases hk : ∃ d, (newRoute i j sid ds).key d = k
    · obtain ⟨d, rfl⟩ := hk
      rw [routeNew_routeOf_self, some_inj] at hq
      subst hq
      exact ⟨_, update_self .., d, rfl⟩
    · rw [routeNew_routeOf_of_ne e i j sid ds fun d hd => hk ⟨d, hd⟩] at hq
      obtain ⟨y, hy, hd⟩ := h.owned k q hq
      have hlt := h.lt_next hy
      exact ⟨y, (update_of_ne (by omega) ..).trans hy, hd⟩
  · rw [routeNew_next] at hq
    exact (update_of_ne (by omega) ..).trans (h.fresh q (by omega))
  · exact h.hosted t s (routeNew_mux e i j sid ds t ▸ hs)
  · rw [routeNew_mux]
    exact h.ready t (routeNew_field e i j sid ds EpConn.ready (fun _ _ _ => rfl) t ▸ hr)
  · rw [routeNew_mux]
    by_cases hk : ∃ d, (newRoute i j sid ds).key d = k
    · obtain ⟨d, rfl⟩ := hk
      exact hend d
    · rw [routeNew_routeOf_of_ne e i j sid ds fun d hd => hk ⟨d, hd⟩] at hq
      exact h.routed k q hq

theorem freeRoutes_entries (t) : ∀ (n : ℕ) {e : Router ne nw}, Base adm e →
    (e.conn t).routes.entries.length = n → ((freeRoutes t n e).conn t).routes.entries = []
  | 0, _, _, hn => length_eq_zero_iff.1 hn
  | n + 1, e, h, hn => by
    unfold freeRoutes
    rcases hen : (e.conn t).routes.entries with _ | ⟨en, rest⟩
    · simp [hen] at hn
    have hmem : en ∈ (e.conn t).routes.entries := by simp [hen]
    obtain ⟨r, hr, d, hd⟩ := h.owned _ _ (routeOf_of_mem hmem)
    dsimp only
    rw [hr]
    dsimp only
    have hk : ∀ d, Route.key d { r with gone := true } = r.key d := by
      intro d
      cases d <;> rfl
    generalize ({ r with gone := true } : Route ne nw) = r' at hk ⊢
    refine freeRoutes_entries t n ((h.setRoute hr hk).routeFree en.2) ?_
    have hroutes := routeFree_routes _ (setRoute_self e en.2 r') d
    obtain ⟨htun, hsid⟩ := Prod.mk.inj ((hk d).trans hd)
    rw [htun, hsid] at hroutes
    have hkey : en.1 ∈ ((e.setRoute en.2 r').conn t).routes.keys := mem_map.2 ⟨en, hmem, rfl⟩
    rw [length_entries, hroutes, AList.keys_erase, length_erase_of_mem hkey, ← length_entries]
    exact Nat.sub_eq_of_eq_add hn

theorem dropRoutes_none (hadm : ∀ s a, Hosted s → adm s → adm (s.call a)) (h : Base adm e) (t sid) :
    (e.dropRoutes t).routeOf (t, sid) = none := by
  have hnil : ((e.dropRoutes t).conn t).routes.entries = [] :=
    freeRoutes_entries t _ (h.edits hadm (resetRoutes_edits e t)) rfl
  refine AList.lookup_eq_none.2 fun hmem => ?_
  have hkeys := AList.mem_keys.1 hmem
  rw [AList.keys, hnil] at hkeys
  cases hkeys

/-- A tunnel without routes, that is not ready, gets a session or loses it. -/
theorem replug (h : Base adm e) (hno : ∀ sid, e.routeOf (t, sid) = none) {g}
    (hroutes : (g (e.conn t)).routes = (e.conn t).routes)
    (hmux : ∀ s, (g (e.conn t)).mux = some s → Hosted s) (hready : (g (e.conn t)).ready = false)
    (hdown : (g (e.conn t)).fd = false → (g (e.conn t)).mux = none)
    (hconn : (g (e.conn t)).connecting = true → (g (e.conn t)).mux = none) :
    Base adm (e.modify t g) := by
  have hrof : (e.modify t g).routeOf = e.routeOf :=
    funext fun k => by rw [routeOf, routeOf, modify_field _ _ _ routes hroutes]
  refine ⟨⟨?_, ?_, ?_⟩, ?_, h.fresh, fun t' s => ?_, ?_, fun k q hq => ?_⟩
  · exact modify_forall (P := fun c => c.ready = true → c.mux ≠ none) (by simp [hready])
      h.wired.ready
  · exact modify_forall (P := fun c => c.fd = false → c.mux = none) hdown h.wired.down
  · exact modify_forall (P := fun c => c.connecting = true → c.mux = none) hconn h.wired.connecting
  · rw [hrof]
    exact h.owned
  · exact modify_forall (P := fun c => c.mux = some s → Hosted s) (hmux s)
      (fun t => h.hosted t s) t'
  · exact modify_forall (P := fun c => c.ready = true → ∃ s, c.mux = some s ∧ adm s)
      (by simp [hready]) h.ready
  · rw [hrof] at hq
    have ht : k.1 ≠ t := by
      rintro rfl
      simp [hno] at hq
    rw [modify_of_ne _ _ _ ht]
    exact h.routed k q hq

theorem none (h : Base adm e) (ht : (e.conn t).mux = none) :
    (e.conn t).ready = false ∧ ∀ sid, e.routeOf (t, sid) = none := by
  constructor
  · by_contra hr
    obtain ⟨s, hs, -⟩ := h.ready t (by simpa using hr)
    simp [ht] at hs
  · intro sid
    by_contra hne
    obtain ⟨q, hq⟩ := ne_none_iff_exists'.1 hne
    obtain ⟨s, hs, -⟩ := h.routed _ q hq
    simp [ht] at hs

theorem handled (hadm : ∀ s a, Hosted s → adm s → adm (s.call a)) {ev : Event} (h : Base adm e)
    (hh : Handled hmac e t ev e')
    (hgreet : ev.isHello = true → ev.refused hmac e.cfg.token = false →
      ∃ s, (e.conn t).mux = some s ∧ adm s)
    (hroute : ev.openedId ≠ .none → t.side = .up → ∃ s, (e.conn t).mux = some s ∧ adm s) :
    Base adm e' := by
  cases hh with
  | edits _ hed => exact h.edits hadm hed
  | greet hhello hev hm =>
    refine h.minor hm fun t' ht' => ?_
    cases ht'
    exact hgreet hhello hev
  | refuse => exact h.call hadm _ _
  | @route i j sid ds m e₁ hr hed =>
    have hkeep : ∀ {t}, (∃ s, (e.conn t).mux = some s ∧ adm s) →
        ∃ s, (e₁.conn t).mux = some s ∧ adm s := fun ⟨s, hs, ha⟩ => by
      obtain ⟨s', hs', h1, h2⟩ := hed.session (Q := fun s => Hosted s ∧ adm s)
        (fun s a _ hq => ⟨hq.1.call a, hadm s a hq.1 hq.2⟩) hs ⟨h.hosted _ s hs, ha⟩
      exact ⟨s', hs', h2⟩
    exact (h.edits hadm hed).routeNew (hkeep (hroute (by simp [Event.openedId]) rfl))
      (hkeep (h.ready _ hr))

theorem connTeardown (hadm : ∀ s a, Hosted s → adm s → adm (s.call a)) (h : Base adm e) (t now) :
    Base adm (e.connTeardown t now) :=
  (h.edits hadm (dropRoutes_edits e t)).replug (h.dropRoutes_none hadm t) rfl (by simp) rfl
    (by simp) (by simp)

theorem move (hadm : ∀ s a, Hosted s → adm s → adm (s.call a)) (h : Base adm e) {m}
    (hm : ∀ t, m ≠ .event t) : Base adm (e.move hmac m) := by
  cases m with
  | tick t now dialled failedAt =>
    unfold Router.move connTickConnect
    dsimp only
    split
    · exact h
    rename_i hskip
    rw [not_or, Bool.not_eq_true] at hskip
    have hmux := h.wired.down t hskip.1
    obtain ⟨hready, hno⟩ := h.none hmux
    split
    · exact h.replug hno rfl (by simp [hmux]) hready (by simp [hmux]) (by simp [hmux])
    · exact h.replug hno rfl (by simp [hmux]) hready (by simp [hmux]) (by simp [hmux])
  | finish t err nonce failedAt =>
    unfold Router.move
    dsimp only
    split
    · rename_i hc
      rw [Bool.and_eq_true] at hc
      have hmux := h.wired.connecting t hc.2
      obtain ⟨hready, hno⟩ := h.none hmux
      have hfailed : Base adm
          (e.modify t fun c => { c with fd := false, nextAttempt := failedAt + 1000 }) :=
        h.replug hno rfl (by simp [hmux]) hready (by simp [hmux]) (by simp [hmux])
      unfold connFinishConnect
      dsimp only
      split
      · exact hfailed
      rcases hnew : muxSessionNew (connBuildCfg hmac e.cfg nonce) .dialer with _ | s
      · exact hfailed
      · dsimp only
        rw [connFlush, sendLoop]
        dsimp only
        refine h.replug hno rfl (fun s' hs' => ?_) hready (by simp [hc.1]) (by simp)
        cases hs'
        exact (Hosted.new hnew).1
    · exact h
  | timer | recv | advance => exact h.call hadm _ _
  | event t => exact absurd rfl (hm t)
  | stash t b =>
    simp only [Router.move]
    refine h.minor (Minor.of_ready (t := t) (minor_modify rfl rfl rfl rfl) ?_) (by simp)
    exact modify_field _ _ _ EpConn.ready rfl
  | teardown t now => exact h.connTeardown hadm t now

end Base

end Base

/-! ### What holds in every state -/

/-- No route is left that was marked as gone. -/
def Intact (e : Router ne nw) : Prop := ∀ p r, e.heap p = some r → r.gone = false

theorem intact_free (h : ∀ q r, q ≠ p → e.heap q = some r → r.gone = false) (hp : e.heap p ≠ none) :
    Intact (e.routeFree p) := by
  intro q r hq
  obtain ⟨x, hx⟩ := ne_none_iff_exists'.1 hp
  rw [routeFree_heap e hx] at hq
  by_cases hqp : q = p
  · simp [hqp] at hq
  · rw [update_of_ne hqp] at hq
    exact h q r hqp hq

theorem Edit.intact (h : Edit e e') (hi : Intact e) : Intact e' := by
  cases h with
  | call => simpa [Intact] using hi
  | minor h =>
    rw [Intact, h.heap]
    exact hi
  | @set q r r' hp hk hg =>
    intro x y hx
    by_cases hxq : x = q
    · subst hxq
      rw [setRoute_self, some_inj] at hx
      rw [← hx, hg]
      exact hi x r hp
    · rw [setRoute_of_ne hxq] at hx
      exact hi x y hx
  | drop hp =>
    refine intact_free (fun q r hq hr => ?_) (by simp)
    rw [setRoute_of_ne hq] at hr
    exact hi q r hr
  | free q =>
    by_cases hq : e.heap q = none
    · rwa [show e.routeFree q = e by rw [routeFree, hq]]
    · exact intact_free (fun q r _ hr => hi q r hr) hq

theorem Edits.intact (h : Edits e e') (hi : Intact e) : Intact e' := by
  induction h with
  | refl => exact hi
  | tail _ h ih => exact h.intact ih

theorem Handled.intact {ev} (h : Handled hmac e t ev e') (hi : Intact e) : Intact e' := by
  cases h with
  | edits _ h => exact h.intact hi
  | greet _ _ h =>
    rw [Intact, h.heap]
    exact hi
  | refuse => simpa [Intact] using hi
  | @route i j sid ds _ e₁ _ h =>
    intro q r hq
    rw [routeNew_heap] at hq
    by_cases hqp : q = e₁.next
    · subst hqp
      rw [update_self, some_inj] at hq
      rw [← hq]
      rfl
    · rw [update_of_ne hqp] at hq
      exact h.intact hi q r hq

/-- What holds in every state of the router. -/
structure Firm (e : Router ne nw) : Prop where
  base : Base (fun _ => True) e
  intact : Intact e

/-- Every move keeps it, however many streams there are. -/
theorem Firm.move (h : Firm e) (m) : Firm (e.move hmac m) := by
  by_cases hm : ∃ t, m = .event t
  · obtain ⟨t, rfl⟩ := hm
    rcases nextEvent_cases hmac e t with heq | ⟨s, ev, hs, hfr, heq⟩
    · rwa [Router.move, heq]
    · rw [Router.move, heq]
      have hbase := h.base.call (fun _ _ _ _ => trivial) t .nextEvent
      have hs' : ∃ s, ((e.call t .nextEvent).conn t).mux = some s ∧ True :=
        ⟨_, by rw [call_mux_self, hs]; rfl, trivial⟩
      have hh := onEvent_handled hmac (e.call t .nextEvent) t ev
      exact ⟨hbase.handled (fun _ _ _ _ => trivial) hh (fun _ _ => hs') (fun _ _ => hs'),
        hh.intact (by simpa [Intact] using h.intact)⟩
  · refine ⟨h.base.move (fun _ _ _ _ => trivial) fun t ht => hm ⟨t, ht⟩, ?_⟩
    cases m with
    | tick =>
      unfold Router.move connTickConnect
      dsimp only
      split_ifs <;> exact h.intact
    | finish =>
      unfold Router.move connFinishConnect
      dsimp only
      split_ifs
      · exact h.intact
      · split <;> exact h.intact
      · exact h.intact
    | timer t | recv t | advance t => exact (call_edits e t (by simp)).intact h.intact
    | event t => exact absurd ⟨t, rfl⟩ hm
    | stash => exact h.intact
    | teardown t => exact (dropRoutes_edits e t).intact h.intact

theorem firm_start (cfg) : Firm (start ne nw cfg) := by
  refine ⟨⟨⟨by simp [start], by simp [start], by simp [start]⟩, ?_, ?_, ?_, ?_, ?_⟩, ?_⟩
  all_goals simp [start, routeOf, Intact]

/-! ### The sessions over a move -/

theorem Handled.cfg_eq {ev} (h : Handled hmac e t ev e') : e'.cfg = e.cfg := by
  cases h with
  | edits _ h => exact h.cfg_eq
  | greet _ _ h => exact h.cfg
  | refuse => exact call_cfg ..
  | route _ h => exact h.cfg_eq

/-- The configuration never changes. -/
theorem move_cfg (e : Router ne nw) (m) : (e.move hmac m).cfg = e.cfg := by
  cases m with
  | tick =>
    unfold move connTickConnect
    dsimp only
    split_ifs <;> rfl
  | finish =>
    unfold move connFinishConnect
    dsimp only
    split_ifs
    · rfl
    · split <;> rfl
    · rfl
  | timer | recv | advance => exact call_cfg ..
  | event t =>
    rcases nextEvent_cases hmac e t with heq | ⟨s, ev, -, -, heq⟩
    · rw [move, heq]
    · rw [move, heq, (onEvent_handled hmac _ t ev).cfg_eq, call_cfg]
  | stash => rfl
  | teardown t => exact (dropRoutes_edits e t).cfg_eq

/-- What holds of a new session, and of a session whatever is called, holds after a move that takes
no event. -/
theorem move_sessions {m} (hm : ∀ t, m ≠ .event t) {Q : Session → Prop}
    (hQ : ∀ s a, a ≠ Call.nextEvent → Q s → Q (s.call a))
    (hnew : ∀ cfg s, muxSessionNew cfg .dialer = some s → Q s)
    (hq : ∀ s, (e.conn t).mux = some s → Q s) :
    ∀ s, ((e.move hmac m).conn t).mux = some s → Q s := by
  have hmod : ∀ {e : Router ne nw} {t₀ : Tunnel ne nw} {g : EpConn → EpConn},
      (∀ s, (e.conn t).mux = some s → Q s) → (∀ s, (g (e.conn t₀)).mux = some s →
        (e.conn t₀).mux = some s ∨ Q s) → ∀ s, ((e.modify t₀ g).conn t).mux = some s → Q s := by
    intro e t₀ g h hg s hs
    by_cases ht : t = t₀
    · subst ht
      rw [modify_self] at hs
      exact (hg s hs).elim (h s) id
    · rw [modify_of_ne _ _ _ ht] at hs
      exact h s hs
  cases m with
  | tick =>
    unfold move connTickConnect
    dsimp only
    split_ifs
    · exact hq
    · exact hmod hq fun s hs => .inl hs
    · exact hmod hq fun s hs => .inl hs
  | finish =>
    unfold move connFinishConnect
    dsimp only
    split_ifs
    · exact hmod hq fun s hs => .inl hs
    · split
      · exact hmod hq fun s hs => .inl hs
      · rename_i s hs
        rw [connFlush, sendLoop]
        dsimp only
        refine hmod hq fun s' hs' => .inr ?_
        cases hs'
        exact hnew _ s hs
    · exact hq
  | timer t₀ | recv t₀ | advance t₀ => exact (call_edits e t₀ (by simp)).sessions hQ hq
  | event t => exact absurd rfl (hm t)
  | stash =>
    simp only [move]
    exact hmod hq fun s hs => .inl hs
  | teardown t₀ =>
    simp only [move, connTeardown]
    exact hmod ((dropRoutes_edits e t₀).sessions hQ hq) fun s hs => by cases hs

end Router

end MuxProtocol
