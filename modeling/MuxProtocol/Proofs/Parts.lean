import MuxProtocol.Proofs.Edits
import MuxProtocol.Proofs.Splice

/-!
# The parts of a move

Every move of the router is a sequence of parts: a call, an event taken, a round of forwarding, a
route that starts or ends, a session that comes or goes. What every part keeps, every move keeps.
-/

namespace MuxProtocol

open LinearProbe Machine Index List Option Route EpConn

variable {ne nw : ℕ}

/-- What a part may do besides moving bytes. -/
inductive Deed (ne nw : ℕ) where
  | plain
  /-- An event is taken, and its bytes or its stream are kept. -/
  | keep
  /-- An event is taken, and nothing of it is kept. -/
  | lose (t : Tunnel ne nw) (ev : Event)
  /-- The other side is closed after side `d`. -/
  | finish (r : Route ne nw) (d : Side)
  /-- A route ends, perhaps because its tunnel `t` does. -/
  | free (r : Route ne nw) (t : Option (Tunnel ne nw))
  | plug (t : Tunnel ne nw)

namespace Router

variable {e e' : Router ne nw} {t t' : Tunnel ne nw} {sid sid' : UInt32} {a : Call} {p q : ℕ}
  {r r' : Route ne nw} {s : Session} {k : Tunnel ne nw × UInt32} {d : Side} {ev : Event}
  {hmac : Hmac} {L : Deed ne nw → Prop} {x : Tunnel ne nw → UInt32 → Prop}

/-- Bytes taken, behind those pending; where none are, they are forwarded. -/
def forwarded (e : Router ne nw) (t : Tunnel ne nw) (p : ℕ) (r : Route ne nw) (data : Bytes) :
    Router ne nw :=
  let r' := r.setPend (r.pend t.side ++ data) t.side
  let e := (e.call t .nextEvent).setRoute p r'
  if r.pend t.side = [] then e.relay p r' t.side else e

inductive Part (e : Router ne nw) : Deed ne nw → Router ne nw → Prop
  | alike {e' : Router ne nw} : Alike e e' → Part e .plain e'
  | call {t : Tunnel ne nw} {a : Call} : CanCall e t a → a ≠ .nextEvent →
      (∀ sid b, a ≠ .write sid b) → a.credits = [] →
      (∀ s, (e.conn t).mux = some s → s.returned a = []) → Part e .plain (e.call t a)
  | pop {t : Tunnel ne nw} {s : Session} {ev : Event} : (e.conn t).mux = some s →
      s.front = some ev → (∀ p r, e.heap p = some r → r.tunnel t.side = t →
        ev.bytesOn (r.sid t.side) = []
          ∧ (ev = .writable (r.sid t.side) → r.pend t.side.other = [])) →
      Part e (.lose t ev) (e.call t .nextEvent)
  | forward {t : Tunnel ne nw} {s : Session} {sid : UInt32} {data : Bytes} {p : ℕ}
      {r : Route ne nw} : (e.conn t).mux = some s → s.front = some (.data sid data) →
      e.heap p = some r → r.key t.side = (t, sid) → r.fin t.side = false →
      Part e .keep (e.forwarded t p r data)
  | wake {t : Tunnel ne nw} {s : Session} {sid : UInt32} {p : ℕ} {r : Route ne nw} :
      (e.conn t).mux = some s → s.front = some (.writable sid) → e.heap p = some r →
      r.key t.side = (t, sid) → Part e .keep ((e.call t .nextEvent).relay p r t.side.other)
  | relay {p : ℕ} {r : Route ne nw} (d : Side) : e.heap p = some r → Part e .plain (e.relay p r d)
  | finish {p : ℕ} {r : Route ne nw} (d : Side) : e.heap p = some r →
      Told e (r.tunnel d) (r.sid d) → Shut e (r.tunnel d.other) (r.sid d.other) →
      Part e (.finish r d) (e.setRoute p (r.setFin d))
  | free {p : ℕ} {r r' : Route ne nw} {t : Option (Tunnel ne nw)} : e.heap p = some r →
      (∀ d, r'.key d = r.key d ∧ r'.pend d = r.pend d) →
      (∀ d, Off e (r.tunnel d) (r.sid d) ∨ t = some (r.tunnel d)) →
      Part e (.free r' t) ((e.setRoute p r').routeFree p)
  | adopt {i : Fin ne} {j : Fin nw} {s w : Session} {sid ds : UInt32} {metadata : Bytes}
      {e₁ : Router ne nw} : (e.conn (.edge i)).mux = some s →
      s.front = some (.opened sid metadata) → Alike (e.call (.edge i) .nextEvent) e₁ →
      (e₁.conn (.worker j)).mux = some w → (muxOpen w metadata).2 = .ok ds →
      Few (w.call (.open metadata)).toCore →
      Part e .keep ((e₁.call (.worker j) (.open metadata)).routeNew i sid j ds)
  | plug {t : Tunnel ne nw} {g : EpConn → EpConn} : (∀ sid, e.routeOf (t, sid) = none) →
      (g (e.conn t)).routes = (e.conn t).routes →
      (∀ j, t = .worker j → (g (e.conn t)).inflight.toNat = (e.conn t).routes.keys.length) →
      (g (e.conn t)).credits = [] →
      (∀ s, (g (e.conn t)).mux = some s → ∃ cfg role, muxSessionNew cfg role = some s) →
      Part e (.plug t) (e.modify t g)

/-- A sequence of parts. -/
abbrev Parts (L : Deed ne nw → Prop) : Router ne nw → Router ne nw → Prop :=
  Reach Part fun _ l => L l

theorem setRoute_eq_self (hp : e.heap p = some r) : e.setRoute p r = e := by
  rw [setRoute, ← hp, Function.update_eq_self]

theorem setRoute_setRoute (e : Router ne nw) (p : ℕ) (r r') :
    (e.setRoute p r).setRoute p r' = e.setRoute p r' := by
  simp [setRoute]

/-! ### The invariant -/

/-- What holds between the events, where no stream is of the kind `x`: one that may be without a
route while a move is under way. -/
structure Inv (x : Tunnel ne nw → UInt32 → Prop) (e : Router ne nw) : Prop where
  tables : Tables e
  fins : Fins e
  whole : ∀ t sid, Misses e t sid → x t sid

theorem returned_eq_nil (hm : ∀ m, a ≠ .open m) (s : Session) : s.returned a = [] := by
  cases a with
  | «open» m => exact absurd rfl (hm m)
  | _ => rfl

theorem Tables.pop (hi : Tables e) (t) : Tables (e.call t .nextEvent) :=
  hi.call (hi.can_call t (by simp))

/-- An OPENED taken, and the stream opened on the worker: neither had a route, nor any traffic. -/
theorem admit_fresh (hi : Tables e) {i j} {s w : Session} {ds metadata} {e₁ : Router ne nw}
    (hs : (e.conn (.edge i)).mux = some s) (hfr : s.front = some (.opened sid metadata))
    (hal : Alike (e.call (.edge i) .nextEvent) e₁) (hw : (e₁.conn (.worker j)).mux = some w)
    (ho : (muxOpen w metadata).2 = .ok ds) (hf : Few (w.call (.open metadata)).toCore) :
    e₁.routeOf (.edge i, sid) = none ∧ e₁.routeOf (.worker j, ds) = none
      ∧ (e₁.conn (.edge i)).mux = some (s.call .nextEvent)
      ∧ sid ∈ openedIds (s.call .nextEvent).popped := by
  have hi₁ := hal.tables (hi.pop (.edge i))
  have hsv := hi.served _ s hs
  obtain ⟨hnew, -⟩ := hsv.front_fresh hfr
  obtain ⟨hnew', -⟩ := (hi₁.served _ w hw).open_fresh hf ho
  have hroute : e₁.routeOf = e.routeOf := by
    funext k
    rw [routeOf, routeOf, hal.routes, call_routes]
  refine ⟨?_, ?_, by rw [hal.mux, call_mux_self, hs]; rfl, ?_⟩
  · rw [hroute]
    by_contra hne
    obtain ⟨q, hq⟩ := ne_none_iff_exists'.1 hne
    obtain ⟨s', hs', hm⟩ := hi.ids _ _ q hq
    rw [hs, some_inj] at hs'
    exact hnew (hs' ▸ hm)
  · by_contra hne
    obtain ⟨q, hq⟩ := ne_none_iff_exists'.1 hne
    obtain ⟨w', hw', hm⟩ := hi₁.ids _ _ q hq
    rw [hw, some_inj] at hw'
    exact hnew' (hw' ▸ hm)
  · rw [hsv.popped_front hfr]
    exact mem_filterMap.2 ⟨_, mem_append_right _ (mem_singleton_self _), rfl⟩

namespace Inv

theorem mono {y : Tunnel ne nw → UInt32 → Prop} (h : Inv x e) (hx : ∀ t sid, x t sid → y t sid) :
    Inv y e :=
  ⟨h.tables, h.fins, fun t sid hm => hx t sid (h.whole t sid hm)⟩

theorem call (h : Inv x e) (hf : CanCall e t a) (ha : a ≠ .nextEvent)
    (hret : ∀ s, (e.conn t).mux = some s → s.returned a = []) : Inv x (e.call t a) := by
  refine ⟨h.tables.call hf, h.fins.call h.tables hf, fun t' sid hm => ?_⟩
  rcases misses_call h.tables hf ha hm with h' | ⟨-, s, hs, h'⟩
  · exact h.whole t' sid h'
  · simp [hret s hs] at h'

theorem calls (h : Inv x e) (hc : Calls e e') : Inv x e' := by
  induction hc with
  | refl => exact h
  | call t _ ha hm ih =>
    exact ih.call (ih.tables.can_call t hm) (by rintro rfl; exact ha) fun s _ =>
      returned_eq_nil hm s

theorem pop (h : Inv x e) (hs : (e.conn t).mux = some s) (hfr : s.front = some ev)
    (hx : ∀ sid, ev.openedId = some sid → x t sid) : Inv x (e.call t .nextEvent) := by
  have hf := h.tables.can_call t (a := .nextEvent) (by simp)
  refine ⟨h.tables.call hf, h.fins.call h.tables hf, fun t' sid' hm => ?_⟩
  rcases misses_pop h.tables hs hfr hm with h' | ⟨rfl, h'⟩
  · exact h.whole t' sid' h'
  · exact hx sid' h'

theorem alike (h : Inv x e) (ha : Alike e e') : Inv x e' := by
  have hr : e'.routeOf = e.routeOf := funext fun k => by rw [routeOf, routeOf, ha.routes]
  refine ⟨ha.tables h.tables, ?_, ?_⟩
  · intro p r hp d hd
    rw [ha.heap] at hp
    obtain ⟨⟨s, hs, hm⟩, h2⟩ := h.fins p r hp d hd
    exact ⟨⟨s, by rwa [ha.mux], hm⟩, fun s hs => h2 s (by rwa [ha.mux] at hs)⟩
  · rintro t sid ⟨s, hs, hd, hc, hno⟩
    rw [ha.mux] at hs
    rw [hr] at hno
    exact h.whole t sid ⟨s, hs, hd, hc, hno⟩

theorem setRoute (h : Inv x e) (hp : e.heap p = some r) (hk : ∀ d, r'.key d = r.key d)
    (hfin : ∀ d, r'.fin d = true → r.fin d = true
      ∨ Told e (r.tunnel d) (r.sid d) ∧ Shut e (r.tunnel d.other) (r.sid d.other)) :
    Inv x (e.setRoute p r') := by
  refine ⟨h.tables.setRoute hp hk, h.fins.setRoute fun d hd => ?_, h.whole⟩
  have hkey := fun d => Prod.mk.inj (hk d)
  rw [(hkey d).1, (hkey d).2, (hkey d.other).1, (hkey d.other).2]
  exact (hfin d hd).elim (h.fins p r hp d) id

theorem relay (h : Inv x e) (hp : e.heap p = some r) (d) : Inv x (e.relay p r d) := by
  have hc := relayed_calls e r d
  exact (h.calls hc).setRoute (hc.heap_eq ▸ hp) (by simp) fun d' hd => .inl (by simpa using hd)

theorem forwarded (h : Inv x e) (hs : (e.conn t).mux = some s) {data}
    (hfr : s.front = some (.data sid data)) (hp : e.heap p = some r) :
    Inv x (e.forwarded t p r data) := by
  have h₁ : Inv x ((e.call t .nextEvent).setRoute p (r.setPend (r.pend t.side ++ data) t.side)) :=
    (h.pop hs hfr (by simp [Event.openedId])).setRoute (by rwa [call_heap]) (by simp)
      fun d hd => .inl (by simpa using hd)
  unfold Router.forwarded
  split
  · exact h₁.relay (setRoute_self ..) _
  · exact h₁

theorem drop (h : Inv x e) (hp : e.heap p = some r) (hk : ∀ d, r'.key d = r.key d)
    (hoff : ∀ d, Off e (r.tunnel d) (r.sid d) ∨ x (r.tunnel d) (r.sid d)) :
    Inv x ((e.setRoute p r').routeFree p) := by
  have hp' : (e.setRoute p r').heap p = some r' := setRoute_self e p r'
  refine ⟨(h.tables.setRoute hp hk).free hp', fun q y hq d hd => ?_, fun t sid hm => ?_⟩
  · rw [routeFree_heap _ hp'] at hq
    by_cases hqp : q = p
    · subst hqp
      simp at hq
    · rw [Function.update_of_ne hqp, setRoute_of_ne hqp] at hq
      obtain ⟨⟨s, hs, hm⟩, h2⟩ := h.fins q y hq d hd
      exact ⟨⟨s, by rwa [routeFree_mux], hm⟩, fun s hs => h2 s (by rwa [routeFree_mux] at hs)⟩
  · rcases misses_free hp' hm with hm' | ⟨d, hd⟩
    · exact h.whole t sid hm'
    · rw [hk] at hd
      obtain ⟨rfl, rfl⟩ := Prod.mk.inj hd
      refine (hoff d).resolve_left fun hoff => Off.not_misses (fun s hs => hoff s ?_) hm
      rwa [routeFree_mux] at hs

/-- The streams of an OPENED and of its route are no longer without one. -/
theorem adopt (h : Inv x e) {i j} {w : Session} {ds metadata} {e₁ : Router ne nw}
    (hs : (e.conn (.edge i)).mux = some s) (hfr : s.front = some (.opened sid metadata))
    (hal : Alike (e.call (.edge i) .nextEvent) e₁) (hw : (e₁.conn (.worker j)).mux = some w)
    (ho : (muxOpen w metadata).2 = .ok ds) (hf : Few (w.call (.open metadata)).toCore) :
    Inv x ((e₁.call (.worker j) (.open metadata)).routeNew i sid j ds) := by
  obtain ⟨h1, h2, h3, h4⟩ := admit_fresh h.tables hs hfr hal hw ho hf
  -- until the route is made, the stream of the edge is without
  have h₁ : Inv (fun t' sid' => x t' sid' ∨ (.edge i, sid) = (t', sid')) e₁ := by
    refine ((h.mono fun _ _ => .inl).pop hs hfr fun sid' hsid => .inr ?_).alike hal
    rw [some.inj hsid]
  have hcan : CanCall e₁ (.worker j) (.open metadata) := fun s' hs' => by
    rw [hw, some_inj] at hs'
    exact hs' ▸ hf
  refine ⟨(h₁.tables.call hcan).new (s := s.call .nextEvent) (w := w.call (.open metadata)) ?_ h4
    (by rwa [call_routeOf]) ?_ ?_ (by rwa [call_routeOf]), (h₁.fins.call h₁.tables hcan).new,
    fun t' sid' hm => ?_⟩
  · rw [call_of_ne _ _ _ (by simp), h3]
  · rw [call_mux_self, hw]
    rfl
  · rw [Session.call_synIds (h₁.tables.served _ w hw).wf]
    simp [Session.returned, ho, Except.toOption]
  · obtain ⟨hm, hk⟩ := misses_new hm
    rcases misses_call h₁.tables hcan (by simp) hm with h' | ⟨rfl, w', hw', hret⟩
    · exact (h₁.whole t' sid' h').resolve_right (hk .up)
    · rw [hw, some_inj] at hw'
      subst hw'
      rw [Session.returned, ho] at hret
      exact absurd (by rw [mem_singleton.1 hret]; rfl) (hk .down)

/-- A new session carries no stream yet. -/
theorem plug (h : Inv x e) (hno : ∀ sid, e.routeOf (t, sid) = none) {g}
    (hroutes : (g (e.conn t)).routes = (e.conn t).routes)
    (hinfl : ∀ j, t = .worker j → (g (e.conn t)).inflight.toNat = (e.conn t).routes.keys.length)
    (hmux : ∀ s, (g (e.conn t)).mux = some s → ∃ cfg role, muxSessionNew cfg role = some s) :
    Inv x (e.modify t g) := by
  have hrof : (e.modify t g).routeOf = e.routeOf :=
    funext fun k => by rw [routeOf, routeOf, modify_field _ _ _ routes hroutes]
  have hne : ∀ {p r}, e.heap p = some r → ∀ d, r.tunnel d ≠ t := fun {p r} hp d hd => by
    have := h.tables.index.reach p r hp d
    rw [key, hd, hno] at this
    cases this
  refine ⟨h.tables.replug hno hroutes hinfl fun s hs => ?_, fun p r hp d hd => ?_,
    fun t' sid hm => ?_⟩
  · obtain ⟨cfg, role, hnew⟩ := hmux s hs
    exact (served_new hnew).1
  · obtain ⟨⟨s, hs, hm⟩, h2⟩ := h.fins p r hp d hd
    refine ⟨⟨s, ?_, hm⟩, fun s hs => h2 s ?_⟩
    · rwa [modify_of_ne _ _ _ (hne hp d)]
    · rwa [modify_of_ne _ _ _ (hne hp d.other)] at hs
  · obtain ⟨s, hs, hd, hc, hnone⟩ := hm
    by_cases ht : t' = t
    · subst ht
      rw [modify_self] at hs
      obtain ⟨cfg, role, hnew⟩ := hmux s hs
      exact absurd hc.1 (not_live_new hnew sid)
    · rw [modify_of_ne _ _ _ ht] at hs
      rw [hrof] at hnone
      exact h.whole t' sid ⟨s, hs, hd, hc, hnone⟩

end Inv

/-- The streams that the part leaves without a route are of the kind `x`. -/
def Spares (x : Tunnel ne nw → UInt32 → Prop) : Deed ne nw → Prop
  | .lose t ev => ∀ sid, ev.openedId = some sid → x t sid
  | .free _ t => ∀ t' sid, t = some t' → x t' sid
  | _ => True

/-- A part keeps the tables, and leaves no stream without a route but those it may. -/
theorem Part.inv {l} (h : Part e l e') (hl : Spares x l) (hi : Inv x e) : Inv x e' := by
  cases h with
  | alike h => exact hi.alike h
  | call hf ha _ _ hret => exact hi.call hf ha hret
  | pop hs hfr => exact hi.pop hs hfr hl
  | forward hs hfr hp => exact hi.forwarded hs hfr hp
  | wake hs hfr hp =>
    exact (hi.pop hs hfr (by simp [Event.openedId])).relay (by rwa [call_heap]) _
  | relay d hp => exact hi.relay hp d
  | @finish p r d hp htold hshut =>
    refine hi.setRoute hp (by simp) fun d' hd' => ?_
    rcases Side.eq_or_eq_other d d' with rfl | rfl
    · exact .inr ⟨htold, hshut⟩
    · refine .inl ?_
      cases d <;> simpa [setFin, fin, Side.other] using hd'
  | free hp hk hoff => exact hi.drop hp (fun d => (hk d).1) fun d => (hoff d).imp_right (hl _ _)
  | adopt hs hfr hal hw ho hf => exact hi.adopt hs hfr hal hw ho hf
  | plug hno hroutes hinfl _ hmux => exact hi.plug hno hroutes hinfl hmux

/-- What every part keeps, in states with the tables, a sequence of parts keeps. -/
theorem Parts.inv {I : Router ne nw → Prop} (h : Parts L e e') (hi : Inv x e) (h₀ : I e)
    (hpart : ∀ {e e' l}, Tables e → I e → L l → Part e l e' → I e') : I e' :=
  (Reach.inv (I := fun e => Inv (fun _ _ => True) e ∧ I e) ⟨hi.mono fun _ _ _ => trivial, h₀⟩
    (fun _ l _ ⟨h1, h2⟩ hl hp =>
      ⟨hp.inv (by cases l <;> simp [Spares]) h1, hpart h1.tables h2 hl hp⟩) h).2

/-- What holds between the moves. -/
structure Steady (e : Router ne nw) : Prop extends Inv (fun _ _ => False) e where
  firm : Firm e
  books : Books (fun _ => False) e

/-! ### The handlers -/

theorem relayed_setRoute (e : Router ne nw) (p : ℕ) (r r' d) :
    (e.setRoute p r').relayed r d = (e.relayed r d).setRoute p r' := by
  unfold relayed
  rw [show (e.setRoute p r').relays r d = e.relays r d from rfl, setRoute_call]
  split
  · rw [setRoute_call]
  · rfl

theorem flushLoop_setRoute (src srcSid dst dstSid) (p : ℕ) (r) :
    ∀ (n : ℕ) (e : Router ne nw) (b : Bytes),
    flushLoop src srcSid dst dstSid n (e.setRoute p r) b
      = ((flushLoop src srcSid dst dstSid n e b).1.setRoute p r,
        (flushLoop src srcSid dst dstSid n e b).2)
  | 0, _, _ => rfl
  | n + 1, e, b => by
    unfold flushLoop
    by_cases hb : b = []
    · rw [if_pos hb, if_pos hb]
    rw [if_neg hb, if_neg hb]
    rw [show (e.setRoute p r).accepts dst dstSid b = e.accepts dst dstSid b from rfl, setRoute_call]
    by_cases hw : e.accepts dst dstSid b = 0
    · rw [if_pos hw, if_pos hw]
    · rw [if_neg hw, if_neg hw, setRoute_call, flushLoop_setRoute src srcSid dst dstSid p r n]

/-- The loop of `flush_pend` over what is pending of side `d`, with what stays. -/
def flushed (n : ℕ) (e : Router ne nw) (p : ℕ) (r : Route ne nw) (d : Side) : Router ne nw :=
  let res := flushLoop (r.tunnel d) (r.sid d) (r.tunnel d.other) (r.sid d.other) n e (r.pend d)
  res.1.setRoute p (r.setPend res.2 d)

theorem flushed_nil (n : ℕ) (hp : e.heap p = some r) (hnil : r.pend d = []) :
    flushed n e p r d = e := by
  unfold flushed
  cases n with
  | zero => simp only [flushLoop, setPend_pend, setRoute_eq_self hp]
  | succ n => simp only [flushLoop, if_pos hnil, setPend_pend, setRoute_eq_self hp]

theorem flushed_succ (n : ℕ) (e : Router ne nw) (hne : r.pend d ≠ []) :
    flushed (n + 1) e p r d = if e.relays r d = 0 then e.relay p r d
      else flushed n (e.relay p r d) p (r.setPend ((r.pend d).drop (e.relays r d)) d) d := by
  unfold flushed
  rw [flushLoop, if_neg hne]
  dsimp only
  rw [show e.accepts (r.tunnel d.other) (r.sid d.other) (r.pend d) = e.relays r d from rfl]
  by_cases hw : e.relays r d = 0
  · rw [if_pos hw, if_pos hw, relay, relayed, hw]
    rfl
  · rw [if_neg hw, if_neg hw, relay, flushLoop_setRoute, relayed]
    dsimp only
    rw [if_pos (Nat.pos_of_ne_zero hw), setRoute_setRoute]
    simp

/-- The loop of `flush_pend` forwards until no more is taken. -/
theorem flushed_parts (hL : L .plain) (d) : ∀ (n : ℕ) {e : Router ne nw} {r : Route ne nw},
    e.heap p = some r → (r.pend d).length ≤ n → Parts L e (flushed n e p r d)
  | 0, e, r, hp, hn => by
    rw [flushed_nil 0 hp (length_eq_zero_iff.1 (Nat.le_zero.1 hn))]
    exact .start
  | n + 1, e, r, hp, hn => by
    by_cases hnil : r.pend d = []
    · rw [flushed_nil _ hp hnil]
      exact .start
    have hfirst : Parts L e (e.relay p r d) := .single hL (.relay d hp)
    rw [flushed_succ n e hnil]
    split
    · exact hfirst
    · refine hfirst.trans (flushed_parts hL d n (setRoute_self ..) ?_)
      rw [pend_setPend_self, length_drop]
      omega

theorem find_call (e : Router ne nw) (t a t' sid) : (e.call t a).find t' sid = e.find t' sid := by
  rw [find, find, call_routes, call_heap]

theorem Tables.hasMux (hi : Tables e) (hp : e.heap p = some r) (d) :
    e.hasMux (r.tunnel d) = true := by
  obtain ⟨s, hs, -⟩ := hi.ids _ _ p (hi.index.reach p r hp d)
  simp [Router.hasMux, hs]

theorem Tables.no_route (hi : Tables e) (hf : e.find t sid = none) (hp : e.heap p = some r)
    (ht : r.tunnel t.side = t) : r.sid t.side ≠ sid := by
  rintro rfl
  have := hi.index.reach p r hp t.side
  rw [key, ht, routeOf] at this
  simp [find, this, hp] at hf

theorem fwd_nil (e : Router ne nw) (r : Route ne nw) (d : Side) (data : Bytes) :
    e.fwd (r.tunnel d) (r.sid d) (r.tunnel d.other) (r.sid d.other) [] data
      = (e.relayed (r.setPend data d) d, data.drop (e.relays (r.setPend data d) d)) := by
  have hw : e.relays (r.setPend data d) d
      = e.accepts (r.tunnel d.other) (r.sid d.other) data := by simp [relays]
  have hle : e.accepts (r.tunnel d.other) (r.sid d.other) data ≤ data.length := accepts_le data
  unfold fwd relayed
  rw [if_neg (by simp)]
  dsimp only
  rw [hw]
  simp only [tunnel_setPend, sid_setPend, pend_setPend_self]
  congr 1
  split
  · rfl
  · rw [drop_eq_nil_of_le (by omega)]

theorem Inv.unfinished (h : Inv x e) (hs : (e.conn t).mux = some s) {data}
    (hfr : s.front = some (.data sid data)) (hp : e.heap p = some r)
    (hk : r.key t.side = (t, sid)) : r.fin t.side = false := by
  by_contra hfin
  obtain ⟨⟨s', hs', hm⟩, -⟩ := h.fins p r hp t.side (by simpa using hfin)
  obtain ⟨htun, hsid⟩ := Prod.mk.inj hk
  rw [htun, hs, some_inj] at hs'
  subst hs'
  rw [hsid] at hm
  have hsv := h.tables.served t s hs
  obtain ⟨s₁, hs₁, hids⟩ := h.tables.ids t sid p (hk ▸ h.tables.index.reach p r hp t.side)
  rw [hs, some_inj] at hs₁
  exact hsv.not_closed_of_data (Served.knows_of_ids t (hs₁ ▸ hids)) hfr hm

/-- DATA is forwarded, or kept behind what is pending. -/
theorem onStreamData_parts (h : Inv x e) (hs : (e.conn t).mux = some s) {data}
    (hfr : s.front = some (.data sid data)) (hkeep : L .keep)
    (hlose : e.find t sid = none → L (.lose t (.data sid data))) :
    Parts L e ((e.call t .nextEvent).onStreamData t sid data) := by
  have hi := h.tables
  unfold onStreamData
  rw [find_call]
  rcases hf : e.find t sid with _ | ⟨p, r⟩
  · refine .single (hlose hf) (.pop hs hfr fun p r hp ht => ⟨?_, by simp⟩)
    exact if_neg (hi.no_route hf hp ht).symm
  obtain ⟨hp, htun, hsid⟩ := hi.of_find hf
  have hk : r.key t.side = (t, sid) := Prod.ext htun hsid
  dsimp only
  rw [if_neg (by simp [(hi.pop t).hasMux (by rwa [call_heap]) t.side.other])]
  have hpart : Parts L e (e.forwarded t p r data) := .single hkeep
    (.forward hs hfr hp hk (h.unfinished hs hfr hp hk))
  convert hpart using 1
  unfold forwarded
  dsimp only
  by_cases hnil : r.pend t.side = []
  · have hfwd := fwd_nil (e.call t .nextEvent) r t.side data
    rw [htun] at hfwd
    rw [if_pos hnil, hnil, hfwd]
    simp only [nil_append, relay, relayed_setRoute, setRoute_setRoute, setPend_setPend,
      pend_setPend_self]
    rfl
  · rw [fwd, if_pos hnil, if_neg hnil]

theorem onWritable_parts (hi : Tables e) (hs : (e.conn t).mux = some s)
    (hfr : s.front = some (.writable sid)) (hL : L .plain) (hkeep : L .keep)
    (hlose : L (.lose t (.writable sid))) :
    Parts L e ((e.call t .nextEvent).onWritable t sid) := by
  unfold onWritable
  rw [find_call]
  rcases hf : e.find t sid with _ | ⟨p, r⟩
  · refine .single hlose (.pop hs hfr fun p r hp ht => ⟨rfl, fun hev => ?_⟩)
    exact absurd (Event.writable.inj hev).symm (hi.no_route hf hp ht)
  obtain ⟨hp, htun, hsid⟩ := hi.of_find hf
  have hk : r.key t.side = (t, sid) := Prod.ext htun hsid
  have hp' : (e.call t .nextEvent).heap p = some r := by rwa [call_heap]
  dsimp only
  rw [if_neg (by simp [(hi.pop t).hasMux hp' t.side.other])]
  have heq : ((e.call t .nextEvent).flushPend (r.tunnel t.side.other) (r.sid t.side.other) t
      (r.sid t.side) (r.pend t.side.other)).1.setRoute p
        (r.setPend ((e.call t .nextEvent).flushPend (r.tunnel t.side.other) (r.sid t.side.other) t
          (r.sid t.side) (r.pend t.side.other)).2 t.side.other)
      = flushed (r.pend t.side.other).length (e.call t .nextEvent) p r t.side.other := by
    unfold flushed flushPend
    rw [Side.other_other, htun]
  rw [heq]
  by_cases hnil : r.pend t.side.other = []
  · rw [flushed_nil _ hp' hnil]
    refine .single hlose (.pop hs hfr fun q r₁ hq ht => ⟨rfl, fun hev => ?_⟩)
    have hkey : r₁.key t.side = r.key t.side := by
      rw [hk]
      exact Prod.ext ht (Event.writable.inj hev).symm
    obtain rfl := hi.index.unique hq hp hkey
    rw [hp, some_inj] at hq
    exact hq ▸ hnil
  · have hfirst : Parts L e ((e.call t .nextEvent).relay p r t.side.other) :=
      .single hkeep (.wake hs hfr hp hk)
    obtain ⟨n, hn⟩ : ∃ n, (r.pend t.side.other).length = n + 1 :=
      Nat.exists_eq_succ_of_ne_zero fun h => hnil (length_eq_zero_iff.1 h)
    rw [hn, flushed_succ n _ hnil]
    split
    · exact hfirst
    · refine hfirst.trans (flushed_parts hL _ n (setRoute_self ..) ?_)
      rw [pend_setPend_self, length_drop]
      omega

/-- Calls that neither write nor consume nor take an event, on any state with the tables. -/
theorem call_parts (hi : Tables e) (hL : L .plain) (t) (ha : a ≠ .nextEvent) (hm : ∀ m, a ≠ .open m)
    (hw : ∀ sid b, a ≠ .write sid b) (hc : a.credits = []) :
    Parts L e (e.call t a) :=
  .single hL (.call (hi.can_call t hm) ha hw hc fun s _ => returned_eq_nil hm s)

/-- What `L` has to allow for CLOSED, in the state after it is taken. -/
def ClosedOk (L : Deed ne nw → Prop) (e : Router ne nw) (t : Tunnel ne nw) (sid : UInt32) : Prop :=
  ∀ p r, e.find t sid = some (p, r) →
    let b := (e.flushPend t sid (r.tunnel t.side.other) (r.sid t.side.other) (r.pend t.side)).2
    L (.finish (r.setPend b t.side) t.side)
      ∧ (r.fin t.side.other = true → L (.free ((r.setPend b t.side).setFin t.side) none))

/-- CLOSED: what is pending is flushed, the other side closed, and a route that both have closed is
freed. -/
theorem onStreamClosed_parts (h : Inv x e) (htold : Told e t sid) (hL : L .plain)
    (hend : ClosedOk L e t sid) : Parts L e (e.onStreamClosed t sid) := by
  have hi := h.tables
  unfold onStreamClosed
  rcases hf : e.find t sid with _ | ⟨p, r⟩
  · exact .start
  obtain ⟨hp, htun, hsid⟩ := hi.of_find hf
  obtain ⟨hfin, hfree⟩ := hend p r hf
  dsimp only
  rw [if_neg (by simp [hi.hasMux hp t.side.other]), hsid]
  have hc := flushPend_calls e t sid (r.tunnel t.side.other) (r.sid t.side.other) (r.pend t.side)
  have hflush : Parts L e (flushed (r.pend t.side).length e p r t.side) :=
    flushed_parts hL t.side _ hp (Nat.le_refl _)
  unfold flushed at hflush
  rw [htun, hsid, show flushLoop t sid (r.tunnel t.side.other) (r.sid t.side.other)
    (r.pend t.side).length e (r.pend t.side) = e.flushPend t
      sid (r.tunnel t.side.other) (r.sid t.side.other) (r.pend t.side) from rfl] at hflush
  generalize e.flushPend t sid (r.tunnel t.side.other) (r.sid t.side.other)
    (r.pend t.side) = res at hc hflush hfin hfree
  obtain ⟨e₁, b⟩ := res
  dsimp only at hc hflush hfin hfree ⊢
  have hi₁ := hc.tables hi
  have hp₁ : e₁.heap p = some r := by rw [hc.heap_eq, hp]
  have hclose := e₁.setRoute_call p (r.setPend b t.side) (r.tunnel t.side.other)
    (.close (r.sid t.side.other))
  have h₂ : Parts L e (e₁.call (r.tunnel t.side.other) (.close (r.sid t.side.other)) |>.setRoute p
      (r.setPend b t.side)) := by
    rw [← hclose]
    exact hflush.trans (call_parts (hi₁.setRoute hp₁ (by simp)) hL _ (by simp) (by simp)
      (by simp) rfl)
  have htold : Told (e₁.call (r.tunnel t.side.other) (.close (r.sid t.side.other))) t sid :=
    Told.call hi₁ (hc.told hi htold)
  have hshut := shut_close hi₁ (r.tunnel t.side.other) (r.sid t.side.other)
  have hinv := (h.calls hc).calls
    (.call (r.tunnel t.side.other) (a := .close (r.sid t.side.other)) .refl (by trivial) (by simp))
  have hp₂ := (call_heap e₁ (r.tunnel t.side.other) (.close (r.sid t.side.other))).symm ▸ hp₁
  generalize e₁.call (r.tunnel t.side.other) (.close (r.sid t.side.other)) = e₂ at *
  have h₃ : Parts L e (e₂.setRoute p ((r.setPend b t.side).setFin t.side)) := by
    rw [← setRoute_setRoute e₂ p (r.setPend b t.side)]
    refine .step h₂ hfin (.finish t.side (setRoute_self ..) ?_ ?_)
    · rw [tunnel_setPend, sid_setPend, htun, hsid]
      exact htold
    · rw [tunnel_setPend, sid_setPend]
      exact hshut
  split
  · rename_i hboth
    obtain ⟨h4, h5⟩ := hinv.fins p r hp₂ _ hboth
    rw [Side.other_other] at h5
    rw [← setRoute_eq_self (setRoute_self e₂ p ((r.setPend b t.side).setFin t.side))]
    refine .step h₃ (hfree hboth) (.free (setRoute_self ..) (fun _ => ⟨rfl, rfl⟩) fun d => .inl ?_)
    have hkey : ((r.setPend b t.side).setFin t.side).key d = r.key d := by simp
    obtain ⟨htun', hsid'⟩ := Prod.mk.inj hkey
    rw [htun', hsid']
    change Off e₂ _ _
    rcases Side.eq_or_eq_other t.side d with rfl | rfl
    · rw [htun, hsid] at h5 ⊢
      exact htold.off hinv.tables h5
    · exact h4.off hinv.tables hshut
  · exact h₃

/-- A side of a route is reset, unless its stream is off. -/
theorem resetIf_parts (hi : Tables e) (hp : e.heap p = some r) (hL : L .plain) {b : Bool} (d)
    (hoff : b = true ∨ Off e (r.tunnel d) (r.sid d)) :
    ∃ e₁, (if b then e.call (r.tunnel d) (.reset (r.sid d) muxCodeInternal) else e) = e₁
      ∧ Parts L e e₁ ∧ Tables e₁ ∧ e₁.heap p = some r ∧ Off e₁ (r.tunnel d) (r.sid d)
      ∧ ∀ d', Off e (r.tunnel d') (r.sid d') → Off e₁ (r.tunnel d') (r.sid d') := by
  refine ⟨_, rfl, ?_⟩
  by_cases hb : b = true
  · rw [if_pos hb]
    have hcan := hi.can_call (r.tunnel d) (a := .reset (r.sid d) muxCodeInternal) (by simp)
    exact ⟨call_parts hi hL _ (by simp) (by simp) (by simp) rfl, hi.call hcan, by rwa [call_heap],
      off_reset hi _ _ _, fun d' ho => ho.call hi (hi.index.reach p r hp d') hcan⟩
  · rw [if_neg hb]
    exact ⟨.start, hi, hp, hoff.resolve_left hb, fun _ => id⟩

/-- A route is killed: the sides whose stream is live are reset, and it is freed. -/
theorem routeKill_parts (hi : Tables e) (hp : e.heap p = some r) (hL : L .plain)
    (hfree : L (.free { r with gone := true } none)) {rstUp rstDown : Bool}
    (hup : rstUp = true ∨ Off e (r.tunnel .up) (r.sid .up))
    (hdown : rstDown = true ∨ Off e (r.tunnel .down) (r.sid .down)) :
    Parts L e (e.routeKill p rstUp rstDown) := by
  unfold routeKill
  rw [hp]
  dsimp only
  split
  · exact .start
  have hk : ∀ d, key d { r with gone := true } = r.key d
      ∧ pend { r with gone := true } d = r.pend d := by
    intro d
    cases d <;> exact ⟨rfl, rfl⟩
  generalize ({ r with gone := true } : Route ne nw) = r' at hk hfree
  have hcomm : ∀ (e : Router ne nw) (b : Bool) (t : Tunnel ne nw) (sid : UInt32),
      (if b then (e.setRoute p r').call t (.reset sid muxCodeInternal) else e.setRoute p r')
        = (if b then e.call t (.reset sid muxCodeInternal) else e).setRoute p r' := by
    intro e b t sid
    split
    · exact setRoute_call ..
    · rfl
  obtain ⟨e₁, heq₁, h₁, hi₁, hp₁, hoff₁, hkeep₁⟩ := resetIf_parts hi hp hL .up hup
  obtain ⟨e₂, heq₂, h₂, hi₂, hp₂, hoff₂, hkeep₂⟩ :=
    resetIf_parts hi₁ hp₁ hL .down (hdown.imp_right (hkeep₁ .down))
  rw [hcomm, hcomm]
  simp only [tunnel, Route.sid] at heq₁ heq₂
  rw [heq₁, heq₂]
  refine .step (h₁.trans h₂) hfree (.free hp₂ hk fun d => .inl ?_)
  cases d with
  | up => exact hkeep₂ .up hoff₁
  | down => exact hoff₂

theorem pop_parts (hs : (e.conn t).mux = some s) (hfr : s.front = some ev) (hlose : L (.lose t ev))
    (hev : (∀ sid, ev.bytesOn sid = []) ∧ ∀ sid, ev ≠ .writable sid) :
    Parts L e (e.call t .nextEvent) :=
  .single hlose (.pop hs hfr fun _ _ _ _ => ⟨hev.1 _, fun h => absurd h (hev.2 _)⟩)

theorem modify_alike {g}
    (hg : ∀ c, (g c).mux = c.mux ∧ (g c).routes = c.routes ∧ (g c).inflight = c.inflight
      ∧ (g c).credits = c.credits) : Alike e (e.modify t g) :=
  ⟨rfl, rfl, rfl, fun _ => modify_field _ _ _ mux (hg _).1,
    fun _ => modify_field _ _ _ routes (hg _).2.1,
    fun _ => modify_field _ _ _ inflight (hg _).2.2.1,
    fun _ => modify_field _ _ _ credits (hg _).2.2.2⟩

/-- What `L` has to allow for an event of `t`. -/
structure Permitted (L : Deed ne nw → Prop) (e : Router ne nw) (t : Tunnel ne nw) (ev : Event) :
    Prop where
  plain : L .plain
  keep : L .keep
  lose : (∀ sid, ev.bytesOn sid = []) → L (.lose t ev)
  data : ∀ sid b, ev = .data sid b → e.find t sid = none → L (.lose t ev)
  closed : ∀ sid, ev = .closed sid → ClosedOk L (e.call t .nextEvent) t sid
  reset : ∀ sid code, ev = .reset sid code → ∀ p r, e.find t sid = some (p, r) →
    L (.free { r with gone := true } none)

theorem told_pop (hi : Tables e) (hs : (e.conn t).mux = some s)
    (hfr : s.front = some (.closed sid)) :
    Told (e.call t .nextEvent) t sid := by
  refine ⟨s.call .nextEvent, ?_, ?_⟩
  · rw [call_mux_self, hs]
    rfl
  · rw [(hi.served t s hs).popped_front hfr]
    simp

theorem onClosed_parts (h : Inv x e) (hs : (e.conn t).mux = some s)
    (hfr : s.front = some (.closed sid)) (hok : Permitted L e t (.closed sid)) :
    Parts L e ((e.call t .nextEvent).onStreamClosed t sid) :=
  (pop_parts hs hfr (hok.lose fun _ => rfl) ⟨fun _ => rfl, by simp⟩).trans
    (onStreamClosed_parts (h.pop hs hfr (by simp [Event.openedId])) (told_pop h.tables hs hfr)
      hok.plain (hok.closed sid rfl))

theorem onReset_parts (hi : Tables e) (hs : (e.conn t).mux = some s) {code}
    (hfr : s.front = some (.reset sid code)) (hok : Permitted L e t (.reset sid code))
    {rstUp rstDown : Bool} (hup : rstUp = true ∨ t.side = .up)
    (hdown : rstDown = true ∨ t.side = .down) :
    Parts L e (match (e.call t .nextEvent).find t sid with
      | none => e.call t .nextEvent
      | some (p, _) => (e.call t .nextEvent).routeKill p rstUp rstDown) := by
  have hpop := pop_parts hs hfr (hok.lose fun _ => rfl) ⟨fun _ => rfl, by simp⟩
  rw [find_call]
  rcases hf : e.find t sid with _ | ⟨p, r⟩
  · exact hpop
  · obtain ⟨hp, htun, hsid⟩ := hi.of_find hf
    have hoff : Off (e.call t .nextEvent) (r.tunnel t.side) (r.sid t.side) := by
      rw [htun, hsid]
      have hev : .reset sid code ∈ (s.call .nextEvent).popped := by
        rw [(hi.served t s hs).popped_front hfr]
        simp
      exact (hi.pop t).off_of_reset (by rw [call_mux_self, hs]; rfl) hev
    exact hpop.trans (routeKill_parts (hi.pop t) (by rwa [call_heap]) hok.plain
      (hok.reset sid code rfl p r hf) (hup.imp_right fun (h : t.side = .up) => h ▸ hoff)
      (hdown.imp_right fun (h : t.side = .down) => h ▸ hoff))

/-- An OPENED is refused, or its stream gets a route. -/
theorem onOpened_cases {i metadata}
    (hready : ∀ t, (e.conn t).ready = true → (e.conn t).mux ≠ none)
    (hfew : AllFew (e.onUpEvent hmac i (.opened sid metadata))) :
    ∃ e₁, Alike e e₁
      ∧ (e.onUpEvent hmac i (.opened sid metadata) = e₁.call (.edge i) (.reset sid muxCodeRefused)
        ∨ ∃ j w, (e₁.conn (.worker j)).mux = some w ∧ Few (w.call (.open metadata)).toCore
          ∧ ((w.returned (.open metadata) = [] ∧ e.onUpEvent hmac i (.opened sid metadata)
              = (e₁.call (.worker j) (.open metadata)).call (.edge i) (.reset sid muxCodeRefused))
            ∨ ∃ ds, (muxOpen w metadata).2 = .ok ds ∧ e.onUpEvent hmac i (.opened sid metadata)
              = (e₁.call (.worker j) (.open metadata)).routeNew i sid j ds)) := by
  unfold onUpEvent at hfew ⊢
  obtain ⟨hal, -, hpicked⟩ := pickWorker_picked e
  rcases hpick : e.pickWorker with ⟨e₁, _ | j⟩
  all_goals
    rw [hpick] at hal hpicked hfew
    dsimp only at hal hpicked hfew ⊢
    refine ⟨e₁, hal, ?_⟩
  · exact .inl rfl
  obtain ⟨w, hw⟩ := ne_none_iff_exists'.1 (hready _ (hpicked j rfl))
  rw [← hal.mux] at hw
  rw [hw] at hfew ⊢
  dsimp only at hfew ⊢
  have hmux : ((e₁.call (.worker j) (.open metadata)).conn (.worker j)).mux
      = some (w.call (.open metadata)) := by
    rw [call_mux_self, hw]
    rfl
  refine .inr ⟨j, w, hw, ?_⟩
  rcases ho : (muxOpen w metadata).2 with err | ds
  all_goals
    rw [ho] at hfew
    dsimp only at hfew ⊢
  · refine ⟨hfew (.worker j) _ ?_, .inl ⟨by rw [Session.returned, ho]; rfl, rfl⟩⟩
    rw [call_of_ne _ _ _ (by simp), hmux]
  · refine ⟨hfew (.worker j) _ ?_, .inr ⟨ds, rfl, rfl⟩⟩
    rw [routeNew_mux, hmux]

theorem Steady.ready_pop (h : Steady e) (t t') (hr : ((e.call t .nextEvent).conn t').ready = true) :
    ((e.call t .nextEvent).conn t').mux ≠ none :=
  ((sameLinks_call e t _).wired h.firm.base.wired).ready t' hr

/-- Every event of an edge is made of parts. -/
theorem onUpEvent_parts (h : Steady e) {i} (hs : (e.conn (.edge i)).mux = some s)
    (hfr : s.front = some ev) (hfew : AllFew ((e.call (.edge i) .nextEvent).onUpEvent hmac i ev))
    (hok : Permitted L e (.edge i) ev) :
    Parts L e ((e.call (.edge i) .nextEvent).onUpEvent hmac i ev) := by
  have hi := h.tables
  have hi₁ := hi.pop (.edge i)
  cases ev with
  | data sid data => exact onStreamData_parts h.toInv hs hfr hok.keep (hok.data sid data rfl)
  | writable sid => exact onWritable_parts hi hs hfr hok.plain hok.keep (hok.lose fun _ => rfl)
  | closed sid => exact onClosed_parts h.toInv hs hfr hok
  | reset sid code => exact onReset_parts hi hs hfr hok (.inr rfl) (.inl rfl)
  | capacity | goaway | fatal =>
    exact pop_parts hs hfr (hok.lose fun _ => rfl) ⟨fun _ => rfl, by simp⟩
  | peerHello weight maxStreams sessionWindow peerId auth nonce =>
    have hpop := pop_parts hs hfr (hok.lose fun _ => rfl) ⟨fun _ => rfl, by simp⟩
    unfold onUpEvent
    dsimp only
    split
    · exact .step hpop hok.plain (.alike (modify_alike (by simp)))
    · exact hpop.trans (call_parts hi₁ hok.plain _ (by simp) (by simp) (by simp) rfl)
  | opened sid metadata =>
    have hpop := pop_parts hs hfr (hok.lose fun _ => rfl) ⟨fun _ => rfl, by simp⟩
    obtain ⟨e₁, hal, heq⟩ := onOpened_cases (h.ready_pop _) hfew
    have hpick : Parts L e e₁ := .step hpop hok.plain (.alike hal)
    have hi₂ := hal.tables hi₁
    rcases heq with heq | ⟨j, w, hw, hf, ⟨hret, heq⟩ | ⟨ds, ho, heq⟩⟩
    all_goals rw [heq]
    · exact hpick.trans (call_parts hi₂ hok.plain _ (by simp) (by simp) (by simp) rfl)
    · have hcan : CanCall e₁ (.worker j) (.open metadata) := fun s' hs' => by
        rw [hw, some_inj] at hs'
        exact hs' ▸ hf
      refine (Reach.step hpick hok.plain
        (.call hcan (by simp) (by simp) rfl fun s' hs' => ?_)).trans
        (call_parts (hi₂.call hcan) hok.plain _ (by simp) (by simp) (by simp) rfl)
      rw [hw, some_inj] at hs'
      exact hs' ▸ hret
    · exact .single hok.keep (.adopt hs hfr hal hw ho hf)

/-- Every event of a worker is made of parts. -/
theorem onWorkerEvent_parts (h : Inv x e) {j}
    (hs : (e.conn (.worker j)).mux = some s) (hfr : s.front = some ev)
    (hok : Permitted L e (.worker j) ev) :
    Parts L e ((e.call (.worker j) .nextEvent).onWorkerEvent hmac j ev) := by
  have hi := h.tables
  have hi₁ := hi.pop (.worker j)
  cases ev with
  | data sid data => exact onStreamData_parts h hs hfr hok.keep (hok.data sid data rfl)
  | writable sid => exact onWritable_parts hi hs hfr hok.plain hok.keep (hok.lose fun _ => rfl)
  | closed sid => exact onClosed_parts h hs hfr hok
  | reset sid code => exact onReset_parts hi hs hfr hok (.inl rfl) (.inr rfl)
  | goaway | fatal => exact pop_parts hs hfr (hok.lose fun _ => rfl) ⟨fun _ => rfl, by simp⟩
  | peerHello weight maxStreams sessionWindow peerId auth nonce =>
    have hpop := pop_parts hs hfr (hok.lose fun _ => rfl) ⟨fun _ => rfl, by simp⟩
    unfold onWorkerEvent
    dsimp only
    split
    · exact .step hpop hok.plain (.alike (modify_alike (by simp)))
    · exact hpop.trans (call_parts hi₁ hok.plain _ (by simp) (by simp) (by simp) rfl)
  | capacity weight =>
    have hpop := pop_parts hs hfr (hok.lose fun _ => rfl) ⟨fun _ => rfl, by simp⟩
    unfold onWorkerEvent
    exact .step hpop hok.plain (.alike (modify_alike (by simp)))
  | opened sid metadata =>
    have hpop := pop_parts hs hfr (hok.lose fun _ => rfl) ⟨fun _ => rfl, by simp⟩
    exact hpop.trans (call_parts hi₁ hok.plain _ (by simp) (by simp) (by simp) rfl)

theorem nextEvent_parts (h : Steady e) (hfew : AllFew (e.nextEvent hmac t))
    (hok : ∀ s ev, (e.conn t).mux = some s → s.front = some ev → Permitted L e t ev) :
    Parts L e (e.nextEvent hmac t) := by
  rcases nextEvent_cases hmac e t with heq | ⟨s, ev, hs, hfr, heq⟩
  · rw [heq]
    exact .start
  rw [heq] at hfew ⊢
  cases t with
  | edge i => exact onUpEvent_parts h hs hfr hfew (hok s ev hs hfr)
  | worker j => exact onWorkerEvent_parts h.toInv hs hfr (hok s ev hs hfr)

/-- The stream of an OPENED has a route at the end, or is off. -/
theorem Steady.opened_settled (h : Steady e) (hfew : AllFew (e.nextEvent hmac t))
    (hs : (e.conn t).mux = some s) {metadata} (hfr : s.front = some (.opened sid metadata)) :
    ¬ Misses (e.nextEvent hmac t) t sid := by
  have hnext : e.nextEvent hmac t
      = (e.call t .nextEvent).onEvent hmac t (.opened sid metadata) := by
    rw [nextEvent, hs, bind_some, show (muxNextEvent s).2 = s.front from rfl, hfr]
  have hi₁ := h.tables.pop t
  rw [hnext] at hfew ⊢
  cases t with
  | worker j => exact (off_reset hi₁ _ _ _).not_misses
  | edge i =>
    obtain ⟨e₁, hal, heq⟩ := onOpened_cases (h.ready_pop _) hfew
    rcases heq with heq | ⟨j, w, hw, hf, ⟨-, heq⟩ | ⟨ds, -, heq⟩⟩
    all_goals
      rw [show (e.call (.edge i) .nextEvent).onEvent hmac (.edge i) (.opened sid metadata)
        = (e.call (.edge i) .nextEvent).onUpEvent hmac i (.opened sid metadata) from rfl, heq]
    · exact (off_reset (hal.tables hi₁) _ _ _).not_misses
    · refine (off_reset ((hal.tables hi₁).call fun s' hs' => ?_) _ _ _).not_misses
      rw [hw, some_inj] at hs'
      exact hs' ▸ hf
    · exact fun hm => (misses_new hm).2 .up rfl

/-! ### Moves -/

theorem resetRoutes_parts (hL : L .plain) (t : Tunnel ne nw) :
    ∀ (l : List (Sigma fun _ : UInt32 => ℕ)) {e : Router ne nw}, Tables e → Intact e →
    (∀ en ∈ l, e.routeOf (t, en.1) = some en.2) →
    Parts L e (l.foldl (resetRoute t) e) ∧ Calls e (l.foldl (resetRoute t) e)
      ∧ ∀ en ∈ l, ∀ r, e.heap en.2 = some r →
        Off (l.foldl (resetRoute t) e) (r.tunnel t.side.other) (r.sid t.side.other)
  | [], e, _, _, _ => ⟨.start, .refl, by simp⟩
  | en :: l, e, hi, hint, hl => by
    obtain ⟨r, hr, -⟩ := hi.of_routeOf (hl en mem_cons_self)
    have hc : Calls e (e.call (r.tunnel t.side.other)
        (.reset (r.sid t.side.other) muxCodeInternal)) := .call _ .refl (by trivial) (by simp)
    rw [foldl_cons, resetRoute, hr]
    dsimp only
    rw [if_neg (by simp [hint _ r hr])]
    have hi₁ := hc.tables hi
    obtain ⟨h1, h2, h3⟩ := resetRoutes_parts hL t l hi₁ (by simpa [Intact] using hint)
      fun en' hen' => by
        rw [hc.routeOf_eq]
        exact hl en' (mem_cons_of_mem _ hen')
    refine ⟨(call_parts hi hL _ (by simp) (by simp) (by simp) rfl).trans h1, hc.trans h2,
      fun en' hen' r' hr' => ?_⟩
    rcases mem_cons.1 hen' with rfl | hen'
    · rw [hr, some_inj] at hr'
      subst hr'
      refine h2.off hi₁ (off_reset hi _ _ _) (p := en'.2) ?_
      rw [hc.routeOf_eq]
      exact hi.index.reach _ r hr t.side.other
    · exact h3 en' hen' r' (by rwa [call_heap])

theorem freeRoutes_parts (t : Tunnel ne nw) : ∀ (n : ℕ) {e : Router ne nw}, Tables e →
    (∀ p r, e.heap p = some r → r.tunnel t.side = t → L (.free { r with gone := true } (some t))
      ∧ Off e (r.tunnel t.side.other) (r.sid t.side.other)) →
    Parts L e (freeRoutes t n e)
  | 0, e, _, _ => .start
  | n + 1, e, hi, hfree => by
    unfold freeRoutes
    rcases hen : (e.conn t).routes.entries with _ | ⟨en, rest⟩
    · exact .start
    obtain ⟨r, hr, htun, -⟩ := hi.of_routeOf
      (routeOf_of_mem (show en ∈ (e.conn t).routes.entries by simp [hen]))
    dsimp only
    rw [hr]
    dsimp only
    have hk : ∀ d, key d { r with gone := true } = r.key d
        ∧ pend { r with gone := true } d = r.pend d := by
      intro d
      cases d <;> exact ⟨rfl, rfl⟩
    obtain ⟨hfree₁, hoff⟩ := hfree _ r hr htun
    generalize ({ r with gone := true } : Route ne nw) = r' at hk hfree₁ ⊢
    have hp' : (e.setRoute en.2 r').heap en.2 = some r' := setRoute_self ..
    have hoff' : ∀ d, Off e (r.tunnel d) (r.sid d) ∨ some t = some (r.tunnel d) := by
      intro d
      rcases Side.eq_or_eq_other t.side d with rfl | rfl
      · exact .inr (congrArg some htun.symm)
      · exact .inl hoff
    refine (Reach.single hfree₁ (.free hr hk hoff')).trans
      (freeRoutes_parts t n ((hi.setRoute hr fun d => (hk d).1).free hp') fun q y hq hy => ?_)
    rw [routeFree_heap _ hp'] at hq
    by_cases hqp : q = en.2
    · subst hqp
      simp at hq
    · rw [Function.update_of_ne hqp, setRoute_of_ne hqp] at hq
      obtain ⟨h1, h2⟩ := hfree q y hq hy
      exact ⟨h1, fun s hs => h2 s (by rwa [routeFree_mux] at hs)⟩

/-- The routes of a tunnel end: each is reset on its other side, and freed. -/
theorem dropRoutes_parts (h : Steady e) (hL : L .plain) (t : Tunnel ne nw)
    (hfree : ∀ p r, e.heap p = some r → r.tunnel t.side = t →
      L (.free { r with gone := true } (some t))) :
    Parts L e (e.dropRoutes t) := by
  obtain ⟨hreset, hc, hoff⟩ := resetRoutes_parts hL t (e.conn t).routes.entries h.tables
    h.firm.intact fun en hen => routeOf_of_mem hen
  refine hreset.trans (freeRoutes_parts t _ (hc.tables h.tables) fun p r hp htun => ?_)
  rw [hc.heap_eq] at hp
  have hp' := h.tables.index.reach p r hp t.side
  rw [key, htun] at hp'
  exact ⟨hfree p r hp htun, hoff ⟨r.sid t.side, p⟩ (AList.mem_lookup_iff.1 hp') r hp⟩

/-- What `L` has to allow for a move. -/
def PermittedMove (L : Deed ne nw → Prop) (e : Router ne nw) : Move ne nw → Prop
  | .event t => ∀ s ev, (e.conn t).mux = some s → s.front = some ev → Permitted L e t ev
  | .teardown t _ => L .plain ∧ L (.plug t)
    ∧ ∀ p r, e.heap p = some r → r.tunnel t.side = t → L (.free { r with gone := true } (some t))
  | .finish t _ _ _ => L .plain ∧ L (.plug t)
  | _ => L .plain

/-- Every move is made of parts that `L` allows. -/
theorem move_parts (h : Steady e) {m} (hfew : AllFew (e.move hmac m)) (hok : PermittedMove L e m) :
    Parts L e (e.move hmac m) := by
  have hi := h.tables
  cases m with
  | tick t now dialled failedAt =>
    unfold move connTickConnect
    dsimp only
    split
    · exact .start
    · split
      · exact .single hok (.alike (modify_alike (by simp)))
      · exact .single hok (.alike (modify_alike (by simp)))
  | finish t err nonce failedAt =>
    obtain ⟨hL, hplug⟩ := hok
    unfold move
    dsimp only
    split
    · rename_i hc
      rw [Bool.and_eq_true] at hc
      have hmux := h.firm.base.wired.connecting t hc.2
      have hfailed : Parts L e
          (e.modify t fun c => { c with fd := false, nextAttempt := failedAt + 1000 }) :=
        .single hL (.alike (modify_alike (by simp)))
      unfold connFinishConnect
      dsimp only
      split
      · exact hfailed
      rcases hnew : muxSessionNew (connBuildCfg hmac e.cfg nonce) .dialer with _ | s
      · exact hfailed
      · dsimp only
        rw [connFlush, sendLoop]
        dsimp only
        refine .single hplug (.plug (h.firm.base.none hmux).2 rfl (fun j hj => hj ▸ hi.inflight j)
          (h.books.accounts.down t hmux) fun s' hs' => ?_)
        cases hs'
        exact ⟨_, _, hnew⟩
    · exact .start
  | timer t now => exact call_parts hi hok t (by simp) (by simp) (by simp) rfl
  | event t => exact nextEvent_parts h hfew hok
  | stash t b =>
    unfold move
    exact .single hok (.alike (modify_alike (by simp)))
  | recv t => exact call_parts hi hok t (by simp) (by simp) (by simp) rfl
  | advance t n => exact call_parts hi hok t (by simp) (by simp) (by simp) rfl
  | teardown t now =>
    obtain ⟨hL, hplug, hfree⟩ := hok
    unfold move connTeardown
    have hno := h.firm.base.dropRoutes_none (fun _ _ _ _ => trivial) t
    refine .step (dropRoutes_parts h hL t hfree) hplug (.plug hno rfl (fun _ _ => ?_) rfl (by simp))
    rw [keys_eq_nil hno]
    rfl

end Router

end MuxProtocol
