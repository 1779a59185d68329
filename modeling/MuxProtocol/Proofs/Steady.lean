import Mathlib.Data.Set.Card
import MuxProtocol.Proofs.Parts

/-!
# What a run of the router keeps

Every part keeps the tables and the books, so every move does: the route table is sound in every
state that is reached.
-/

namespace MuxProtocol

open LinearProbe Machine Index List Option Route EpConn

variable {ne nw : ℕ}

namespace Router

variable {e e' : Router ne nw} {t t' : Tunnel ne nw} {sid sid' : UInt32} {p : ℕ}
  {r r' : Route ne nw} {s : Session} {ev : Event} {hmac : Hmac} {cfg : EpConfig}

/-! ### The books -/

theorem Books.settle {x : Tunnel ne nw × UInt32 → Prop} (h : Books x e)
    (hx : ∀ p r d, e.heap p = some r → r.pend d ≠ [] → ¬ x (r.key d.other)) :
    Books (fun _ => False) e :=
  ⟨h.accounts, h.spliced, fun p r hp d hne => (h.dues p r hp d hne).imp_left (hx p r d hp hne),
    h.held⟩

theorem Books.forwarded (hb : Books (fun _ => False) e) (hi : Tables e) {data}
    (hs : (e.conn t).mux = some s) (hfr : s.front = some (.data sid data)) (hp : e.heap p = some r)
    (hk : r.key t.side = (t, sid)) : Books (fun _ => False) (e.forwarded t p r data) := by
  have h₁ := hb.popData hi hs hfr hp hk
  have hi₁ : Tables ((e.call t .nextEvent).setRoute p (r.setPend (r.pend t.side ++ data) t.side)) :=
    (hi.pop t).setRoute (by rwa [call_heap]) (by simp)
  unfold Router.forwarded
  split
  · refine (h₁.relay hi₁ (setRoute_self ..) t.side).mono fun k hk => hk.2 ?_
    rw [key_setPend]
    exact (hk.1.resolve_left id).2
  · rename_i hne
    exact h₁.mono fun k hk => hne (hk.resolve_left id).1

theorem Books.wake (hb : Books (fun _ => False) e) (hi : Tables e) (hs : (e.conn t).mux = some s)
    (hfr : s.front = some (.writable sid)) (hp : e.heap p = some r)
    (hk : r.key t.side = (t, sid)) :
    Books (fun _ => False) ((e.call t .nextEvent).relay p r t.side.other) := by
  have h₁ := hb.pop hi hs hfr fun _ _ _ _ => rfl
  refine (h₁.relay (hi.pop t) (by rwa [call_heap]) t.side.other).mono fun k hk' => hk'.2 ?_
  obtain ⟨ht, hsid⟩ := hk'.1.resolve_left id
  rw [Side.other_other, hk]
  exact Prod.ext ht (Event.writable.inj hsid).symm

/-- A new route has empty books. -/
theorem Books.adopt (hb : Books (fun _ => False) e) (hi : Tables e) {i j} {w : Session}
    {ds metadata} {e₁ : Router ne nw} (hs : (e.conn (.edge i)).mux = some s)
    (hfr : s.front = some (.opened sid metadata)) (hal : Alike (e.call (.edge i) .nextEvent) e₁)
    (hw : (e₁.conn (.worker j)).mux = some w) (ho : (muxOpen w metadata).2 = .ok ds)
    (hf : Few (w.call (.open metadata)).toCore) :
    Books (fun _ => False) ((e₁.call (.worker j) (.open metadata)).routeNew i sid j ds) := by
  have hi₁ := hal.tables (hi.pop (.edge i))
  have hcan : CanCall e₁ (.worker j) (.open metadata) := fun s' hs' => by
    rw [hw, some_inj] at hs'
    exact hs' ▸ hf
  have h₁ : Books (fun _ => False) e₁ :=
    ((hb.pop hi hs hfr fun _ _ _ _ => rfl).mono (by simp)).alike hal
  refine (h₁.call hi₁ hcan (by simp) (by simp) rfl).new fun d => ?_
  rw [sentOn_call hi₁ (by simp), gotOn_call (by simp), creditOn, call_credits_of rfl]
  cases d with
  | up =>
    have hsv := hi.served _ s hs
    obtain ⟨hnew, hnil, -⟩ := hsv.front_fresh hfr
    obtain ⟨h2, h3⟩ := hb.accounts.silent _ s hs sid hnew
    have hsame := hal.sameBooks
    change e₁.sentOn (.edge i, sid) = [] ∧ e₁.gotOn (.edge i, sid) = []
      ∧ e₁.creditOn (.edge i, sid) = 0
    rw [hsame.sentOn_eq, hsame.gotOn_eq, hsame.creditOn_eq, sentOn_call hi (by simp),
      gotOn_pop hi hs hfr, creditOn, call_credits_of rfl]
    refine ⟨h2, ?_, h3⟩
    rw [gotOn_of hs, streamBytes, hnil]
    simp [Event.bytesOn]
  | down =>
    have hsv := hi₁.served _ w hw
    obtain ⟨hnew, -, hnil, -⟩ := hsv.open_fresh hf ho
    obtain ⟨h2, h3⟩ := h₁.accounts.silent _ w hw ds hnew
    refine ⟨h2, ?_, h3⟩
    change e₁.gotOn (.worker j, ds) = []
    rw [hsv.queued_eq, notices_append, append_eq_nil_iff] at hnil
    rw [gotOn_of hw, streamBytes, hnil.1]
    rfl

/-- A part keeps the books. -/
theorem Part.books {l} (h : Part e l e') (hi : Tables e) (hb : Books (fun _ => False) e) :
    Books (fun _ => False) e' := by
  cases h with
  | alike h => exact hb.alike h
  | call hf ha hw hc => exact hb.call hi hf ha hw hc
  | @pop t s ev hs hfr hno =>
    refine (hb.pop hi hs hfr fun p r hp ht => (hno p r hp ht).1).settle fun p r d hp hne hx =>
      hne ?_
    obtain ⟨ht, hev⟩ := hx.resolve_left id
    have hd : t.side = d.other := by
      rw [← ht]
      exact r.side_tunnel d.other
    rw [call_heap] at hp
    have := (hno p r hp (by rw [hd]; exact ht)).2 (by rw [hd]; exact hev)
    rwa [hd, Side.other_other] at this
  | forward hs hfr hp hk => exact hb.forwarded hi hs hfr hp hk
  | wake hs hfr hp hk => exact hb.wake hi hs hfr hp hk
  | relay d hp => exact (hb.relay hi hp d).mono fun _ h => h.1
  | finish d hp => exact hb.setRoute hi hp (by simp) (by simp)
  | free hp hk => exact hb.drop hi hp fun d => (hk d).1
  | plug hno _ _ hcr hmux => exact hb.plug hi hno hcr hmux
  | adopt hs hfr hal hw ho hf => exact hb.adopt hi hs hfr hal hw ho hf

theorem books_start (cfg) : Books (fun _ => False) (start ne nw cfg) := by
  refine ⟨⟨by simp [start], by simp [start], by simp [start]⟩, by simp [start],
    by simp [start, Dues], fun t => ?_⟩
  simp [start, Router.held, total]

theorem permittedMove_true (e : Router ne nw) (m : Move ne nw) :
    PermittedMove (fun _ => True) e m := by
  cases m <;> simp only [PermittedMove, and_true, implies_true]
  exact fun s ev _ _ => ⟨trivial, trivial, fun _ => trivial, fun _ _ _ _ => trivial,
    fun _ _ _ _ _ => ⟨trivial, fun _ => trivial⟩, fun _ _ _ _ _ _ => trivial⟩

/-! ### Runs -/

theorem inv_start (cfg) : Inv (fun _ _ => False) (start ne nw cfg) := by
  refine ⟨⟨⟨by simp [start], by simp [start, routeOf]⟩, by simp [start], by simp [start],
    by simp [start, routeOf], by simp [start], fun j => ?_⟩, by simp [Fins, start], ?_⟩
  · simp [start, total]
  · rintro t sid ⟨s, hs, -⟩
    simp [start] at hs

theorem steady_start (cfg) : Steady (start ne nw cfg) :=
  ⟨inv_start cfg, firm_start cfg, books_start cfg⟩

/-- The streams that may be without a route while the move is under way: that of an OPENED, or those
of a tunnel that is torn down. -/
def Loose (e : Router ne nw) (m : Move ne nw) (t : Tunnel ne nw) (sid : UInt32) : Prop :=
  m = .event t ∧ (∃ s ev, (e.conn t).mux = some s ∧ s.front = some ev ∧ ev.openedId = some sid)
    ∨ ∃ now, m = .teardown t now

theorem permittedMove_loose (e : Router ne nw) (m : Move ne nw) :
    PermittedMove (Spares (Loose e m)) e m := by
  cases m with
  | event t =>
    intro s ev hs hfr
    refine ⟨trivial, trivial, fun _ sid hsid => .inl ⟨rfl, s, ev, hs, hfr, hsid⟩, ?_,
      fun _ _ _ _ _ => ⟨trivial, fun _ => by simp [Spares]⟩, fun _ _ _ _ _ _ => by simp [Spares]⟩
    rintro sid b rfl - _ ⟨⟩
  | teardown t now =>
    refine ⟨trivial, trivial, fun _ _ _ _ t' _ ht => .inr ⟨now, ?_⟩⟩
    rw [some.inj ht]
  | finish => exact ⟨trivial, trivial⟩
  | _ => trivial

/-- A move keeps all of it: what was loose is settled in the end. -/
theorem Steady.move (h : Steady e) {m} (hfew : AllFew (e.move hmac m)) :
    Steady (e.move hmac m) := by
  have hi : Inv (Loose e m) (e.move hmac m) :=
    Reach.inv (I := Inv (Loose e m)) (h.toInv.mono fun _ _ => False.elim)
      (fun _ _ _ hi hl hp => hp.inv hl hi) (move_parts h hfew (permittedMove_loose e m))
  refine ⟨⟨hi.tables, hi.fins, fun t sid hm => ?_⟩, h.firm.move m, ?_⟩
  · rcases hi.whole t sid hm with ⟨rfl, s, ev, hs, hfr, hsid⟩ | ⟨now, rfl⟩
    · cases ev with
      | opened sid' metadata =>
        cases hsid
        exact h.opened_settled hfew hs hfr hm
      | _ => cases hsid
    · obtain ⟨s, hs, -⟩ := hm
      simp [Router.move, connTeardown] at hs
  · exact Parts.inv (move_parts h hfew (permittedMove_true e m)) h.toInv h.books
      fun hi hb _ hp => hp.books hi hb

/-- It holds in every state that is reached. -/
theorem reach_steady (h : Reach (ofFun (Router.move hmac)) (FewMove hmac) (start ne nw cfg) e) :
    Steady e :=
  h.inv (steady_start cfg) fun e m e' hi hm he => by
    rw [show e' = e.move hmac m from he]
    exact hi.move hm

/-! ### The route table -/

/-- The two kinds of map and the routes are one to one, the counters are right, and every stream
that a live session carries is of one route. -/
structure RouteTable (e : Router ne nw) : Prop where
  mapped : ∀ p r, e.heap p = some r → (e.conn (.edge r.edgeIdx)).routes.lookup r.upSid = some p
    ∧ (e.conn (.worker r.workerIdx)).routes.lookup r.downSid = some p
  edge : ∀ i sid p, (e.conn (.edge i)).routes.lookup sid = some p →
    ∃ r, e.heap p = some r ∧ r.edgeIdx = i ∧ r.upSid = sid
  worker : ∀ j sid p, (e.conn (.worker j)).routes.lookup sid = some p →
    ∃ r, e.heap p = some r ∧ r.workerIdx = j ∧ r.downSid = sid
  sessions : ∀ p r, e.heap p = some r →
    (e.conn (.edge r.edgeIdx)).mux ≠ none ∧ (e.conn (.worker r.workerIdx)).mux ≠ none
  inflight : ∀ j, (e.conn (.worker j)).inflight.toNat
    = {p | ∃ r, e.heap p = some r ∧ r.workerIdx = j}.ncard
  streams : ∀ t s sid, (e.conn t).mux = some s → s.dead = false → s.Carries sid →
    ∃! p, ∃ r, e.heap p = some r ∧ r.tunnel t.side = t ∧ r.sid t.side = sid

theorem Tables.ncard_onWorker (hi : Tables e) (j) :
    {p | ∃ r, e.heap p = some r ∧ r.workerIdx = j}.ncard = total (onWorker j) e.heap e.next := by
  have hset : {p | ∃ r, e.heap p = some r ∧ r.workerIdx = j}
      = ((Finset.range e.next).filter fun p => (e.heap p).any (·.workerIdx = j)) := by
    ext p
    simp only [Set.mem_ofPred_eq, Finset.coe_filter, Finset.mem_range, Option.any_eq_true,
      decide_eq_true_eq]
    constructor
    · rintro ⟨r, hr, hj⟩
      exact ⟨hi.lt_next hr, r, hr, hj⟩
    · rintro ⟨-, r, hr, hj⟩
      exact ⟨r, hr, hj⟩
  rw [hset, Set.ncard_coe_finset, Finset.card_filter]
  refine Finset.sum_congr rfl fun p _ => ?_
  rcases e.heap p with _ | r <;> simp [onWorker]

theorem Steady.routeTable (h : Steady e) : RouteTable e := by
  have hreach := h.tables.index.reach
  have hsess : ∀ {t sid p}, e.routeOf (t, sid) = some p → (e.conn t).mux ≠ none := fun hp => by
    obtain ⟨s, hs, -⟩ := h.tables.ids _ _ _ hp
    simp [hs]
  refine ⟨fun p r hp => ⟨hreach p r hp .up, hreach p r hp .down⟩, fun i sid p hp => ?_,
    fun j sid p hp => ?_, fun p r hp => ⟨hsess (hreach p r hp .up), hsess (hreach p r hp .down)⟩,
    fun j => ?_, fun t s sid hs hd hc => ?_⟩
  · obtain ⟨r, hr, htun, hsid⟩ := h.tables.of_routeOf (t := .edge i) hp
    exact ⟨r, hr, by simpa [Tunnel.side, tunnel] using htun, hsid⟩
  · obtain ⟨r, hr, htun, hsid⟩ := h.tables.of_routeOf (t := .worker j) hp
    exact ⟨r, hr, by simpa [Tunnel.side, tunnel] using htun, hsid⟩
  · rw [h.tables.inflight, h.tables.ncard_onWorker, h.tables.count]
  · obtain ⟨p, hp⟩ := ne_none_iff_exists'.1 fun hno =>
      h.whole t sid ⟨s, hs, hd, hc, hno⟩
    obtain ⟨r, hr, htun, hsid⟩ := h.tables.of_routeOf hp
    refine ⟨p, ⟨r, hr, htun, hsid⟩, ?_⟩
    rintro p' ⟨r', hr', htun', hsid'⟩
    refine h.tables.index.unique hr' hr (i := t.side) (j := t.side) ?_
    rw [key, key, htun, hsid, htun', hsid']

/-- The route table is sound in every state the router reaches, as long as each of its sessions
opens fewer than `2 ^ 31` streams. The streams of a dead session are not counted, nor those whose
OPENED the router has not seen. -/
theorem route_table_invariant
    (h : Reach (ofFun (move hmac)) (FewMove hmac) (start ne nw cfg) e) : RouteTable e :=
  (reach_steady h).routeTable

/-- A stream of the edge is routed to the worker. -/
def routedRun : List (Move 1 1) :=
  plugIn (.edge 0) ++ plugIn (.worker 0) ++ hears (.edge 0) (synFrame 2 [])

theorem route_table_invariant_routedRun :
    ∃ e, e = routedRun.foldl (move nullHmac) (start 1 1 {})
      ∧ (e.conn (.worker 0)).routes.lookup 1 = some 0 ∧ RouteTable e := by
  have hrun : Reach (ofFun (move nullHmac)) (FewMove nullHmac) (start 1 1 {})
      (routedRun.foldl (move nullHmac) (start 1 1 {})) := .foldl routedRun (by decide +kernel)
  exact ⟨_, rfl, by decide +kernel, route_table_invariant hrun⟩

/-- The worker does not answer the keepalive and is declared dead; then the edge resets the stream.
-/
def deadWorkerRun : List (Move 1 1) :=
  routedRun ++ [.timer (.worker 0) 0, .timer (.worker 0) 15000, .timer (.worker 0) 60000,
    .event (.worker 0)] ++ hears (.edge 0) (rstFrame 2 0)

/-- The stream stays live in the session of the worker, and there is no route. -/
theorem dead_worker_keeps_stream :
    ∃ e, Reach (ofFun (move nullHmac)) (FewMove nullHmac) (start 1 1 {}) e
      ∧ (∃ s, (e.conn (.worker 0)).mux = some s ∧ s.Live 1) ∧ ∀ p, e.heap p = none := by
  have hrun : Reach (ofFun (move nullHmac)) (FewMove nullHmac) (start 1 1 {})
      (deadWorkerRun.foldl (move nullHmac) (start 1 1 {})) :=
    .foldl deadWorkerRun (by decide +kernel)
  have hfacts : let e := deadWorkerRun.foldl (move nullHmac) (start 1 1 {})
      (e.conn (.worker 0)).mux.any (fun s => (stFind s.tab 1).isSome) ∧ e.next = 1
        ∧ e.heap 0 = none := by decide +kernel
  generalize deadWorkerRun.foldl (move nullHmac) (start 1 1 {}) = e at hrun hfacts
  obtain ⟨hlive, hnext, hheap⟩ := hfacts
  obtain ⟨s, hs, hl⟩ := (Option.any_eq_true _ _).1 hlive
  refine ⟨e, hrun, ⟨s, hs, hl⟩, fun p => ?_⟩
  rcases Nat.eq_zero_or_pos p with rfl | hp
  · exact hheap
  · exact (reach_steady hrun).tables.fresh p (by omega)

end Router

end MuxProtocol
