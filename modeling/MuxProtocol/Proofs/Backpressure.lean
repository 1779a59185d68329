import MuxProtocol.Proofs.Steady

/-!
# Backpressure through the router

Over the runs of the router: what is credited to the source of a route is what its destination has
accepted, so that the windows of the source bound what is pending; a route that holds bytes has a
WRITABLE to come; and what was delivered is credited or pending, as long as nothing is dropped.
-/

namespace MuxProtocol

open LinearProbe Machine Index

variable {ne nw : ℕ}

namespace Router

variable {e e' : Router ne nw} {t t' : Tunnel ne nw} {sid sid' : UInt32} {a : Call} {p q : ℕ}
  {r r' : Route ne nw} {s : Session} {k : Tunnel ne nw × UInt32} {d : Side} {ev : Event}
  {hmac : Hmac} {cfg : EpConfig}

/-! ### What is pending is bounded -/

/-- In every state that the router reaches, as long as each of its sessions opens fewer than
`2 ^ 31` streams: the bytes credited to the source of a route are as many as its destination has
accepted, those pending fit into the window of the source, and those of all routes of a tunnel into
its session window. -/
theorem router_backpressure
    (h : Reach (ofFun (Router.move hmac)) (FewMove hmac) (start ne nw cfg) e) :
    (∀ p r, e.heap p = some r → ∀ d, e.creditOn (r.key d) = (e.sentOn (r.key d.other)).length
      ∧ ∀ s, (e.conn (r.tunnel d)).mux = some s → (r.pend d).length ≤ s.initWindow.toNat)
    ∧ ∀ t s, (e.conn t).mux = some s → total (pendOn t) e.heap e.next ≤ s.sessionWindow.toNat := by
  obtain ⟨hinv, -, hb⟩ := reach_steady h
  refine ⟨fun p r hp d => ?_, fun t s hs => ?_⟩
  · obtain ⟨h1, h2⟩ := hb.spliced p r hp d
    refine ⟨h2, fun s hs => ?_⟩
    have hwin := (hb.accounts.account _ s hs).window (hinv.tables.served _ s hs) (r.sid d)
    have hlen := congrArg List.length h1
    rw [List.length_append, ← h2, Route.key, gotOn_of hs, creditOn] at hlen
    dsimp only at hlen
    omega
  · have hwin := (hb.accounts.account t s hs).session (hinv.tables.served t s hs)
    have hheld := hb.held t
    rw [Router.held, surfaced_of hs] at hheld
    omega

/-- Two bytes from the edge, to a worker that takes one. -/
def oneByteRun : List (Move 1 1) :=
  plugIn (.edge 0) ++ plugIn (.worker 0) (initSession { initWindow := 1 } .acceptor).toCore
    ++ hears (.edge 0) (synFrame 2 []) ++ hears (.edge 0) (dataFrame 2 [7, 8])

theorem router_backpressure_oneByteRun :
    ∃ e : Router 1 1, e = oneByteRun.foldl (Router.move nullHmac) (start 1 1 {})
      ∧ (∃ r, e.heap 0 = some r ∧ r.u2w = [8] ∧ e.creditOn (r.key .up) = 1) ∧
      ∀ t s, (e.conn t).mux = some s → total (pendOn t) e.heap e.next ≤ s.sessionWindow.toNat := by
  have hrun : Reach (ofFun (Router.move nullHmac)) (FewMove nullHmac) (start 1 1 {})
      (oneByteRun.foldl (Router.move nullHmac) (start 1 1 {})) :=
        .foldl oneByteRun (by decide +kernel)
  have hroute : ((oneByteRun.foldl (Router.move nullHmac) (start 1 1 {})).heap 0).any
      fun r => r.u2w == [8] && ((oneByteRun.foldl (Router.move nullHmac) (start 1 1 {})).creditOn
        (r.key .up) == 1) := by decide +kernel
  obtain ⟨r, hr, h8⟩ := (Option.any_eq_true _ _).1 hroute
  rw [Bool.and_eq_true, beq_iff_eq, beq_iff_eq] at h8
  exact ⟨_, rfl, ⟨r, hr, h8⟩, (router_backpressure hrun).2⟩

/-! ### Nothing is stuck -/

/-- In every state that the router reaches, as long as each of its sessions opens fewer than
`2 ^ 31` streams: where a route holds bytes and its destination could be written, the destination is
marked as blocked, or a WRITABLE for it is queued. -/
theorem no_stuck_route
    (h : Reach (ofFun (Router.move hmac)) (FewMove hmac) (start ne nw cfg) e) {p : ℕ}
    {r : Route ne nw} (hp : e.heap p = some r) {d : Side} (hpend : r.pend d ≠ []) {s : Session}
    (hs : (e.conn (r.tunnel d.other)).mux = some s) (hd : s.dead = false) {i : ℕ} {st : MuxStream}
    (hf : stFind s.tab (r.sid d.other) = some (i, st)) (hl : st.life ≠ .hclLocal) :
    st.sendBlocked = true ∨ .writable (r.sid d.other) ∈ s.q.toList := by
  obtain ⟨hinv, -, hb⟩ := reach_steady h
  have hdue := (hb.dues p r hp d hpend).resolve_left id
  exact (hinv.tables.served _ s hs).wakes (hb.accounts.account _ s hs).wakeful hd
    (hdue s hs hd) hf hl

theorem no_stuck_route_oneByteRun :
    ∃ s i st, ((oneByteRun.foldl (Router.move nullHmac) (start 1 1 {})).conn (.worker 0)).mux
      = some s
      ∧ stFind s.tab 1 = some (i, st) ∧ (st.sendBlocked = true ∨ .writable 1 ∈ s.q.toList) := by
  have hrun : Reach (ofFun (Router.move nullHmac)) (FewMove nullHmac) (start 1 1 {})
      (oneByteRun.foldl (Router.move nullHmac) (start 1 1 {})) :=
        .foldl oneByteRun (by decide +kernel)
  have hroute : ((oneByteRun.foldl (Router.move nullHmac) (start 1 1 {})).heap 0).any
      fun r => r.u2w == [8] && r.downSid == 1 := by decide +kernel
  have hmux : ((oneByteRun.foldl (Router.move nullHmac) (start 1 1 {})).conn (.worker 0)).mux.any
      fun s => !s.dead && (stFind s.tab 1).any fun r => r.2.life ≠ .hclLocal := by decide +kernel
  generalize oneByteRun.foldl (Router.move nullHmac) (start 1 1 {}) = e at *
  obtain ⟨r, hr, hpend⟩ := (Option.any_eq_true _ _).1 hroute
  obtain ⟨s, hs, hlive⟩ := (Option.any_eq_true _ _).1 hmux
  rw [Bool.and_eq_true, beq_iff_eq, beq_iff_eq] at hpend
  rw [Bool.and_eq_true, Bool.not_eq_true', Option.any_eq_true] at hlive
  obtain ⟨hd, ⟨i, st⟩, hf, hl⟩ := hlive
  have hs' : (e.conn (r.tunnel Side.up.other)).mux = some s := by
    rwa [show r.tunnel Side.up.other = .worker 0 from
      congrArg Tunnel.worker (Subsingleton.elim r.workerIdx 0)]
  have hsid : r.sid Side.up.other = 1 := hpend.2
  have := no_stuck_route hrun hr (d := .up) (by simp [Route.pend, hpend.1]) hs' hd (hsid ▸ hf)
    (by simpa using hl)
  exact ⟨s, i, st, hs, hf, hsid ▸ this⟩

/-! ### Nothing is lost -/

/-- What was delivered on the tunnels, but for those of `y`, is credited or pending. -/
def Whole (y : Tunnel ne nw → Prop) (e : Router ne nw) : Prop :=
  ∀ t, ¬ y t → e.surfaced t ≤ e.held t

/-- The parts that lose no bytes, but for those of the tunnels of `y`. -/
def Thrifty (y : Tunnel ne nw → Prop) : Deed ne nw → Prop
  | .lose _ ev => ev.size = 0
  | .free r _ => ∀ d, r.pend d = [] ∨ y (r.tunnel d)
  | _ => True

theorem held_call (hc : a.credits = []) (t') : (e.call t a).held t' = e.held t' :=
  held_congr (call_credits_of hc t') (call_heap ..) (call_next ..)

theorem relay_surfaced (e : Router ne nw) (p : ℕ) (r d t) :
    (e.relay p r d).surfaced t = e.surfaced t := relayed_surfaced d t

theorem forwarded_ledger (hi : Tables e) (hs : (e.conn t).mux = some s) {data : Bytes}
    (hfr : s.front = some (.data sid data)) (hp : e.heap p = some r) (hk : r.key t.side = (t, sid))
    (t') :
    (e.forwarded t p r data).surfaced t' = e.surfaced t' + (if t = t' then data.length else 0)
      ∧ (e.forwarded t p r data).held t' = e.held t' + if t = t' then data.length else 0 := by
  have hp' : (e.call t .nextEvent).heap p = some r := by rwa [call_heap]
  have hi' : Tables ((e.call t .nextEvent).setRoute p (r.setPend (r.pend t.side ++ data) t.side)) :=
    (hi.pop t).setRoute hp' (by simp)
  have h1 := held_setPend (hi.pop t) hp' (r.pend t.side ++ data) t.side t'
  have h2 := surfaced_pop hi hs hfr t'
  rw [held_call rfl, show r.tunnel t.side = t from congrArg Prod.fst hk, List.length_append] at h1
  have h3 : ((e.call t .nextEvent).setRoute p (r.setPend (r.pend t.side ++ data) t.side)).held t'
      = e.held t' + if t = t' then data.length else 0 := by
    by_cases ht : t = t'
    · rw [if_pos ht, if_pos ht] at h1
      rw [if_pos ht]
      omega
    · rw [if_neg ht, if_neg ht] at h1
      rw [if_neg ht]
      omega
  unfold forwarded
  dsimp only
  split
  · exact ⟨(relay_surfaced ..).trans h2, (held_relay hi' (setRoute_self ..) t.side t').trans h3⟩
  · exact ⟨h2, h3⟩

/-- A part moves bytes from the queue to the routes and from there to the credits. -/
theorem Part.whole {y : Tunnel ne nw → Prop} {l} (h : Part e l e') (hi : Tables e)
    (hl : Thrifty y l) (hw : Whole y e) : Whole y e' := by
  have hkeep : (∀ t, e'.surfaced t = e.surfaced t ∧ e'.held t = e.held t) → Whole y e' :=
    fun heq t ht => by
      rw [(heq t).1, (heq t).2]
      exact hw t ht
  cases h with
  | alike h =>
    exact hkeep fun t =>
      ⟨congrFun h.sameBooks.surfaced_eq t, held_congr (h.credits t) h.heap h.next⟩
  | call _ ha _ hc => exact hkeep fun t => ⟨surfaced_call ha t, held_call hc t⟩
  | pop hs hfr =>
    refine hkeep fun t => ⟨?_, held_call rfl t⟩
    rw [surfaced_pop hi hs hfr, show _ = 0 from hl]
    split <;> rfl
  | forward hs hfr hp hk =>
    intro t' ht'
    obtain ⟨h1, h2⟩ := forwarded_ledger hi hs hfr hp hk t'
    rw [h1, h2]
    exact Nat.add_le_add_right (hw t' ht') _
  | wake hs hfr hp =>
    refine hkeep fun t => ⟨?_, ?_⟩
    · rw [relay_surfaced, surfaced_pop hi hs hfr]
      split <;> rfl
    · rw [held_relay (hi.pop _) (by rwa [call_heap]), held_call rfl]
  | relay d hp => exact hkeep fun t => ⟨relay_surfaced .., held_relay hi hp d t⟩
  | @finish p r d hp =>
    refine hkeep fun t => ⟨rfl, ?_⟩
    have h1 := held_setRoute hi hp (r.setFin d) t
    have h2 : pendOn t (r.setFin d) = pendOn t r := by
      rw [pendOn, pendOn, Route.pend_setFin]
      have := congrArg Prod.fst (r.key_setFin t.side d)
      rw [show (r.setFin d).tunnel t.side = r.tunnel t.side from this]
    omega
  | @free p r r' _ hp hk =>
    intro t ht
    have h1 := held_free (hi.setRoute hp fun d => (hk d).1) (setRoute_self e p r') t
    have h2 := held_setRoute hi hp r' t
    have h3 : pendOn t r = 0 := by
      unfold pendOn
      split
      · rename_i htun
        have hkey : r'.tunnel t.side = r.tunnel t.side := congrArg Prod.fst (hk t.side).1
        rw [← (hk t.side).2, (hl t.side).resolve_right fun hy => ht (htun ▸ hkey ▸ hy)]
        rfl
      · rfl
    have h4 : ((e.setRoute p r').routeFree p).surfaced t = e.surfaced t :=
      congrFun (sameBooks_free (e.setRoute p r') p).surfaced_eq t
    have h5 := hw t ht
    omega
  | @adopt i j s w sid ds metadata e₁ hs hfr hal =>
    refine hkeep fun t => ⟨?_, ?_⟩
    · rw [congrFun (sameBooks_new ..).surfaced_eq t, surfaced_call (by simp),
        congrFun hal.sameBooks.surfaced_eq t, surfaced_pop hi hs hfr]
      split <;> rfl
    · rw [held_new, held_call rfl, held_congr (hal.credits t) hal.heap hal.next, held_call rfl]
  | @plug t g _ _ _ _ hmux =>
    intro t' ht'
    by_cases ht : t' = t
    · subst ht
      have hz : (e.modify t' g).surfaced t' = 0 := by
        rcases hm : (g (e.conn t')).mux with _ | s
        · simp [surfaced, hm]
        · obtain ⟨cfg, role, hnew⟩ := hmux s hm
          have hq : s.queued = [] := by
            rw [(muxSessionNew_spec hnew).1]
            exact startCore_queued cfg role
          simp [surfaced, hm, Session.popped, hq]
      rw [hz]
      exact Nat.zero_le _
    · rw [Router.held, surfaced, modify_of_ne _ _ _ ht]
      exact hw t' ht'

/-- An event for which no bytes are lost: data has a route; at RESET the route holds none; and at
the second CLOSED the destination takes what the route holds, and the other direction holds none. -/
def TakesAll (e : Router ne nw) (t : Tunnel ne nw) : Event → Prop
  | .data sid _ => (e.find t sid).isSome = true
  | .reset sid _ => ∀ pr ∈ e.find t sid, pr.2.u2w = [] ∧ pr.2.w2u = []
  | .closed sid => ∀ pr ∈ e.find t sid, pr.2.fin t.side.other = true →
    pr.2.pend t.side.other = [] ∧ e.relays pr.2 t.side = (pr.2.pend t.side).length
  | _ => True

instance TakesAll.decidable (e : Router ne nw) (t : Tunnel ne nw) :
    ∀ ev, Decidable (TakesAll e t ev)
  | .data sid _ => inferInstanceAs (Decidable ((e.find t sid).isSome = true))
  | .reset _ _ => inferInstanceAs (Decidable (∀ pr ∈ _, _))
  | .closed _ => inferInstanceAs (Decidable (∀ pr ∈ _, _))
  | .opened _ _ | .writable _ | .peerHello .. | .capacity _ | .goaway _ _ | .fatal _ =>
    inferInstanceAs (Decidable True)

/-- A move that loses no bytes. Where a tunnel goes, the bytes of its own streams do not matter. -/
def LosesNothing (e : Router ne nw) : Move ne nw → Prop
  | .event t => ∀ s ∈ (e.conn t).mux, ∀ ev ∈ s.front, TakesAll e t ev
  | .teardown t _ => ∀ p < e.next, ∀ r ∈ e.heap p, r.tunnel t.side = t → r.pend t.side.other = []
  | _ => True

instance LosesNothing.decidable (e : Router ne nw) : ∀ m, Decidable (LosesNothing e m)
  | .event _ => inferInstanceAs (Decidable (∀ s ∈ _, ∀ ev ∈ _, _))
  | .teardown _ _ => inferInstanceAs (Decidable (∀ p < _, _))
  | .tick .. | .finish .. | .timer .. | .stash .. | .recv .. | .advance .. =>
    inferInstanceAs (Decidable True)

theorem flushPend_eq_nil (src srcSid) {dst dstSid} {b : Bytes}
    (hall : e.accepts dst dstSid b = b.length) : (e.flushPend src srcSid dst dstSid b).2 = [] := by
  unfold flushPend
  rcases hb : b with _ | ⟨x, l⟩
  · rfl
  · rw [← hb, show b.length = l.length + 1 by rw [hb]; rfl, flushLoop, if_neg (by simp [hb])]
    dsimp only
    rw [hall, if_neg (by simp [hb]), List.drop_length]
    cases l <;> rfl

theorem accepts_call_of_ne (h : t' ≠ t) (b) :
    (e.call t a).accepts t' sid b = e.accepts t' sid b := by
  rw [accepts, accepts, call_of_ne _ _ _ h]

theorem side_other_ne {t : Tunnel ne nw} : r.tunnel t.side.other ≠ t := by
  intro h
  have := r.side_tunnel t.side.other
  rw [h] at this
  exact t.side.other_ne this.symm

theorem Route.pend_eq_nil {d} (h : r.u2w = [] ∧ r.w2u = []) : r.pend d = [] := by
  cases d
  · exact h.1
  · exact h.2

/-- A move that drops nothing is made of parts that drop nothing. -/
theorem LosesNothing.permits (hi : Tables e) {m} (h : LosesNothing e m) :
    PermittedMove (Thrifty fun t => ∃ now, m = .teardown t now) e m := by
  cases m with
  | event t =>
    intro s ev hs hfr
    have hall := h s hs ev hfr
    refine ⟨trivial, trivial, fun hno => ?_, ?_, ?_, ?_⟩
    · cases ev with
      | data sid b => simpa [Thrifty, Event.size, Event.bytesOn] using hno sid
      | _ => rfl
    · rintro sid b rfl hnone
      simp [TakesAll, hnone] at hall
    · rintro sid rfl p r hf
      rw [find_call] at hf
      refine ⟨trivial, fun hfin d => .inl ?_⟩
      obtain ⟨h1, h2⟩ := hall (p, r) hf hfin
      have hb := flushPend_eq_nil (e := e.call t .nextEvent) t sid
        ((accepts_call_of_ne side_other_ne _).trans h2)
      rw [Route.pend_setFin, hb]
      rcases Side.eq_or_eq_other t.side d with rfl | rfl
      · exact Route.pend_setPend_self _ _
      · rw [Route.pend_setPend_other, h1]
    · rintro sid code rfl p r hf d
      have := Route.pend_eq_nil (d := d) (hall (p, r) hf)
      cases d <;> exact .inl this
  | teardown t now =>
    refine ⟨trivial, trivial, fun p r hp ht d => ?_⟩
    rcases Side.eq_or_eq_other t.side d with rfl | rfl
    · refine .inr ⟨now, ?_⟩
      cases t <;> exact congrArg (Move.teardown · now) ht.symm
    · have := h p (hi.lt_next hp) r hp ht
      cases t <;> exact .inl this
  | finish => exact ⟨trivial, trivial⟩
  | _ => trivial

theorem connTeardown_mux (e : Router ne nw) (t now) :
    ((e.connTeardown t now).conn t).mux = none := by simp [connTeardown]

/-- A move that drops nothing keeps it; a tunnel that is torn down starts again from nothing. -/
theorem Whole.move (h : Steady e) {m} (hfew : AllFew (e.move hmac m)) (hm : LosesNothing e m)
    (hw : Whole (fun _ => False) e) : Whole (fun _ => False) (e.move hmac m) := by
  have hw' := Parts.inv (move_parts h hfew (hm.permits h.tables)) h.toInv
    (I := Whole fun t => ∃ now, m = .teardown t now) (fun t _ => hw t id)
    fun hi hw hl hp => hp.whole hi hl hw
  intro t _
  by_cases ht : ∃ now, m = .teardown t now
  · obtain ⟨now, rfl⟩ := ht
    simp [Router.move, surfaced, connTeardown_mux]
  · exact hw' t ht

/-- In every run of the router in which each session opens fewer than `2 ^ 31` streams and no move
drops bytes: what a session has delivered was passed to `mux_consume` or is pending. -/
theorem credit_conserved
    (h : Reach (ofFun (Router.move hmac)) (fun e m => FewMove hmac e m ∧ LosesNothing e m)
      (start ne nw cfg) e) {t : Tunnel ne nw} {s : Session} (hs : (e.conn t).mux = some s) :
    deliveredBytes s.popped = passed (e.conn t).credits + total (pendOn t) e.heap e.next := by
  obtain ⟨hi, hw⟩ := h.inv (I := fun e => Steady e ∧ Whole (fun _ => False) e)
    ⟨steady_start cfg, fun t _ => by simp [start, surfaced]⟩
    fun e m e' hi hm he => by
      rw [show e' = e.move hmac m from he]
      exact ⟨hi.1.move hm.1, hi.2.move hi.1 hm.1 hm.2⟩
  have h1 := hi.books.held t
  have h2 := hw t id
  rw [surfaced_of hs, Router.held] at h1 h2
  omega

theorem credit_conserved_oneByteRun :
    ∃ s, ((oneByteRun.foldl (Router.move nullHmac) (start 1 1 {})).conn (.edge 0)).mux = some s
      ∧ deliveredBytes s.popped = 2
      ∧ passed ((oneByteRun.foldl (Router.move nullHmac) (start 1 1 {})).conn (.edge 0)).credits
        + total (pendOn (.edge 0)) (oneByteRun.foldl (Router.move nullHmac) (start 1 1 {})).heap
          (oneByteRun.foldl (Router.move nullHmac) (start 1 1 {})).next = 2 := by
  have hrun : Reach (ofFun (Router.move nullHmac))
      (fun e m => FewMove nullHmac e m ∧ LosesNothing e m) (start 1 1 {})
      (oneByteRun.foldl (Router.move nullHmac) (start 1 1 {})) :=
        .foldl oneByteRun (by decide +kernel)
  have hmux : ((oneByteRun.foldl (Router.move nullHmac) (start 1 1 {})).conn (.edge 0)).mux.any
      fun s => deliveredBytes s.popped == 2 := by decide +kernel
  obtain ⟨s, hs, h2⟩ := (Option.any_eq_true _ _).1 hmux
  rw [beq_iff_eq] at h2
  exact ⟨s, hs, h2, (credit_conserved hrun hs).symm.trans h2⟩

/-- No worker is up, and a stream and its data come in one read: the stream is refused, and the byte
that was delivered for it is dropped without credit. -/
def refusedRun : List (Move 1 1) :=
  plugIn (.edge 0) ++ [.stash (.edge 0) (encode (synFrame 2 []) ++ encode (dataFrame 2 [7])),
    .recv (.edge 0), .event (.edge 0), .event (.edge 0)]

theorem credit_leaks :
    ∃ e : Router 1 1, Reach (ofFun (Router.move nullHmac)) (FewMove nullHmac) (start 1 1 {}) e
      ∧ ∃ s, (e.conn (.edge 0)).mux = some s ∧ s.dead = false ∧ deliveredBytes s.popped = 1
        ∧ passed (e.conn (.edge 0)).credits + total (pendOn (.edge 0)) e.heap e.next = 0 := by
  refine ⟨refusedRun.foldl (Router.move nullHmac) (start 1 1 {}),
    .foldl refusedRun (by decide +kernel), ?_⟩
  have hmux : ((refusedRun.foldl (Router.move nullHmac) (start 1 1 {})).conn (.edge 0)).mux.any
      fun s => !s.dead && deliveredBytes s.popped == 1 := by decide +kernel
  have hzero : passed ((refusedRun.foldl (Router.move nullHmac) (start 1 1 {})).conn
    (.edge 0)).credits
      = 0 ∧ (refusedRun.foldl (Router.move nullHmac) (start 1 1 {})).next = 0 := by decide +kernel
  generalize refusedRun.foldl (Router.move nullHmac) (start 1 1 {}) = e at *
  obtain ⟨s, hs, h1⟩ := (Option.any_eq_true _ _).1 hmux
  rw [Bool.and_eq_true, Bool.not_eq_true', beq_iff_eq] at h1
  exact ⟨s, hs, h1.1, h1.2, by rw [hzero.1, hzero.2]; rfl⟩

end Router

end MuxProtocol
