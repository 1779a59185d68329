import MuxProtocol.Proofs.Routes

/-!
# The handlers of the router

What the handlers read and change of the tables, and the runs of the router.
-/

namespace MuxProtocol

open Machine Index List Option Function Route EpConn

variable {ne nw : ℕ}

/-- What the handlers of the events leave as it is. -/
abbrev EpConn.wire (c : EpConn) : Bool × Bool × Bool × Bytes :=
  (c.ready, c.fd, c.connecting, c.recv)

namespace Router

variable {e e' : Router ne nw} {t t' : Tunnel ne nw} {sid sid' : UInt32} {a : Call} {p : ℕ}
  {r r' : Route ne nw} {s : Session}
  {hmac : Hmac}

/-! ### The sockets and the sessions -/

/-- Where a session is: a tunnel that is ready has one, and a tunnel that is down or connecting has
none. -/
structure Wired (e : Router ne nw) : Prop where
  ready : ∀ t, (e.conn t).ready = true → (e.conn t).mux ≠ none
  down : ∀ t, (e.conn t).fd = false → (e.conn t).mux = none
  connecting : ∀ t, (e.conn t).connecting = true → (e.conn t).mux = none

/-- No session comes or goes. -/
structure SameLinks (e e' : Router ne nw) : Prop where
  mux : ∀ t, (e'.conn t).mux = none ↔ (e.conn t).mux = none
  ready : ∀ t, (e'.conn t).ready = true → (e.conn t).ready = true ∨ (e.conn t).mux ≠ none
  fd : ∀ t, (e'.conn t).fd = (e.conn t).fd
  connecting : ∀ t, (e'.conn t).connecting = (e.conn t).connecting

theorem SameLinks.wired (h : SameLinks e e') (hw : Wired e) : Wired e' := by
  refine ⟨fun t ht => ?_, fun t ht => ?_, fun t ht => ?_⟩
  · rw [ne_eq, h.mux]
    exact (h.ready t ht).elim (hw.ready t) id
  · exact (h.mux t).2 (hw.down t (h.fd t ▸ ht))
  · exact (h.mux t).2 (hw.connecting t (h.connecting t ▸ ht))

theorem Wired.setRoute (h : Wired e) : Wired (e.setRoute p r) :=
  ⟨h.ready, h.down, h.connecting⟩

theorem sameLinks_call (e : Router ne nw) (t a) : SameLinks e (e.call t a) := by
  refine ⟨fun t' => ?_, fun t' h => .inl ?_, fun t' => ?_, fun t' => ?_⟩
  · by_cases ht : t' = t
    · subst ht
      rw [call_mux_self, map_eq_none_iff]
    · rw [call_of_ne _ _ _ ht]
  · rwa [call_field e t a ready fun _ _ _ => rfl] at h
  · exact call_field e t a fd fun _ _ _ => rfl
  · exact call_field e t a connecting fun _ _ _ => rfl

theorem sameLinks_free (e : Router ne nw) (p : ℕ) : SameLinks e (e.routeFree p) :=
  ⟨fun t => by rw [routeFree_mux],
    fun t h => .inl (by rwa [routeFree_field e ready fun _ _ _ => rfl] at h),
    routeFree_field e fd fun _ _ _ => rfl,
    routeFree_field e connecting fun _ _ _ => rfl⟩

theorem sameLinks_new (e : Router ne nw) (i j sid ds) : SameLinks e (e.routeNew i sid j ds) :=
  ⟨fun t => by rw [routeNew_mux],
    fun t h => .inl (by rwa [routeNew_field e i j sid ds ready fun _ _ _ => rfl] at h),
    routeNew_field e i j sid ds fd fun _ _ _ => rfl,
    routeNew_field e i j sid ds connecting fun _ _ _ => rfl⟩

/-! ### Balancing -/

/-- The rounds of `pick_worker` change the credits of the balancing and nothing else, and choose
among the workers that are ready. -/
structure Picked (e : Router ne nw) (acc : Router ne nw × ℤ × Option (Fin nw × ℤ)) : Prop where
  alike : Alike e acc.1
  wire : ∀ t, (acc.1.conn t).wire = (e.conn t).wire
  best : ∀ j cw, acc.2.2 = some (j, cw) → (e.conn (.worker j)).ready = true

theorem alike_credit (e : Router ne nw) (t : Tunnel ne nw) (g : EpConn → ℤ) :
    Alike e (e.modify t fun c => { c with swrrCw := g c })
      ∧ ∀ t', ((e.modify t fun c => { c with swrrCw := g c }).conn t').wire = (e.conn t').wire :=
  ⟨⟨rfl, rfl, rfl, fun _ => modify_field _ _ _ mux rfl,
    fun _ => modify_field _ _ _ routes rfl, fun _ => modify_field _ _ _ inflight rfl,
    fun _ => modify_field _ _ _ credits rfl⟩,
    fun _ => modify_field _ _ _ wire rfl⟩

/-- A round of the loop of `pick_worker`. -/
theorem Picked.step {acc : Router ne nw × ℤ × Option (Fin nw × ℤ)} (h : Picked e acc)
    (j : Fin nw) : Picked e (pickStep acc j) := by
  obtain ⟨e₁, total, best⟩ := acc
  unfold pickStep
  dsimp only
  by_cases hskip : (e₁.conn (.worker j)).ready = false ∨ (e₁.conn (.worker j)).weight = 0
  · rw [if_pos hskip]
    exact h
  rw [if_neg hskip]
  rw [not_or, Bool.not_eq_false] at hskip
  obtain ⟨h1, h2⟩ := alike_credit e₁ (.worker j) fun _ =>
    (e₁.conn (.worker j)).swrrCw + (e₁.conn (.worker j)).weight.toNat
  have hready : (e.conn (.worker j)).ready = true :=
    (congrArg Prod.fst (h.wire (.worker j))).symm.trans hskip.1
  refine ⟨h.alike.trans h1, fun t => (h2 t).trans (h.wire t), fun j' cw hbest => ?_⟩
  split at hbest
  · cases hbest
    exact hready
  · split at hbest
    · cases hbest
      exact hready
    · cases hbest
      exact h.best _ _ rfl

theorem picked_foldl (e) : ∀ (js : List (Fin nw))
    {acc : Router ne nw × ℤ × Option (Fin nw × ℤ)}, Picked e acc →
    Picked e (js.foldl pickStep acc)
  | [], _, h => h
  | j :: js, _, h => picked_foldl e js (h.step j)

theorem pickWorker_picked (e : Router ne nw) :
    Alike e e.pickWorker.1
      ∧ (∀ t, (e.pickWorker.1.conn t).wire = (e.conn t).wire)
      ∧ ∀ j, e.pickWorker.2 = some j → (e.conn (.worker j)).ready = true := by
  have h₀ : Picked e (e, 0, none) :=
    ⟨⟨rfl, rfl, rfl, fun _ => rfl, fun _ => rfl, fun _ => rfl, fun _ => rfl⟩, fun _ => rfl, by simp⟩
  have h := picked_foldl e (finRange nw) h₀
  unfold pickWorker
  generalize (finRange nw).foldl pickStep (e, 0, none) = acc at h
  obtain ⟨e₁, total, _ | ⟨j, cw⟩⟩ := acc
  · exact ⟨h.alike, h.wire, by simp⟩
  · obtain ⟨h1, h2⟩ := alike_credit e₁ (.worker j) fun w => w.swrrCw - total
    refine ⟨h.alike.trans h1, fun t => (h2 t).trans (h.wire t), fun j' hj => ?_⟩
    cases hj
    exact h.best j cw rfl

/-! ### Bytes forwarded -/

theorem fwd_calls (e : Router ne nw) (src srcSid dst dstSid pend data) :
    Calls e (e.fwd src srcSid dst dstSid pend data).1 := by
  unfold fwd
  have hw : Calls e (e.call dst (.write dstSid data)) := .call dst .refl (by trivial) (by simp)
  split
  · exact .refl
  · dsimp only
    split
    · exact hw.call src (by trivial) (by simp)
    · exact hw

theorem flushLoop_calls (src srcSid dst dstSid) : ∀ (n : ℕ) (e : Router ne nw) (pend : Bytes),
    Calls e (flushLoop src srcSid dst dstSid n e pend).1
  | 0, _, _ => .refl
  | n + 1, e, pend => by
    have hw : Calls e (e.call dst (.write dstSid pend)) := .call dst .refl (by trivial) (by simp)
    unfold flushLoop
    split
    · exact .refl
    · dsimp only
      split
      · exact hw
      · exact (hw.call src (by trivial) (by simp)).trans
          (flushLoop_calls src srcSid dst dstSid n _ _)

theorem flushPend_calls (e : Router ne nw) (src srcSid dst dstSid pend) :
    Calls e (e.flushPend src srcSid dst dstSid pend).1 :=
  flushLoop_calls src srcSid dst dstSid _ e pend

/-! ### The events -/

theorem find_some (h : e.find t sid = some (p, r)) :
    e.routeOf (t, sid) = some p ∧ e.heap p = some r := by
  simp only [find, bind_eq_some_iff, map_eq_some_iff, Prod.mk.injEq] at h
  obtain ⟨q, hq, y, hy, rfl, rfl⟩ := h
  exact ⟨hq, hy⟩

theorem Tables.of_routeOf (hi : Tables e) (h : e.routeOf (t, sid) = some p) :
    ∃ r, e.heap p = some r ∧ r.tunnel t.side = t ∧ r.sid t.side = sid := by
  obtain ⟨r, hr, d, hd⟩ := hi.index.owned (t, sid) p h
  obtain ⟨rfl, rfl⟩ := Prod.mk.inj hd
  exact ⟨r, hr, by simp, by simp⟩

theorem Tables.of_find (hi : Tables e) (h : e.find t sid = some (p, r)) :
    e.heap p = some r ∧ r.tunnel t.side = t ∧ r.sid t.side = sid := by
  obtain ⟨h1, h2⟩ := find_some h
  obtain ⟨r', hr', h3⟩ := hi.of_routeOf h1
  rw [h2, some_inj] at hr'
  exact ⟨h2, hr' ▸ h3⟩

theorem setRoute_call (e : Router ne nw) (p : ℕ) (r t a) :
    (e.setRoute p r).call t a = (e.call t a).setRoute p r := by
  unfold call
  rw [show ((e.setRoute p r).conn t).mux = (e.conn t).mux from rfl]
  rcases (e.conn t).mux with _ | s <;> rfl

/-- Every session has opened fewer than `2 ^ 31` streams. -/
def AllFew (e : Router ne nw) : Prop := ∀ t s, (e.conn t).mux = some s → Few s.toCore

theorem Tables.off_of_reset (hi : Tables e) {code} (hs : (e.conn t).mux = some s)
    (hev : .reset sid code ∈ s.popped) : Off e t sid := by
  intro s' hs'
  rw [hs, some_inj] at hs'
  subst hs'
  have hsv := hi.served t s hs
  exact .inr (hsv.not_live_of_reset (hsv.popped_mem hev))

theorem nextEvent_cases (hmac) (e : Router ne nw) (t) :
    e.nextEvent hmac t = e ∨ ∃ s ev, (e.conn t).mux = some s ∧ s.front = some ev
      ∧ e.nextEvent hmac t = (e.call t .nextEvent).onEvent hmac t ev := by
  unfold nextEvent
  rcases hm : (e.conn t).mux with _ | s
  · exact .inl rfl
  · rw [bind_some, show (muxNextEvent s).2 = s.front from rfl]
    rcases hfr : s.front with _ | ev
    · exact .inl rfl
    · exact .inr ⟨s, ev, rfl, hfr, rfl⟩

/-! ### The end of a tunnel -/

theorem routeOf_of_mem {en : Sigma fun _ : UInt32 => ℕ} (h : en ∈ (e.conn t).routes.entries) :
    e.routeOf (t, en.1) = some en.2 := AList.mem_lookup_iff.2 h

theorem routeFree_routes (e : Router ne nw) (hp : e.heap p = some r) (d) :
    ((e.routeFree p).conn (r.tunnel d)).routes
      = (e.conn (r.tunnel d)).routes.erase (r.sid d) := by
  cases d with
  | up => simpa [tunnel, sid] using routeFree_edge e hp r.edgeIdx
  | down => simpa [tunnel, sid] using (routeFree_worker e hp r.workerIdx).1

theorem length_entries (m : AList fun _ : UInt32 => ℕ) : m.entries.length = m.keys.length := by
  simp [AList.keys, keys]

theorem Tables.replug (h : Tables e) (hno : ∀ sid, e.routeOf (t, sid) = none) {g}
    (hroutes : (g (e.conn t)).routes = (e.conn t).routes)
    (hinfl : ∀ j, t = .worker j → (g (e.conn t)).inflight.toNat = (e.conn t).routes.keys.length)
    (hmux : ∀ s, (g (e.conn t)).mux = some s → Served s) : Tables (e.modify t g) := by
  have hrof : (e.modify t g).routeOf = e.routeOf :=
    funext fun k => by rw [routeOf, routeOf, modify_field _ _ _ routes hroutes]
  refine ⟨?_, h.fresh, fun t' s hs => ?_, fun t' sid q hq => ?_, fun j => ?_, fun j => ?_⟩
  · rw [hrof]
    exact h.index
  · by_cases ht : t' = t
    · subst ht
      rw [modify_self] at hs
      exact hmux s hs
    · rw [modify_of_ne _ _ _ ht] at hs
      exact h.served t' s hs
  · rw [hrof] at hq
    have ht : t' ≠ t := by
      rintro rfl
      simp [hno] at hq
    rw [modify_of_ne _ _ _ ht]
    exact h.ids t' sid q hq
  · by_cases ht : .worker j = t
    · subst ht
      rw [modify_self, hroutes]
      exact hinfl j rfl
    · rw [modify_of_ne _ _ _ ht]
      exact h.inflight j
  · rw [modify_field _ _ _ routes hroutes]
    exact h.count j

theorem keys_eq_nil (hno : ∀ sid, e.routeOf (t, sid) = none) : (e.conn t).routes.keys = [] :=
  eq_nil_iff_forall_not_mem.2 fun sid hsid =>
    AList.lookup_eq_none.1 (hno sid) (AList.mem_keys.2 hsid)

/-! ### Runs -/

/-- Every session keeps to fewer than `2 ^ 31` streams. -/
def FewMove (hmac : Hmac) (e : Router ne nw) (m : Move ne nw) : Prop :=
  AllFew (e.move hmac m)

theorem mem_tunnels (t) : t ∈ tunnels ne nw := by
  cases t <;> simp [tunnels]

instance AllFew.decidable (e : Router ne nw) : Decidable (AllFew e) :=
  decidable_of_iff
    (∀ t ∈ tunnels ne nw, ∀ s ∈ (e.conn t).mux, (synIds s.sent).length < 2 ^ 31)
    ⟨fun h t s hs => h t (mem_tunnels t) s hs, fun h t _ s hs => h t s hs⟩

instance FewMove.decidable (hmac : Hmac) (e : Router ne nw) (m : Move ne nw) :
    Decidable (FewMove hmac e m) := inferInstanceAs (Decidable (AllFew _))

/-- A tunnel comes up, and its peer sends a HELLO and further bytes. -/
def plugIn (t : Tunnel ne nw) (peer : Core := (initSession {} .acceptor).toCore)
    (more : Bytes := []) : List (Move ne nw) :=
  [.tick t 0 true 0, .finish t false zeroNonce 0,
    .stash t (encode (helloFrame peer true) ++ more), .recv t, .event t]

/-- The peer of a tunnel sends a frame, and its event is handled. -/
def hears (t : Tunnel ne nw) (f : Frame) : List (Move ne nw) :=
  [.stash t (encode f), .recv t, .event t]

end Router

end MuxProtocol
