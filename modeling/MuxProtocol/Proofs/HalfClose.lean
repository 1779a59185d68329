import MuxProtocol.Proofs.Backpressure

/-!
# Half-closed routes

The router closes the destination of a route when the source has closed. What the destination does
not take at that moment is lost; where it always takes all, no byte is.
-/

namespace MuxProtocol

open LinearProbe Machine Index

variable {ne nw : ℕ}

namespace Router

variable {e e' : Router ne nw} {t : Tunnel ne nw} {sid : UInt32} {p : ℕ} {r : Route ne nw}
  {hmac : Hmac} {cfg : EpConfig}

/-- A direction that was closed holds no bytes, and neither does a route freed by both sides. -/
structure Drained (e : Router ne nw) : Prop where
  closed : ∀ p r, e.heap p = some r → ∀ d, r.fin d = true → r.pend d = []
  freed : ∀ r ∈ e.freed, r.gone = false → ∀ d, r.pend d = []

/-- The parts that leave no bytes behind. -/
def Draining : Deed ne nw → Prop
  | .finish r d => r.pend d = []
  | .free r _ => r.gone = false → ∀ d, r.pend d = []
  | _ => True

theorem Route.fin_setFin {d d'} (h : (r.setFin d').fin d = true) : d = d' ∨ r.fin d = true := by
  cases d <;> cases d' <;> first | exact .inl rfl | exact .inr h

theorem routeFree_freed (e : Router ne nw) (hp : e.heap p = some r) :
    (e.routeFree p).freed = e.freed ++ [r] := by
  rw [routeFree, hp]
  rfl

theorem Drained.of_heap (h : Drained e) (hf : e'.freed = e.freed)
    (hh : ∀ p r, e'.heap p = some r → e.heap p = some r ∨ ∀ d, r.fin d = true → r.pend d = []) :
    Drained e' :=
  ⟨fun p r hp => (hh p r hp).elim (h.closed p r) id, fun r hr => h.freed r (hf ▸ hr)⟩

theorem Drained.setRoute (h : Drained e) (hr : ∀ d, r.fin d = true → r.pend d = []) :
    Drained (e.setRoute p r) := by
  refine h.of_heap rfl fun q r₁ hq => ?_
  by_cases hqp : q = p
  · subst hqp
    rw [setRoute_self, Option.some_inj] at hq
    exact .inr (hq ▸ hr)
  · exact .inl (by rwa [setRoute_of_ne hqp] at hq)

theorem Drained.relay (h : Drained e) (hp : e.heap p = some r) (d) : Drained (e.relay p r d) := by
  have hc := relayed_calls e r d
  have h₁ : Drained (e.relayed r d) := h.of_heap hc.freed_eq fun q r₁ hq => .inl (hc.heap_eq ▸ hq)
  refine h₁.setRoute fun d' hd' => ?_
  have hnil := h.closed p r hp d' (by simpa using hd')
  rcases Side.eq_or_eq_other d d' with rfl | rfl
  · rw [Route.pend_setPend_self, hnil, List.drop_nil]
  · rw [Route.pend_setPend_other, hnil]

/-- A part leaves no bytes in a direction that it closes, nor in a route that it frees. -/
theorem Part.drained {l} (h : Part e l e') (hl : Draining l) (hd : Drained e) : Drained e' := by
  have hcall : ∀ {e : Router ne nw} (t a), Drained e → Drained (e.call t a) := fun t a h =>
    h.of_heap (call_freed ..) fun p r hp => .inl (by rwa [call_heap] at hp)
  cases h with
  | alike h => exact hd.of_heap h.freed fun p r hp => .inl (h.heap ▸ hp)
  | call | pop => exact hcall _ _ hd
  | @forward t s sid data p r _ _ hp _ hfin =>
    have h₁ : Drained ((e.call t .nextEvent).setRoute p
        (r.setPend (r.pend t.side ++ data) t.side)) := by
      refine (hcall t .nextEvent hd).setRoute fun d hd' => ?_
      rw [Route.fin_setPend] at hd'
      rcases Side.eq_or_eq_other t.side d with rfl | rfl
      · simp [hfin] at hd'
      · rw [Route.pend_setPend_other]
        exact hd.closed p r hp _ hd'
    unfold forwarded
    dsimp only
    split
    · exact h₁.relay (setRoute_self ..) _
    · exact h₁
  | wake _ _ hp => exact (hcall _ _ hd).relay (by rwa [call_heap]) _
  | relay d hp => exact hd.relay hp d
  | @finish p r d hp =>
    refine hd.setRoute fun d' hd' => ?_
    rw [Route.pend_setFin]
    rcases Route.fin_setFin hd' with rfl | hd'
    · exact hl
    · exact hd.closed p r hp d' hd'
  | @free p r r' _ hp =>
    have hp' := setRoute_self e p r'
    refine ⟨fun q r₁ hq => ?_, fun r₁ hr₁ => ?_⟩
    · rw [routeFree_heap _ hp'] at hq
      by_cases hqp : q = p
      · subst hqp
        simp at hq
      · rw [Function.update_of_ne hqp, setRoute_of_ne hqp] at hq
        exact hd.closed q r₁ hq
    · rw [routeFree_freed _ hp', List.mem_append, List.mem_singleton] at hr₁
      rcases hr₁ with hr₁ | rfl
      · exact hd.freed r₁ hr₁
      · exact hl
  | @adopt i j s w sid ds metadata e₁ _ _ hal =>
    change Drained ((e₁.call _ _).routeNew i sid j ds)
    refine hd.of_heap ?_ fun q r₁ hq => ?_
    · exact (call_freed ..).trans (hal.freed.trans (call_freed ..))
    · rw [routeNew_heap, call_heap, hal.heap, call_heap] at hq
      by_cases hqn : q = (e₁.call (.worker j) (.open metadata)).next
      · subst hqn
        rw [Function.update_self, Option.some_inj] at hq
        refine .inr fun d _ => ?_
        rw [← hq]
        cases d <;> rfl
      · rw [Function.update_of_ne hqn] at hq
        exact .inl hq
  | plug => exact ⟨hd.closed, hd.freed⟩

/-- At CLOSED the destination takes what the route holds. -/
def TakesRest (e : Router ne nw) (t : Tunnel ne nw) : Event → Prop
  | .closed sid => ∀ pr ∈ e.find t sid, e.relays pr.2 t.side = (pr.2.pend t.side).length
  | _ => True

instance TakesRest.decidable (e : Router ne nw) (t : Tunnel ne nw) :
    ∀ ev, Decidable (TakesRest e t ev)
  | .closed _ => inferInstanceAs (Decidable (∀ pr ∈ _, _))
  | .data _ _ | .reset _ _ | .opened _ _ | .writable _ | .peerHello .. | .capacity _ | .goaway _ _
  | .fatal _ => inferInstanceAs (Decidable True)

def DrainsAtClose (e : Router ne nw) : Move ne nw → Prop
  | .event t => ∀ s ∈ (e.conn t).mux, ∀ ev ∈ s.front, TakesRest e t ev
  | _ => True

instance DrainsAtClose.decidable (e : Router ne nw) : ∀ m, Decidable (DrainsAtClose e m)
  | .event _ => inferInstanceAs (Decidable (∀ s ∈ _, ∀ ev ∈ _, _))
  | .tick .. | .finish .. | .timer .. | .stash .. | .recv .. | .advance .. | .teardown .. =>
    inferInstanceAs (Decidable True)

/-- Where the destination takes the rest at CLOSED, the move leaves no bytes behind. -/
theorem DrainsAtClose.permits (hi : Tables e) (hd : Drained e) {m}
    (hm : DrainsAtClose e m) : PermittedMove Draining e m := by
  cases m with
  | event t =>
    intro s ev hs hfr
    have hall := hm s hs ev hfr
    refine ⟨trivial, trivial, fun _ => trivial, fun _ _ _ _ => trivial, ?_, ?_⟩
    · rintro sid rfl p r hf
      rw [find_call] at hf
      have hb := flushPend_eq_nil (e := e.call t .nextEvent) t sid
        ((accepts_call_of_ne side_other_ne _).trans (hall (p, r) hf))
      rw [hb]
      refine ⟨Route.pend_setPend_self _ _, fun hfin _ d => ?_⟩
      rw [Route.pend_setFin]
      rcases Side.eq_or_eq_other t.side d with rfl | rfl
      · exact Route.pend_setPend_self _ _
      · rw [Route.pend_setPend_other]
        exact hd.closed p r (hi.of_find hf).1 _ hfin
    · rintro sid code rfl p r hf hgone
      simp at hgone
  | teardown t now => exact ⟨trivial, trivial, fun p r _ _ hgone => by simp at hgone⟩
  | finish => exact ⟨trivial, trivial⟩
  | _ => trivial

/-- Every move that drains at CLOSED keeps it. -/
theorem Drained.move (hd : Drained e) (h : Steady e) {m} (hfew : AllFew (e.move hmac m))
    (hm : DrainsAtClose e m) : Drained (e.move hmac m) :=
  Parts.inv (move_parts h hfew (hm.permits h.tables hd)) h.toInv hd
    fun _ hd hl hp => hp.drained hl hd

/-- In every run of the router in which each session opens fewer than `2 ^ 31` streams and, whenever
CLOSED of a route's stream is handled, the destination takes all that the route holds: what was sent
to the destination is a part of what came from the source, from its start; all of it, once the
destination was closed; and a route that both sides have closed is freed without bytes in it. -/
theorem half_close_complete
    (h : Reach (ofFun (Router.move hmac)) (fun e m => FewMove hmac e m ∧ DrainsAtClose e m)
      (start ne nw cfg) e) :
    (∀ p r, e.heap p = some r → ∀ d, e.sentOn (r.key d.other) <+: e.gotOn (r.key d)
      ∧ (r.fin d = true → e.sentOn (r.key d.other) = e.gotOn (r.key d) ∧ r.pend d = []))
    ∧ ∀ r ∈ e.freed, r.gone = false → r.u2w = [] ∧ r.w2u = [] := by
  obtain ⟨hi, hd⟩ := h.inv (I := fun e => Steady e ∧ Drained e)
    ⟨steady_start cfg, by simp [start], by simp [start]⟩
    fun e m e' hi hm he => by
      rw [show e' = e.move hmac m from he]
      exact ⟨hi.1.move hm.1, hi.2.move hi.1 hm.1 hm.2⟩
  refine ⟨fun p r hp d => ?_, fun r hr hg => ⟨hd.freed r hr hg .up, hd.freed r hr hg .down⟩⟩
  have hbytes := (hi.books.spliced p r hp d).bytes
  refine ⟨⟨_, hbytes⟩, fun hfin => ?_⟩
  have hnil := hd.closed p r hp d hfin
  rw [hnil, List.append_nil] at hbytes
  exact ⟨hbytes, hnil⟩

/-- The edge sends two bytes and closes. -/
def closingRun : List (Move 1 1) :=
  routedRun ++ hears (.edge 0) (dataFrame 2 [7, 8]) ++ hears (.edge 0) (finFrame 2)

theorem half_close_complete_closingRun :
    ∃ e : Router 1 1, e = closingRun.foldl (Router.move nullHmac) (start 1 1 {})
      ∧ ∃ r, e.heap 0 = some r ∧ r.upFin = true ∧ e.sentOn (r.key .down) = e.gotOn (r.key .up) := by
  have hrun : Reach (ofFun (Router.move nullHmac))
      (fun e m => FewMove nullHmac e m ∧ DrainsAtClose e m) (start 1 1 {})
      (closingRun.foldl (Router.move nullHmac) (start 1 1 {})) :=
        .foldl closingRun (by decide +kernel)
  have hroute : ((closingRun.foldl (Router.move nullHmac) (start 1 1 {})).heap 0).any
      fun r => r.upFin := by decide +kernel
  obtain ⟨r, hr, hfin⟩ := (Option.any_eq_true _ _).1 hroute
  exact ⟨_, rfl, r, hr, hfin, (((half_close_complete hrun).1 0 r hr .up).2 hfin).1⟩

/-- The edge closes while the worker, whose window is of one byte, has not taken the second. -/
def truncatedRun : List (Move 1 1) := oneByteRun ++ hears (.edge 0) (finFrame 2)

theorem half_close_truncates :
    ∃ e : Router 1 1, Reach (ofFun (Router.move nullHmac)) (FewMove nullHmac) (start 1 1 {}) e
      ∧ ∃ r, e.heap 0 = some r ∧ r.upFin = true ∧ r.u2w = [8] ∧ e.gotOn (.edge 0, 2) = [7, 8]
        ∧ ∃ w, (e.conn (.worker 0)).mux = some w ∧ w.dead = false ∧ finFrame 1 ∈ w.sent
          ∧ bytesOf (msgs 1 w.sent) = [7] := by
  have hrun : Reach (ofFun (Router.move nullHmac)) (FewMove nullHmac) (start 1 1 {})
      (truncatedRun.foldl (Router.move nullHmac) (start 1 1 {})) := .foldl _ (by decide +kernel)
  have hroute : ((truncatedRun.foldl (Router.move nullHmac) (start 1 1 {})).heap 0).any
      fun r => r.upFin && r.u2w == [8] := by decide +kernel
  have hgot : (truncatedRun.foldl (Router.move nullHmac) (start 1 1 {})).gotOn (.edge 0, 2)
    = [7, 8] := by
    decide +kernel
  have hmux : ((truncatedRun.foldl (Router.move nullHmac) (start 1 1 {})).conn (.worker 0)).mux.any
      fun w => !w.dead && decide (finFrame 1 ∈ w.sent) && bytesOf (msgs 1 w.sent) == [7] := by
    decide +kernel
  generalize truncatedRun.foldl (Router.move nullHmac) (start 1 1 {}) = e at *
  obtain ⟨r, hr, h1⟩ := (Option.any_eq_true _ _).1 hroute
  obtain ⟨w, hw, h2⟩ := (Option.any_eq_true _ _).1 hmux
  rw [Bool.and_eq_true, beq_iff_eq] at h1
  rw [Bool.and_eq_true, Bool.and_eq_true, Bool.not_eq_true', decide_eq_true_eq, beq_iff_eq] at h2
  exact ⟨e, hrun, r, hr, h1.1, h1.2, hgot, w, hw, h2.1.1, h2.1.2, h2.2⟩

end Router

end MuxProtocol
