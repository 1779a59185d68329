import MuxProtocol.Proofs.Ledger
import MuxProtocol.Proofs.Router

/-!
# The splice of the router

A route carries the bytes of the stream of each side to the stream of the other. What was taken from
the one was sent on the other or is pending, in order; what was sent was credited; and a stream that
holds bytes up owes a WRITABLE.
-/

namespace MuxProtocol

open LinearProbe Machine Index List Option Function

variable {ne nw : ℕ}

@[simp] theorem Side.other_other (d : Side) : d.other.other = d := by cases d <;> rfl

theorem Side.other_ne (d : Side) : d.other ≠ d := by cases d <;> simp [Side.other]

theorem Side.eq_or_eq_other (d d' : Side) : d' = d ∨ d' = d.other := by
  cases d <;> cases d' <;> simp [Side.other]

namespace Route

variable {r : Route ne nw}

@[simp] theorem pend_setPend_self (b d) : (r.setPend b d).pend d = b := by
  cases d <;> rfl

theorem pend_setPend_other (b) (d : Side) :
    (r.setPend b d).pend d.other = r.pend d.other := by cases d <;> rfl

@[simp] theorem setPend_setPend (b b' d) :
    (r.setPend b d).setPend b' d = r.setPend b' d := by cases d <;> rfl

@[simp] theorem setPend_pend (d) : r.setPend (r.pend d) d = r := by cases d <;> rfl

@[simp] theorem pend_setFin (d d') : (r.setFin d').pend d = r.pend d := by
  cases d <;> cases d' <;> rfl

@[simp] theorem tunnel_setPend (b d d') :
    (r.setPend b d').tunnel d = r.tunnel d := by cases d <;> cases d' <;> rfl

@[simp] theorem sid_setPend (b d d') : (r.setPend b d').sid d = r.sid d := by
  cases d <;> cases d' <;> rfl

theorem key_ne {d d'} (h : d ≠ d') {r' : Route ne nw} : r.key d ≠ r'.key d' :=
  fun hk => h (key_inj hk)

end Route

namespace Router

variable {e e' : Router ne nw} {t t' : Tunnel ne nw} {sid sid' : UInt32} {a : Call} {p q : ℕ}
  {r r' : Route ne nw} {s : Session} {k : Tunnel ne nw × UInt32} {d : Side} {ev : Event}

/-! ### What was taken, sent and credited -/

/-- The bytes sent on a stream. -/
def sentOn (e : Router ne nw) (k : Tunnel ne nw × UInt32) : Bytes :=
  ((e.conn k.1).mux.map fun s => bytesOf (msgs k.2 s.sent)).getD []

/-- The bytes of a stream that the router was told of. -/
def gotOn (e : Router ne nw) (k : Tunnel ne nw × UInt32) : Bytes :=
  ((e.conn k.1).mux.map fun s => streamBytes k.2 s.popped).getD []

/-- The bytes passed to `mux_consume` for a stream. -/
def creditOn (e : Router ne nw) (k : Tunnel ne nw × UInt32) : ℕ :=
  creditOf k.2 (e.conn k.1).credits

/-- The bytes of all streams of a tunnel that the router was told of. -/
def surfaced (e : Router ne nw) (t : Tunnel ne nw) : ℕ :=
  ((e.conn t).mux.map fun s => deliveredBytes s.popped).getD 0

/-- The bytes of a route on a tunnel that the other side has not accepted. -/
def pendOn (t : Tunnel ne nw) (r : Route ne nw) : ℕ :=
  if r.tunnel t.side = t then (r.pend t.side).length else 0

/-- The bytes passed to `mux_consume` on a tunnel and those pending. -/
def held (e : Router ne nw) (t : Tunnel ne nw) : ℕ :=
  passed (e.conn t).credits + total (pendOn t) e.heap e.next

/-- Where the stream is live and can be written, its last write was cut short, and no WRITABLE was
taken since. -/
def Due (e : Router ne nw) (k : Tunnel ne nw × UInt32) : Prop :=
  ∀ s, (e.conn k.1).mux = some s → s.dead = false → Every s.tab (Marked s.popped k.2)

/-- One direction of a route: what came from side `d`. -/
structure Spliced (e : Router ne nw) (r : Route ne nw) (d : Side) : Prop where
  bytes : e.sentOn (r.key d.other) ++ r.pend d = e.gotOn (r.key d)
  credit : e.creditOn (r.key d) = (e.sentOn (r.key d.other)).length

/-- The sessions and what was passed to them; of a stream that the router was not told of and has
not opened, nothing. -/
structure Accounts (e : Router ne nw) : Prop where
  account : ∀ t s, (e.conn t).mux = some s → Account s (e.conn t).credits
  down : ∀ t, (e.conn t).mux = none → (e.conn t).credits = []
  silent : ∀ t s, (e.conn t).mux = some s → ∀ sid, sid ∉ t.ids s →
    e.sentOn (t, sid) = [] ∧ e.creditOn (t, sid) = 0

/-- The streams that hold bytes up, but for those of `x`, owe a WRITABLE. -/
def Dues (x : Tunnel ne nw × UInt32 → Prop) (e : Router ne nw) : Prop :=
  ∀ p r, e.heap p = some r → ∀ d, r.pend d ≠ [] → x (r.key d.other) ∨ Due e (r.key d.other)

/-- What holds between the events, where no stream is of `x`. -/
structure Books (x : Tunnel ne nw × UInt32 → Prop) (e : Router ne nw) : Prop where
  accounts : Accounts e
  spliced : ∀ p r, e.heap p = some r → ∀ d, Spliced e r d
  dues : Dues x e
  held : ∀ t, e.held t ≤ e.surfaced t

/-! ### Calls -/

section Effects

theorem sentOn_of (hs : (e.conn t).mux = some s) (sid) :
    e.sentOn (t, sid) = bytesOf (msgs sid s.sent) := by simp [sentOn, hs]

theorem gotOn_of (hs : (e.conn t).mux = some s) (sid) :
    e.gotOn (t, sid) = streamBytes sid s.popped := by simp [gotOn, hs]

theorem surfaced_of (hs : (e.conn t).mux = some s) : e.surfaced t = deliveredBytes s.popped := by
  simp [surfaced, hs]

theorem sentOn_call (hi : Tables e) (ha : ∀ sid b, a ≠ .write sid b) (k) :
    (e.call t a).sentOn k = e.sentOn k := by
  obtain ⟨t', sid⟩ := k
  by_cases ht : t' = t
  · subst ht
    rcases hs : (e.conn t').mux with _ | s
    · simp [sentOn, call_mux_self, hs]
    · simp [sentOn, call_mux_self, hs, Session.call_bytes (hi.served t' s hs).wf ha]
  · rw [sentOn, sentOn, call_of_ne _ _ _ ht]

theorem sentOn_write (hi : Tables e) (b : Bytes) (k) : (e.call t (.write sid b)).sentOn k
      = e.sentOn k ++ if (t, sid) = k then b.take (e.accepts t sid b) else [] := by
  obtain ⟨t', sid'⟩ := k
  by_cases ht : t = t'
  · subst ht
    rcases hs : (e.conn t).mux with _ | s
    · simp [sentOn, accepts, call_mux_self, hs]
    · simp [sentOn, accepts, call_mux_self, hs, Session.write_bytes (hi.served t s hs).wf]
  · rw [sentOn, sentOn, call_of_ne _ _ _ (Ne.symm ht), if_neg (by simp [ht]), append_nil]

theorem gotOn_call (ha : a ≠ .nextEvent) (k) : (e.call t a).gotOn k = e.gotOn k := by
  obtain ⟨t', sid⟩ := k
  by_cases ht : t' = t
  · subst ht
    rcases hs : (e.conn t').mux with _ | s
    · simp [gotOn, call_mux_self, hs]
    · simp [gotOn, call_mux_self, hs, (Session.call_pushes ha s).popped]
  · rw [gotOn, gotOn, call_of_ne _ _ _ ht]

theorem surfaced_call (ha : a ≠ .nextEvent) (t') : (e.call t a).surfaced t' = e.surfaced t' := by
  by_cases ht : t' = t
  · subst ht
    rcases hs : (e.conn t').mux with _ | s
    · simp [surfaced, call_mux_self, hs]
    · simp [surfaced, call_mux_self, hs, (Session.call_pushes ha s).popped]
  · rw [surfaced, surfaced, call_of_ne _ _ _ ht]

theorem gotOn_pop (hi : Tables e) (hs : (e.conn t).mux = some s) (hfr : s.front = some ev)
    (k : Tunnel ne nw × UInt32) :
    (e.call t .nextEvent).gotOn k = e.gotOn k ++ if k.1 = t then ev.bytesOn k.2 else [] := by
  obtain ⟨t', sid⟩ := k
  by_cases ht : t' = t
  · subst ht
    simp [gotOn, call_mux_self, hs, (hi.served t' s hs).popped_front hfr]
  · rw [gotOn, gotOn, call_of_ne _ _ _ ht, if_neg ht, append_nil]

theorem surfaced_pop (hi : Tables e) (hs : (e.conn t).mux = some s) (hfr : s.front = some ev) (t') :
    (e.call t .nextEvent).surfaced t' = e.surfaced t' + if t = t' then ev.size else 0 := by
  by_cases ht : t = t'
  · subst ht
    simp [surfaced, call_mux_self, hs, (hi.served t s hs).popped_front hfr]
  · rw [surfaced, surfaced, call_of_ne _ _ _ (Ne.symm ht), if_neg ht, Nat.add_zero]

theorem call_credits (hs : (e.conn t).mux = some s) (t') : ((e.call t a).conn t').credits
      = (e.conn t').credits ++ if t = t' then a.credits else [] := by
  unfold call
  rw [hs]
  by_cases ht : t = t'
  · subst ht
    simp
  · rw [modify_of_ne _ _ _ (Ne.symm ht), if_neg ht, append_nil]

theorem call_credits_of (ha : a.credits = []) (t') :
    ((e.call t a).conn t').credits = (e.conn t').credits := by
  rcases hs : (e.conn t).mux with _ | s
  · rw [call, hs]
  · rw [call_credits hs, ha]
    simp

end Effects

theorem held_congr (h1 : (e'.conn t).credits = (e.conn t).credits) (h2 : e'.heap = e.heap)
    (h3 : e'.next = e.next) : e'.held t = e.held t := by rw [held, held, h1, h2, h3]

theorem Due.call (hi : Tables e) (h : Due e k) (hp : e.routeOf k = some p) (hf : CanCall e t a)
    (ha : a ≠ .nextEvent) : Due (e.call t a) k := by
  intro s hs hd
  obtain ⟨s₀, hs₀, rfl⟩ := (call_mux_eq_some e t a).1 hs
  by_cases ht : k.1 = t
  · rw [if_pos ht] at hd ⊢
    obtain ⟨s₁, hs₁, hm⟩ := hi.ids k.1 k.2 p hp
    rw [hs₀, some_inj] at hs₁
    subst hs₁
    have hsv := hi.served k.1 s₀ hs₀
    have hk := Served.knows_of_ids k.1 hm
    exact hsv.marked_next hk ha (hf s₀ (ht ▸ hs₀)) hd (h s₀ hs₀ (Session.call_alive hsv.wf hd))
  · rw [if_neg ht] at hd ⊢
    exact h s₀ hs₀ hd

theorem Due.pop (hi : Tables e) (h : Due e k) (hs : (e.conn t).mux = some s)
    (hfr : s.front = some ev) (hev : k.1 = t → ev ≠ .writable k.2) :
    Due (e.call t .nextEvent) k := by
  intro s' hs' hd
  obtain ⟨s₀, hs₀, rfl⟩ := (call_mux_eq_some e t _).1 hs'
  by_cases ht : k.1 = t
  · rw [if_pos ht] at hd ⊢
    rw [ht, hs, some_inj] at hs₀
    subst hs₀
    refine (hi.served t s hs).marked_pop hfr (hev ht) (h s (ht ▸ hs) ?_)
    rwa [(front_some hfr).2] at hd
  · rw [if_neg ht] at hd ⊢
    exact h s₀ hs₀ hd

theorem Accounts.call (h : Accounts e) (hi : Tables e) (hf : CanCall e t a)
    (hw : ∀ sid b, a ≠ .write sid b) (hc : a.credits = []) : Accounts (e.call t a) := by
  have hcr := fun t' => call_credits_of (e := e) (t := t) hc t'
  have hcon : ∀ sid n, a ≠ .consume sid n := by
    rintro sid n rfl
    cases hc
  refine ⟨fun t' s hs => ?_, fun t' hm => ?_, fun t' s hs sid hno => ?_⟩
  · rw [hcr]
    obtain ⟨s₀, hs₀, rfl⟩ := (call_mux_eq_some e t a).1 hs
    split
    · rename_i ht
      exact (h.account t' s₀ hs₀).call (hi.served t' s₀ hs₀) (hf s₀ (ht ▸ hs₀)) hcon
    · exact h.account t' s₀ hs₀
  · rw [hcr]
    exact h.down t' (((sameLinks_call e t a).mux t').1 hm)
  · rw [sentOn_call hi hw, creditOn, hcr]
    obtain ⟨s₀, hs₀, rfl⟩ := (call_mux_eq_some e t a).1 hs
    refine h.silent t' s₀ hs₀ sid fun hm => hno ?_
    split
    · exact (hi.served t' s₀ hs₀).ids_call a t' hm
    · exact hm

theorem pendOn_setPend (r : Route ne nw) (b : Bytes) (d t) :
    pendOn t (r.setPend b d) + (if r.tunnel d = t then (r.pend d).length else 0)
      = pendOn t r + if r.tunnel d = t then b.length else 0 := by
  unfold pendOn
  rw [Route.tunnel_setPend]
  rcases Side.eq_or_eq_other d t.side with hd | hd
  · rw [hd, Route.pend_setPend_self]
    split <;> omega
  · have hne : r.tunnel d ≠ t := by
      rintro rfl
      rw [Route.side_tunnel] at hd
      exact d.other_ne hd.symm
    rw [if_neg hne, if_neg hne, hd, Route.pend_setPend_other]

theorem held_setRoute (hi : Tables e) (hp : e.heap p = some r) (r' t) :
    (e.setRoute p r').held t + pendOn t r = e.held t + pendOn t r' := by
  have := total_update (pendOn t) e.heap (hi.lt_next hp) (some r')
  simp only [hp, map_some, getD_some] at this
  rw [held, held, Nat.add_assoc, Nat.add_assoc]
  exact congrArg _ this

theorem held_setPend (hi : Tables e) (hp : e.heap p = some r) (b : Bytes) (d t) :
    (e.setRoute p (r.setPend b d)).held t + (if r.tunnel d = t then (r.pend d).length else 0)
      = e.held t + if r.tunnel d = t then b.length else 0 := by
  have h1 := held_setRoute hi hp (r.setPend b d) t
  have h2 := pendOn_setPend r b d t
  omega

namespace Books

variable {x y : Tunnel ne nw × UInt32 → Prop}

theorem mono (h : Books x e) (hxy : ∀ k, x k → y k) : Books y e :=
  ⟨h.accounts, h.spliced, fun p r hp d hne => (h.dues p r hp d hne).imp_left (hxy _), h.held⟩

theorem call (h : Books x e) (hi : Tables e) (hf : CanCall e t a) (ha : a ≠ .nextEvent)
    (hw : ∀ sid b, a ≠ .write sid b) (hc : a.credits = []) : Books x (e.call t a) := by
  have hcr := fun t' => call_credits_of (e := e) (t := t) hc t'
  refine ⟨h.accounts.call hi hf hw hc, fun p r hp d => ?_, fun p r hp d hne => ?_, fun t' => ?_⟩
  · rw [call_heap] at hp
    obtain ⟨h1, h2⟩ := h.spliced p r hp d
    exact ⟨by rw [sentOn_call hi hw, gotOn_call ha, h1],
      by rw [sentOn_call hi hw, creditOn, hcr, ← h2, creditOn]⟩
  · rw [call_heap] at hp
    exact (h.dues p r hp d hne).imp_right fun hd =>
      hd.call hi (hi.index.reach p r hp d.other) hf ha
  · rw [held_congr (hcr t') (call_heap ..) (call_next ..), surfaced_call ha]
    exact h.held t'

theorem pop (h : Books x e) (hi : Tables e) (hs : (e.conn t).mux = some s)
    (hfr : s.front = some ev)
    (hno : ∀ p r, e.heap p = some r → r.tunnel t.side = t → ev.bytesOn (r.sid t.side) = []) :
    Books (fun k => x k ∨ k.1 = t ∧ ev = .writable k.2) (e.call t .nextEvent) := by
  have hf := hi.can_call t (a := .nextEvent) (by simp)
  have hcr := fun t' => call_credits_of (e := e) (t := t) (a := .nextEvent) rfl t'
  refine ⟨h.accounts.call hi hf (by simp) rfl, fun p r hp d => ?_, fun p r hp d hne => ?_,
    fun t' => ?_⟩
  · rw [call_heap] at hp
    obtain ⟨h1, h2⟩ := h.spliced p r hp d
    refine ⟨?_, by rw [sentOn_call hi (by simp), creditOn, hcr, ← h2, creditOn]⟩
    rw [sentOn_call hi (by simp), gotOn_pop hi hs hfr, h1]
    split
    · rename_i ht
      have hd : t.side = d := by
        rw [← ht]
        exact r.side_tunnel d
      have := hno p r hp (by rw [hd]; exact ht)
      rw [hd] at this
      rw [show (r.key d).2 = r.sid d from rfl, this, append_nil]
    · rw [append_nil]
  · rw [call_heap] at hp
    rcases h.dues p r hp d hne with hx | hdue
    · exact .inl (.inl hx)
    · by_cases hev : (r.key d.other).1 = t ∧ ev = .writable (r.key d.other).2
      · exact .inl (.inr hev)
      · exact .inr (hdue.pop hi hs hfr fun ht he => hev ⟨ht, he⟩)
  · rw [held_congr (hcr t') (call_heap ..) (call_next ..), surfaced_pop hi hs hfr]
    exact Nat.le_add_right_of_le (h.held t')

theorem of_setRoute (ha : Accounts e)
    (hold : ∀ q r₁, e.heap q = some r₁ → q ≠ p → ∀ d, Spliced e r₁ d
      ∧ (r₁.pend d ≠ [] → x (r₁.key d.other) ∨ Due e (r₁.key d.other)))
    (hnew : ∀ d, Spliced e r' d ∧ (r'.pend d ≠ [] → x (r'.key d.other) ∨ Due e (r'.key d.other)))
    (hheld : ∀ t, (e.setRoute p r').held t ≤ e.surfaced t) : Books x (e.setRoute p r') := by
  have hroute : ∀ q r₁, (e.setRoute p r').heap q = some r₁ → ∀ d, Spliced e r₁ d
      ∧ (r₁.pend d ≠ [] → x (r₁.key d.other) ∨ Due e (r₁.key d.other)) := by
    intro q r₁ hq d
    by_cases hqp : q = p
    · subst hqp
      rw [setRoute_self, some_inj] at hq
      exact hq ▸ hnew d
    · rw [setRoute_of_ne hqp] at hq
      exact hold q r₁ hq hqp d
  refine ⟨⟨ha.account, ha.down, ha.silent⟩, fun q r₁ hq d => ?_, fun q r₁ hq d => ?_, hheld⟩
  · obtain ⟨⟨h1, h2⟩, -⟩ := hroute q r₁ hq d
    exact ⟨h1, h2⟩
  · exact (hroute q r₁ hq d).2

/-- DATA is taken and put behind what is pending. -/
theorem popData (h : Books x e) (hi : Tables e) (hs : (e.conn t).mux = some s) {data}
    (hfr : s.front = some (.data sid data)) (hp : e.heap p = some r)
    (hk : r.key t.side = (t, sid)) :
    Books (fun k => x k ∨ r.pend t.side = [] ∧ k = r.key t.side.other)
      ((e.call t .nextEvent).setRoute p (r.setPend (r.pend t.side ++ data) t.side)) := by
  have hf := hi.can_call t (a := .nextEvent) (by simp)
  have hcr := fun t' => call_credits_of (e := e) (t := t) (a := .nextEvent) rfl t'
  have hgot : ∀ q r' d, e.heap q = some r' → (e.call t .nextEvent).gotOn (r'.key d)
      = e.gotOn (r'.key d) ++ if q = p ∧ d = t.side then data else [] := by
    intro q r' d hq
    rw [gotOn_pop hi hs hfr, Event.bytesOn]
    by_cases he : r'.key d = (t, sid)
    · obtain rfl := hi.index.unique hq hp (he.trans hk.symm)
      have hd : d = t.side := Route.key_inj (he.trans hk.symm)
      rw [he, if_pos rfl, if_pos rfl, if_pos ⟨rfl, hd⟩]
    · have hno : ¬ (q = p ∧ d = t.side) := by
        rintro ⟨rfl, rfl⟩
        rw [hq, some_inj] at hp
        exact he (hp ▸ hk)
      congr 1
      split
      · rename_i ht
        exact if_neg fun hsid => he (Prod.ext ht hsid.symm)
      · rfl
  have hspl : ∀ q r₁ d, e.heap q = some r₁ →
      (e.call t .nextEvent).sentOn (r₁.key d.other) ++ (r₁.pend d ++ if q = p ∧ d = t.side then data
        else []) = (e.call t .nextEvent).gotOn (r₁.key d)
      ∧ (e.call t .nextEvent).creditOn (r₁.key d)
        = ((e.call t .nextEvent).sentOn (r₁.key d.other)).length := by
    intro q r₁ d hq
    obtain ⟨h1, h2⟩ := h.spliced q r₁ hq d
    refine ⟨?_, by rw [sentOn_call hi (by simp), creditOn, hcr, ← h2, creditOn]⟩
    rw [sentOn_call hi (by simp), hgot q r₁ d hq, ← h1, append_assoc]
  have hdue : ∀ {k}, Due e k → Due (e.call t .nextEvent) k := fun h => h.pop hi hs hfr (by simp)
  refine of_setRoute (h.accounts.call hi hf (by simp) rfl) (fun q r₁ hq hqp d => ?_) (fun d => ?_)
    fun t' => ?_
  · rw [call_heap] at hq
    obtain ⟨h1, h2⟩ := hspl q r₁ d hq
    rw [if_neg fun h => hqp h.1, append_nil] at h1
    exact ⟨⟨h1, h2⟩, fun hne => (h.dues q r₁ hq d hne).imp .inl hdue⟩
  · obtain ⟨h1, h2⟩ := hspl p r d hp
    rcases Side.eq_or_eq_other t.side d with rfl | rfl
    · refine ⟨⟨by simpa using h1, by simpa using h2⟩, fun _ => ?_⟩
      rw [Route.key_setPend]
      by_cases hnil : r.pend t.side = []
      · exact .inl (.inr ⟨hnil, rfl⟩)
      · exact (h.dues p r hp _ hnil).imp .inl hdue
    · rw [if_neg fun h => t.side.other_ne h.2, append_nil] at h1
      refine ⟨⟨by simpa [Route.pend_setPend_other] using h1, by simpa using h2⟩, fun hne => ?_⟩
      rw [Route.pend_setPend_other] at hne
      rw [Route.key_setPend]
      exact (h.dues p r hp _ hne).imp .inl hdue
  · have hp' : (e.call t .nextEvent).heap p = some r := by rwa [call_heap]
    have h1 := held_setPend (hi.call hf) hp' (r.pend t.side ++ data) t.side t'
    have h2 := h.held t'
    rw [held_congr (hcr t') (call_heap ..) (call_next ..)] at h1
    rw [surfaced_pop hi hs hfr, Event.size]
    rw [show r.tunnel t.side = t from congrArg Prod.fst hk, length_append] at h1
    by_cases ht : t = t'
    · rw [if_pos ht, if_pos ht] at h1
      rw [if_pos ht]
      omega
    · rw [if_neg ht, if_neg ht] at h1
      omega

end Books

/-! ### A round of forwarding -/

/-- The bytes that a round takes. -/
def relays (e : Router ne nw) (r : Route ne nw) (d : Side) : ℕ :=
  e.accepts (r.tunnel d.other) (r.sid d.other) (r.pend d)

/-- What is pending of side `d` is written to the other, and what that accepts is credited. -/
def relayed (e : Router ne nw) (r : Route ne nw) (d : Side) : Router ne nw :=
  let e₁ := e.call (r.tunnel d.other) (.write (r.sid d.other) (r.pend d))
  if e.relays r d > 0 then e₁.call (r.tunnel d) (.consume (r.sid d) (e.relays r d)) else e₁

/-- A round, with what stays pending. -/
def relay (e : Router ne nw) (p : ℕ) (r : Route ne nw) (d : Side) : Router ne nw :=
  (e.relayed r d).setRoute p (r.setPend ((r.pend d).drop (e.relays r d)) d)

theorem accepts_le (b : Bytes) : e.accepts t sid b ≤ b.length := by
  unfold accepts
  split
  · exact Nat.zero_le _
  · exact accepted_le _ _ _

theorem due_write (hi : Tables e) {b : Bytes} (hlt : e.accepts t sid b < b.length) :
    Due (e.call t (.write sid b)) (t, sid) := by
  intro s hs hd
  obtain ⟨s₀, hs₀, rfl⟩ := (call_mux_eq_some e t _).1 hs
  rw [if_pos rfl] at hd ⊢
  rw [accepts, hs₀] at hlt
  exact (hi.served t s₀ hs₀).marked_write hlt hd

theorem Accounts.write (h : Accounts e) (hi : Tables e) (hp : e.routeOf (t, sid) = some p) (b) :
    Accounts (e.call t (.write sid b)) := by
  have hf := hi.can_call t (a := .write sid b) (by simp)
  have hcr := fun t' => call_credits_of (e := e) (t := t) (a := .write sid b) rfl t'
  refine ⟨fun t' s hs => ?_, fun t' hm => ?_, fun t' s hs sid' hno => ?_⟩
  · rw [hcr]
    obtain ⟨s₀, hs₀, rfl⟩ := (call_mux_eq_some e t _).1 hs
    split
    · rename_i ht
      exact (h.account t' s₀ hs₀).call (hi.served t' s₀ hs₀) (hf s₀ (ht ▸ hs₀)) (by simp)
    · exact h.account t' s₀ hs₀
  · rw [hcr]
    exact h.down t' (((sameLinks_call e t _).mux t').1 hm)
  · obtain ⟨s₁, hs₁, hm⟩ := (hi.call hf).ids t sid p (by rwa [call_routeOf])
    have hne : (t, sid) ≠ (t', sid') := by
      rintro ⟨⟩
      rw [hs, some_inj] at hs₁
      exact hno (hs₁ ▸ hm)
    rw [sentOn_write hi, if_neg hne, append_nil, creditOn, hcr]
    obtain ⟨s₀, hs₀, rfl⟩ := (call_mux_eq_some e t _).1 hs
    refine h.silent t' s₀ hs₀ sid' fun hm => hno ?_
    split
    · exact (hi.served t' s₀ hs₀).ids_call _ t' hm
    · exact hm

/-- What is credited was delivered, on the tunnel and on the stream. -/
theorem Accounts.consume (h : Accounts e) (hi : Tables e) (hp : e.routeOf (t, sid) = some p)
    {n : ℕ} (hall : passed (e.conn t).credits + n ≤ e.surfaced t)
    (hone : e.creditOn (t, sid) + n ≤ (e.gotOn (t, sid)).length) :
    Accounts (e.call t (.consume sid n)) := by
  obtain ⟨s, hs, hm⟩ := hi.ids t sid p hp
  have hsv := hi.served t s hs
  have hcr := fun t' => call_credits (a := .consume sid n) hs t'
  refine ⟨fun t' s' hs' => ?_, fun t' hm' => ?_, fun t' s' hs' sid' hno => ?_⟩
  · rw [hcr]
    obtain ⟨s₀, hs₀, rfl⟩ := (call_mux_eq_some e t _).1 hs'
    by_cases ht : t' = t
    · subst ht
      rw [hs, some_inj] at hs₀
      subst hs₀
      rw [if_pos rfl, if_pos rfl]
      rw [surfaced_of hs] at hall
      rw [gotOn_of hs, creditOn] at hone
      refine (h.account t' s hs).consume hsv ?_ ?_
      · rw [hsv.queued_eq, deliveredBytes_append]
        exact Nat.le_add_right_of_le hall
      · rw [hsv.queued_eq, streamBytes_append, length_append]
        exact Nat.le_add_right_of_le hone
    · rw [if_neg ht, if_neg (Ne.symm ht), append_nil]
      exact h.account t' s₀ hs₀
  · have hm' := ((sameLinks_call e t _).mux t').1 hm'
    have ht : t ≠ t' := by
      rintro rfl
      simp [hs] at hm'
    rw [hcr, if_neg ht, append_nil]
    exact h.down t' hm'
  · have hne : ¬ (t = t' ∧ sid = sid') := by
      rintro ⟨rfl, rfl⟩
      rw [call_mux_self, hs, map_some, some_inj] at hs'
      exact hno (hs' ▸ hsv.ids_call _ t hm)
    obtain ⟨s₀, hs₀, rfl⟩ := (call_mux_eq_some e t _).1 hs'
    rw [sentOn_call hi (by simp), creditOn, hcr, creditOf_append]
    obtain ⟨h1, h2⟩ := h.silent t' s₀ hs₀ sid' fun hm' => hno (by
      split
      · exact (hi.served t' s₀ hs₀).ids_call _ t' hm'
      · exact hm')
    refine ⟨h1, ?_⟩
    rw [show creditOf sid' (e.conn t').credits = 0 from h2, Nat.zero_add]
    split
    · rename_i ht
      simpa [Call.credits] using fun h => absurd ⟨ht, h⟩ hne
    · rfl

section Relayed

variable (hi : Tables e) (hp : e.heap p = some r) (d : Side)

theorem relayed_calls (e : Router ne nw) (r d) : Calls e (e.relayed r d) := by
  have hw : Calls e (e.call (r.tunnel d.other) (.write (r.sid d.other) (r.pend d))) :=
    .call _ .refl (by trivial) (by simp)
  unfold relayed
  split
  · exact hw.call _ (by trivial) (by simp)
  · exact hw

include hi

theorem relayed_sentOn (k) : (e.relayed r d).sentOn k
    = e.sentOn k ++ if r.key d.other = k then (r.pend d).take (e.relays r d) else [] := by
  have hi₁ := hi.call (hi.can_call (r.tunnel d.other)
    (a := .write (r.sid d.other) (r.pend d)) (by simp))
  unfold relayed
  split
  · rw [sentOn_call hi₁ (by simp)]
    exact sentOn_write hi _ k
  · exact sentOn_write hi _ k

omit hi in
theorem relayed_gotOn (k) : (e.relayed r d).gotOn k = e.gotOn k := by
  unfold relayed
  split
  · rw [gotOn_call (by simp), gotOn_call (by simp)]
  · rw [gotOn_call (by simp)]

omit hi in
theorem relayed_surfaced (t) : (e.relayed r d).surfaced t = e.surfaced t := by
  unfold relayed
  split
  · rw [surfaced_call (by simp), surfaced_call (by simp)]
  · rw [surfaced_call (by simp)]

include hp

theorem relayed_credits (t) : ((e.relayed r d).conn t).credits
    = (e.conn t).credits ++ if 0 < e.relays r d ∧ r.tunnel d = t then [(r.sid d, e.relays r d)]
      else [] := by
  have hi₁ := hi.call (hi.can_call (r.tunnel d.other)
    (a := .write (r.sid d.other) (r.pend d)) (by simp))
  obtain ⟨s, hs, -⟩ := hi₁.ids (r.tunnel d) (r.sid d) p (by
    rw [call_routeOf]
    exact hi.index.reach p r hp d)
  unfold relayed
  by_cases hw : e.relays r d > 0
  · rw [if_pos hw, call_credits hs, call_credits_of rfl]
    simp [hw, Call.credits]
  · rw [if_neg hw, call_credits_of rfl, if_neg fun h => hw h.1, append_nil]

theorem relayed_creditOn (k) :
    (e.relayed r d).creditOn k = e.creditOn k + if r.key d = k then e.relays r d else 0 := by
  rw [creditOn, creditOn, relayed_credits hi hp, creditOf_append]
  obtain ⟨t, sid⟩ := k
  by_cases hk : r.key d = (t, sid)
  · obtain ⟨rfl, rfl⟩ := Prod.mk.inj hk
    rcases Nat.eq_zero_or_pos (e.relays r d) with hw | hw
    · simp [hw]
    · simp [hw, Route.key]
  · split
    · rename_i h
      have : r.sid d ≠ sid := fun hsid => hk (Prod.ext h.2 hsid)
      simp [this]
    · rfl

theorem relayed_passed (t) : passed ((e.relayed r d).conn t).credits
    = passed (e.conn t).credits + if r.tunnel d = t then e.relays r d else 0 := by
  rw [relayed_credits hi hp, passed_append]
  rcases Nat.eq_zero_or_pos (e.relays r d) with hw | hw
  · simp [hw]
  · by_cases ht : r.tunnel d = t <;> simp [hw, ht]

/-- What is pending is part of what was delivered and not credited. -/
theorem passed_add_pend_le : passed (e.conn (r.tunnel d)).credits + (r.pend d).length
    ≤ e.held (r.tunnel d) := by
  have h1 := held_setPend hi hp [] d (r.tunnel d)
  have h2 : passed (e.conn (r.tunnel d)).credits
      ≤ (e.setRoute p (r.setPend [] d)).held (r.tunnel d) := Nat.le_add_right _ _
  simp only [if_true, length_nil] at h1
  omega

theorem Accounts.relayed (h : Accounts e) (hspl : Spliced e r d)
    (hheld : e.held (r.tunnel d) ≤ e.surfaced (r.tunnel d)) : Accounts (e.relayed r d) := by
  have hreach := hi.index.reach p r hp
  have hf := hi.can_call (r.tunnel d.other) (a := .write (r.sid d.other) (r.pend d)) (by simp)
  have h₁ := h.write hi (hreach d.other) (r.pend d)
  have hle : e.relays r d ≤ (r.pend d).length := accepts_le _
  unfold Router.relayed
  split
  · refine h₁.consume (hi.call hf) (p := p) (by rw [call_routeOf]; exact hreach d) ?_ ?_
    · rw [call_credits_of rfl, surfaced_call (by simp)]
      have := passed_add_pend_le hi hp d
      omega
    · rw [creditOn, call_credits_of rfl, gotOn_call (by simp)]
      have h1 := congrArg length hspl.bytes
      have h2 := hspl.credit
      rw [length_append, ← h2] at h1
      rw [show e.gotOn (r.tunnel d, r.sid d) = e.gotOn (r.key d) from rfl, ← h1]
      exact Nat.add_le_add_left hle _
  · exact h₁

theorem due_relayed (hlt : e.relays r d < (r.pend d).length) :
    Due (e.relayed r d) (r.key d.other) := by
  have hf := hi.can_call (r.tunnel d.other) (a := .write (r.sid d.other) (r.pend d)) (by simp)
  have hi₁ := hi.call hf
  have hdue := due_write hi hlt
  unfold Router.relayed
  split
  · refine hdue.call hi₁ (p := p) ?_ (hi₁.can_call _ (by simp)) (by simp)
    rw [call_routeOf]
    exact hi.index.reach p r hp d.other
  · exact hdue

theorem held_relay (t) : (e.relay p r d).held t = e.held t := by
  unfold relay
  have hc := relayed_calls e r d
  have hle : e.relays r d ≤ (r.pend d).length := accepts_le _
  have h1 := held_setPend (hc.tables hi) (hc.heap_eq ▸ hp) ((r.pend d).drop (e.relays r d)) d t
  have h2 : (e.relayed r d).held t = e.held t + if r.tunnel d = t then e.relays r d else 0 := by
    rw [held, held, relayed_passed hi hp, hc.heap_eq, hc.next_eq]
    omega
  rw [length_drop] at h1
  by_cases ht : r.tunnel d = t
  · rw [if_pos ht, if_pos ht] at h1
    rw [if_pos ht] at h2
    omega
  · rw [if_neg ht, if_neg ht] at h1
    rw [if_neg ht] at h2
    omega

end Relayed

theorem Due.calls (hc : Calls e e') (hi : Tables e) (h : Due e k) (hp : e.routeOf k = some p) :
    Due e' k := by
  induction hc with
  | refl => exact h
  | call t hc ha hm ih =>
    exact ih.call (hc.tables hi) (hc.routeOf_eq ▸ hp) ((hc.tables hi).can_call t hm)
      (by rintro rfl; exact ha)

/-- What the destination takes is sent, credited and no longer pending. -/
theorem Books.relay {x : Tunnel ne nw × UInt32 → Prop} (h : Books x e) (hi : Tables e)
    (hp : e.heap p = some r) (d : Side) :
    Books (fun k => x k ∧ k ≠ r.key d.other) (e.relay p r d) := by
  have hc := relayed_calls e r d
  have hle : e.relays r d ≤ (r.pend d).length := accepts_le _
  have hreach := hi.index.reach
  have hspl := h.spliced p r hp
  -- a stream of another route, or of the other direction
  have hothers : ∀ q r₁ d', e.heap q = some r₁ → r₁.pend d' ≠ [] → r₁.key d'.other ≠ r.key d.other →
      x (r₁.key d'.other) ∧ r₁.key d'.other ≠ r.key d.other
        ∨ Due (e.relayed r d) (r₁.key d'.other) := by
    intro q r₁ d' hq hpend hne
    exact (h.dues q r₁ hq d' hpend).imp (⟨·, hne⟩) fun hd =>
      hd.calls hc hi (hreach q r₁ hq d'.other)
  refine of_setRoute (h.accounts.relayed hi hp d (hspl d) (h.held _)) (fun q r₁ hq hqp d' => ?_)
    (fun d' => ?_) fun t => ?_
  · rw [hc.heap_eq] at hq
    have hne : ∀ {i i'}, r.key i ≠ r₁.key i' := fun hk => hqp (hi.index.unique hq hp hk.symm)
    obtain ⟨h1, h2⟩ := h.spliced q r₁ hq d'
    refine ⟨⟨?_, ?_⟩, fun hpend => hothers q r₁ d' hq hpend hne.symm⟩
    · rw [relayed_sentOn hi, if_neg hne, append_nil, relayed_gotOn, h1]
    · rw [relayed_creditOn hi hp, if_neg hne, relayed_sentOn hi, if_neg hne, append_nil, h2,
        Nat.add_zero]
  · rcases Side.eq_or_eq_other d d' with rfl | rfl
    · obtain ⟨h1, h2⟩ := hspl d'
      refine ⟨⟨?_, ?_⟩, fun hpend => .inr ?_⟩
      · rw [Route.key_setPend, Route.key_setPend, relayed_sentOn hi, if_pos rfl, relayed_gotOn,
          Route.pend_setPend_self, append_assoc, take_append_drop, h1]
      · rw [Route.key_setPend, Route.key_setPend, relayed_sentOn hi, if_pos rfl,
          relayed_creditOn hi hp, if_pos rfl, length_append, length_take, h2, Nat.min_eq_left hle]
      · rw [Route.key_setPend]
        refine due_relayed hi hp d' (Nat.lt_of_le_of_ne hle fun heq => hpend ?_)
        rw [Route.pend_setPend_self, heq, drop_length]
    · obtain ⟨h1, h2⟩ := hspl d.other
      rw [Side.other_other] at h1 h2
      refine ⟨⟨?_, ?_⟩, fun hpend => ?_⟩
      · rw [Route.key_setPend, Route.key_setPend, relayed_sentOn hi, Side.other_other,
          if_neg (Route.key_ne d.other_ne), append_nil, relayed_gotOn, Route.pend_setPend_other, h1]
      · rw [Route.key_setPend, Route.key_setPend, relayed_sentOn hi, Side.other_other,
          if_neg (Route.key_ne d.other_ne), relayed_creditOn hi hp,
          if_neg (Route.key_ne d.other_ne.symm), append_nil, h2, Nat.add_zero]
      · rw [Route.pend_setPend_other] at hpend
        rw [Route.key_setPend]
        refine hothers p r d.other hp hpend ?_
        rw [Side.other_other]
        exact Route.key_ne d.other_ne.symm
  · refine Nat.le_trans (Nat.le_of_eq (held_relay hi hp d t)) ?_
    rw [relayed_surfaced]
    exact h.held t

/-! ### Routes and sessions that come and go -/

/-- The sessions, and what was passed to them, are the same. -/
structure SameBooks (e e' : Router ne nw) : Prop where
  mux : ∀ t, (e'.conn t).mux = (e.conn t).mux
  credits : ∀ t, (e'.conn t).credits = (e.conn t).credits

namespace SameBooks

theorem sentOn_eq (h : SameBooks e e') : e'.sentOn = e.sentOn :=
  funext fun k => by rw [sentOn, sentOn, h.mux]

theorem gotOn_eq (h : SameBooks e e') : e'.gotOn = e.gotOn :=
  funext fun k => by rw [gotOn, gotOn, h.mux]

theorem creditOn_eq (h : SameBooks e e') : e'.creditOn = e.creditOn :=
  funext fun k => by rw [creditOn, creditOn, h.credits]

theorem surfaced_eq (h : SameBooks e e') : e'.surfaced = e.surfaced :=
  funext fun t => by rw [surfaced, surfaced, h.mux]

theorem accounts (h : SameBooks e e') (ha : Accounts e) : Accounts e' := by
  refine ⟨fun t s hs => ?_, fun t hm => ?_, fun t s hs => ?_⟩
  · rw [h.credits]
    exact ha.account t s (h.mux t ▸ hs)
  · rw [h.credits]
    exact ha.down t (h.mux t ▸ hm)
  · rw [h.sentOn_eq, h.creditOn_eq]
    exact ha.silent t s (h.mux t ▸ hs)

theorem spliced (h : SameBooks e e') (hs : Spliced e r d) : Spliced e' r d := by
  obtain ⟨h1, h2⟩ := hs
  exact ⟨by rw [h.sentOn_eq, h.gotOn_eq, h1], by rw [h.sentOn_eq, h.creditOn_eq, h2]⟩

theorem due (h : SameBooks e e') (hd : Due e k) : Due e' k := fun s hs => hd s (h.mux k.1 ▸ hs)

theorem books {x : Tunnel ne nw × UInt32 → Prop} (h : SameBooks e e') (hb : Books x e)
    (hroute : ∀ p r, e'.heap p = some r → (∃ q, e.heap q = some r)
      ∨ ∀ d, r.pend d = [] ∧ Spliced e r d)
    (hheld : ∀ t, e'.held t ≤ e.held t) : Books x e' := by
  refine ⟨h.accounts hb.accounts, fun p r hp d => h.spliced ?_, fun p r hp d hne => ?_,
    fun t => ?_⟩
  · rcases hroute p r hp with ⟨q, hq⟩ | hnew
    · exact hb.spliced q r hq d
    · exact (hnew d).2
  · rcases hroute p r hp with ⟨q, hq⟩ | hnew
    · exact (hb.dues q r hq d hne).imp_right h.due
    · exact absurd (hnew d).1 hne
  · rw [h.surfaced_eq]
    exact (hheld t).trans (hb.held t)

end SameBooks

theorem Alike.sameBooks (h : Alike e e') : SameBooks e e' := ⟨h.mux, h.credits⟩

theorem Books.alike {x : Tunnel ne nw × UInt32 → Prop} (hb : Books x e) (h : Alike e e') :
    Books x e' :=
  h.sameBooks.books hb (fun p _ hp => .inl ⟨p, h.heap ▸ hp⟩) fun t =>
    Nat.le_of_eq (held_congr (h.credits t) h.heap h.next)

theorem sameBooks_free (e : Router ne nw) (p : ℕ) : SameBooks e (e.routeFree p) :=
  ⟨routeFree_mux e, routeFree_field e EpConn.credits fun _ _ _ => rfl⟩

theorem sameBooks_new (e : Router ne nw) (i j sid ds) : SameBooks e (e.routeNew i sid j ds) :=
  ⟨routeNew_mux e i j sid ds, routeNew_field e i j sid ds EpConn.credits fun _ _ _ => rfl⟩

theorem held_free (hi : Tables e) (hp : e.heap p = some r) (t) :
    (e.routeFree p).held t + pendOn t r = e.held t := by
  have := total_update (pendOn t) e.heap (hi.lt_next hp) none
  simp only [hp, map_some, getD_some, map_none, getD_none, Nat.add_zero] at this
  rw [held, held, (sameBooks_free e p).credits, routeFree_heap e hp, routeFree_next, Nat.add_assoc,
    this]

theorem held_new (e : Router ne nw) (i j sid ds t) : (e.routeNew i sid j ds).held t = e.held t := by
  have hz : pendOn t (newRoute i j sid ds) = 0 := by
    unfold pendOn
    split
    · cases t <;> rfl
    · rfl
  rw [held, held, (sameBooks_new e i j sid ds).credits, routeNew_heap, routeNew_next, total_succ,
    total_update_of_le _ (Nat.le_refl _), update_self, map_some, getD_some, hz]
  rfl

theorem Books.drop {x : Tunnel ne nw × UInt32 → Prop} (hb : Books x e) (hi : Tables e)
    (hp : e.heap p = some r) (hk : ∀ d, r'.key d = r.key d) :
    Books x ((e.setRoute p r').routeFree p) := by
  have hp' : (e.setRoute p r').heap p = some r' := setRoute_self e p r'
  have hfree := sameBooks_free (e.setRoute p r') p
  have hsame : SameBooks e ((e.setRoute p r').routeFree p) := ⟨hfree.mux, hfree.credits⟩
  refine hsame.books hb (fun q r₁ hq => .inl ⟨q, ?_⟩) fun t => ?_
  · rw [routeFree_heap _ hp'] at hq
    by_cases hqp : q = p
    · subst hqp
      simp at hq
    · rwa [update_of_ne hqp, setRoute_of_ne hqp] at hq
  · have h1 := held_free (hi.setRoute hp hk) hp' t
    have h2 := held_setRoute hi hp r' t
    omega

theorem Books.new {x : Tunnel ne nw × UInt32 → Prop} (hb : Books x e) {i j sid ds}
    (hnew : ∀ d, e.sentOn ((newRoute i j sid ds).key d) = []
      ∧ e.gotOn ((newRoute i j sid ds).key d) = [] ∧ e.creditOn ((newRoute i j sid ds).key d) = 0) :
    Books x (e.routeNew i sid j ds) := by
  refine (sameBooks_new e i j sid ds).books hb (fun q r₁ hq => ?_) fun t =>
    Nat.le_of_eq (held_new e i j sid ds t)
  rw [routeNew_heap] at hq
  by_cases hqn : q = e.next
  · subst hqn
    rw [update_self, some_inj] at hq
    subst hq
    refine .inr fun d => ?_
    have hpend : (newRoute i j sid ds : Route ne nw).pend d = [] := by cases d <;> rfl
    obtain ⟨-, h2, h3⟩ := hnew d
    obtain ⟨h4, -, -⟩ := hnew d.other
    exact ⟨hpend, by rw [h4, hpend, h2]; rfl, by rw [h3, h4]; rfl⟩
  · rw [update_of_ne hqn] at hq
    exact .inl ⟨q, hq⟩

/-- A change of a route that keeps its streams and what is pending. -/
theorem Books.setRoute {x : Tunnel ne nw × UInt32 → Prop} (hb : Books x e) (hi : Tables e)
    (hp : e.heap p = some r) (hk : ∀ d, r'.key d = r.key d) (hpend : ∀ d, r'.pend d = r.pend d) :
    Books x (e.setRoute p r') := by
  refine of_setRoute hb.accounts (fun q r₁ hq _ d => ⟨hb.spliced q r₁ hq d, hb.dues q r₁ hq d⟩)
    (fun d => ?_) fun t => ?_
  · obtain ⟨h1, h2⟩ := hb.spliced p r hp d
    refine ⟨⟨by rw [hk, hk, hpend, h1], by rw [hk, hk, h2]⟩, fun hne => ?_⟩
    rw [hk]
    exact hb.dues p r hp d (hpend d ▸ hne)
  · have h1 := held_setRoute hi hp r' t
    have h2 : pendOn t r' = pendOn t r := by
      rw [pendOn, pendOn, hpend, show r'.tunnel t.side = _ from congrArg Prod.fst (hk t.side)]
      rfl
    have h3 := hb.held t
    omega

theorem total_pendOn_eq_zero (hi : Tables e) (hno : ∀ sid, e.routeOf (t, sid) = none) :
    total (pendOn t) e.heap e.next = 0 := by
  refine Finset.sum_eq_zero fun p _ => ?_
  rcases hp : e.heap p with _ | r
  · rfl
  · rw [map_some, getD_some, pendOn, if_neg]
    intro ht
    have := hi.index.reach p r hp t.side
    rw [Route.key, ht, hno] at this
    cases this

/-- A new session has empty books. -/
theorem Books.plug {x : Tunnel ne nw × UInt32 → Prop} (hb : Books x e) (hi : Tables e)
    (hno : ∀ sid, e.routeOf (t, sid) = none) {g} (hcr : (g (e.conn t)).credits = [])
    (hmux : ∀ s, (g (e.conn t)).mux = some s → ∃ cfg role, muxSessionNew cfg role = some s) :
    Books x (e.modify t g) := by
  have hne : ∀ {p r}, e.heap p = some r → ∀ d, r.tunnel d ≠ t := fun {p r} hp d hd => by
    have := hi.index.reach p r hp d
    rw [Route.key, hd, hno] at this
    cases this
  have hkey : ∀ {p r}, e.heap p = some r → ∀ d, (e.modify t g).sentOn (r.key d) = e.sentOn (r.key d)
      ∧ (e.modify t g).gotOn (r.key d) = e.gotOn (r.key d)
      ∧ (e.modify t g).creditOn (r.key d) = e.creditOn (r.key d) := by
    intro p r hp d
    simp only [sentOn, gotOn, creditOn, Route.key, modify_of_ne _ _ _ (hne hp d), and_self]
  refine ⟨⟨fun t' s hs => ?_, fun t' hm => ?_, fun t' s hs sid hids => ?_⟩, fun p r hp d => ?_,
    fun p r hp d hpend => ?_, fun t' => ?_⟩
  · by_cases ht : t' = t
    · subst ht
      rw [modify_self] at hs ⊢
      obtain ⟨cfg, role, hnew⟩ := hmux s hs
      exact hcr ▸ account_new hnew
    · rw [modify_of_ne _ _ _ ht] at hs ⊢
      exact hb.accounts.account t' s hs
  · by_cases ht : t' = t
    · subst ht
      rw [modify_self]
      exact hcr
    · rw [modify_of_ne _ _ _ ht] at hm ⊢
      exact hb.accounts.down t' hm
  · by_cases ht : t' = t
    · subst ht
      have hs' := hs
      rw [modify_self] at hs'
      obtain ⟨cfg, role, hnew⟩ := hmux s hs'
      rw [sentOn_of hs, creditOn, modify_self, hcr]
      refine ⟨?_, rfl⟩
      have hv := congrArg View.out (view_start cfg role sid)
      rw [(muxSessionNew_spec hnew).1]
      rw [show msgs sid (startCore cfg role).sent = [] from hv]
      rfl
    · have hs' := hs
      rw [modify_of_ne _ _ _ ht] at hs'
      simp only [sentOn, creditOn, modify_of_ne _ _ _ ht]
      exact hb.accounts.silent t' s hs' sid hids
  · obtain ⟨h1, h2⟩ := hb.spliced p r hp d
    obtain ⟨h3, h4, h5⟩ := hkey hp d
    obtain ⟨h6, -, -⟩ := hkey hp d.other
    exact ⟨by rw [h6, h4, h1], by rw [h5, h6, h2]⟩
  · refine (hb.dues p r hp d hpend).imp_right fun hdue s hs => ?_
    rw [Route.key, modify_of_ne _ _ _ (hne hp d.other)] at hs
    exact hdue s hs
  · by_cases ht : t' = t
    · subst ht
      rw [Router.held, modify_self, hcr, modify_heap, modify_next, total_pendOn_eq_zero hi hno]
      exact Nat.zero_le _
    · rw [Router.held, surfaced, modify_of_ne _ _ _ ht]
      exact hb.held t'

end Router

end MuxProtocol
