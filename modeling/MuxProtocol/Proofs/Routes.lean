import MuxProtocol.Lib.Index
import MuxProtocol.Proofs.Served
import MuxProtocol.Router

/-!
# The routes of the router

The maps of the tunnels and the routes allocated fit together, and every stream that a live session
carries has its route, in every state that the moves of the router reach.
-/

namespace MuxProtocol

open Machine Index Function EpConn List Option

variable {ne nw : ℕ}

namespace Route

/-- The stream of a side. -/
def key (d : Side) (r : Route ne nw) : Tunnel ne nw × UInt32 := (r.tunnel d, r.sid d)

@[simp] theorem side_tunnel (r : Route ne nw) (d) : (r.tunnel d).side = d := by
  cases d <;> rfl

theorem key_inj {r r' : Route ne nw} {d d'} (h : r.key d = r'.key d') : d = d' := by
  have := congrArg (·.1.side) h
  simpa [key] using this

@[simp] theorem key_setPend (r : Route ne nw) (b d d') :
    (r.setPend b d').key d = r.key d := by cases d <;> cases d' <;> rfl

@[simp] theorem key_setFin (r : Route ne nw) (d d') : (r.setFin d').key d = r.key d := by
  cases d <;> cases d' <;> rfl

@[simp] theorem fin_setPend (r : Route ne nw) (b d d') :
    (r.setPend b d').fin d = r.fin d := by cases d <;> cases d' <;> rfl

@[simp] theorem gone_setPend (r : Route ne nw) (b d) :
    (r.setPend b d).gone = r.gone := by cases d <;> rfl

@[simp] theorem gone_setFin (r : Route ne nw) (d) : (r.setFin d).gone = r.gone := by
  cases d <;> rfl

end Route

namespace Router

variable {e e' : Router ne nw} {t t' : Tunnel ne nw} {sid sid' : UInt32} {a : Call} {p : ℕ}
  {r r' : Route ne nw} {s : Session}

/-! ### Changes of the state -/

section Changes

variable (e : Router ne nw) (t : Tunnel ne nw) (g : EpConn → EpConn) (a : Call)

@[simp] theorem modify_self : (e.modify t g).conn t = g (e.conn t) := update_self ..

theorem modify_of_ne (h : t' ≠ t) : (e.modify t g).conn t' = e.conn t' := update_of_ne h ..

@[simp] theorem modify_heap : (e.modify t g).heap = e.heap := rfl

@[simp] theorem modify_next : (e.modify t g).next = e.next := rfl

theorem modify_field {α : Type*} (φ : EpConn → α) (h : φ (g (e.conn t)) = φ (e.conn t)) :
    φ ((e.modify t g).conn t') = φ (e.conn t') := by
  by_cases ht : t' = t
  · subst ht
    rw [modify_self, h]
  · rw [modify_of_ne _ _ _ ht]

@[simp] theorem call_heap : (e.call t a).heap = e.heap := by
  unfold call
  split <;> rfl

@[simp] theorem call_next : (e.call t a).next = e.next := by
  unfold call
  split <;> rfl

@[simp] theorem call_freed : (e.call t a).freed = e.freed := by
  unfold call
  split <;> rfl

theorem call_field {α : Type*} (φ : EpConn → α)
    (h : ∀ (c : EpConn) m n, φ { c with mux := m, credits := n } = φ c) :
    φ ((e.call t a).conn t') = φ (e.conn t') := by
  unfold call
  split
  · rfl
  · exact modify_field _ _ _ φ (h _ _ _)

@[simp] theorem call_routes : ((e.call t a).conn t').routes = (e.conn t').routes :=
  call_field e t a routes fun _ _ _ => rfl

@[simp] theorem call_inflight : ((e.call t a).conn t').inflight = (e.conn t').inflight :=
  call_field e t a inflight fun _ _ _ => rfl

theorem call_mux_self : ((e.call t a).conn t).mux = (e.conn t).mux.map (·.call a) := by
  unfold call
  split
  · rename_i h
    simp [h]
  · rename_i h
    simp [h]

theorem call_of_ne (h : t' ≠ t) : (e.call t a).conn t' = e.conn t' := by
  unfold call
  split
  · rfl
  · exact modify_of_ne _ _ _ h

theorem call_mux_eq_some :
    ((e.call t a).conn t').mux = some s ↔ ∃ s₀, (e.conn t').mux = some s₀
      ∧ s = if t' = t then s₀.call a else s₀ := by
  by_cases ht : t' = t
  · subst ht
    simp [call_mux_self, eq_comm]
  · simp [call_of_ne _ _ _ ht, ht]

end Changes

/-! ### The tables -/

/-- The maps of the tunnels, as one. -/
def routeOf (e : Router ne nw) (k : Tunnel ne nw × UInt32) : Option ℕ :=
  (e.conn k.1).routes.lookup k.2

/-- The routes on a worker. -/
def onWorker (j : Fin nw) (r : Route ne nw) : ℕ := if r.workerIdx = j then 1 else 0

end Router

/-- The ids of the streams that the router was told of by an edge, or has opened on a worker. -/
def Tunnel.ids : Tunnel ne nw → Session → List UInt32
  | .edge _, s => openedIds s.popped
  | .worker _, s => synIds s.sent

namespace Router

variable {e e' : Router ne nw} {t t' : Tunnel ne nw} {sid sid' : UInt32} {a : Call} {p : ℕ}
  {r r' : Route ne nw} {s : Session}

structure Tables (e : Router ne nw) : Prop where
  index : Indexed Route.key e.heap e.routeOf
  fresh : ∀ p, e.next ≤ p → e.heap p = none
  served : ∀ t s, (e.conn t).mux = some s → Served s
  ids : ∀ t sid p, e.routeOf (t, sid) = some p → ∃ s, (e.conn t).mux = some s ∧ sid ∈ t.ids s
  inflight : ∀ j, (e.conn (.worker j)).inflight.toNat = (e.conn (.worker j)).routes.keys.length
  count : ∀ j, total (onWorker j) e.heap e.next = (e.conn (.worker j)).routes.keys.length

/-- The state, but for what the maps and the streams do not depend on. -/
structure Alike (e e' : Router ne nw) : Prop where
  heap : e'.heap = e.heap
  next : e'.next = e.next
  freed : e'.freed = e.freed
  mux : ∀ t, (e'.conn t).mux = (e.conn t).mux
  routes : ∀ t, (e'.conn t).routes = (e.conn t).routes
  inflight : ∀ t, (e'.conn t).inflight = (e.conn t).inflight
  credits : ∀ t, (e'.conn t).credits = (e.conn t).credits

theorem Alike.trans {e''} (h : Alike e e') (h' : Alike e' e'') : Alike e e'' :=
  ⟨h'.heap.trans h.heap, h'.next.trans h.next, h'.freed.trans h.freed,
    fun t => (h'.mux t).trans (h.mux t), fun t => (h'.routes t).trans (h.routes t),
    fun t => (h'.inflight t).trans (h.inflight t), fun t => (h'.credits t).trans (h.credits t)⟩

theorem Alike.tables (h : Alike e e') (hi : Tables e) : Tables e' := by
  have hr : e'.routeOf = e.routeOf := funext fun k => by rw [routeOf, routeOf, h.routes]
  refine ⟨by rw [h.heap, hr]; exact hi.index, ?_, ?_, ?_, ?_, ?_⟩
  · rw [h.heap, h.next]
    exact hi.fresh
  · intro t s
    rw [h.mux]
    exact hi.served t s
  · intro t sid p
    rw [h.mux, hr]
    exact hi.ids t sid p
  · intro j
    rw [h.inflight, h.routes]
    exact hi.inflight j
  · intro j
    rw [h.heap, h.next, h.routes]
    exact hi.count j

end Router

theorem Served.knows_of_ids {s : Session} (t : Tunnel ne nw) {sid} (hm : sid ∈ t.ids s) :
    s.Knows sid := by
  cases t with
  | edge i => exact .inr hm
  | worker j => exact .inl hm

theorem Served.ids_call {s : Session} (h : Served s) (a) (t : Tunnel ne nw) {sid}
    (hm : sid ∈ t.ids s) : sid ∈ t.ids (s.call a) := by
  cases t with
  | edge i =>
    obtain ⟨l, hl⟩ := h.popped_call a
    rw [Tunnel.ids] at hm ⊢
    rw [← hl, openedIds_append]
    exact mem_append_left _ hm
  | worker j =>
    rw [Tunnel.ids] at hm ⊢
    rw [Session.call_synIds h.wf]
    exact mem_append_left _ hm

namespace Router

variable {e e' : Router ne nw} {t t' : Tunnel ne nw} {sid sid' : UInt32} {a : Call} {p : ℕ}
  {r r' : Route ne nw} {s : Session}

@[simp] theorem call_routeOf (e : Router ne nw) (t a) :
    (e.call t a).routeOf = e.routeOf := funext fun k => by rw [routeOf, routeOf, call_routes]

/-- The session of a tunnel may make the call. -/
def CanCall (e : Router ne nw) (t : Tunnel ne nw) (a : Call) : Prop :=
  ∀ s, (e.conn t).mux = some s → Few (s.call a).toCore

/-- A call leaves the tables alone, and the sessions as they should be. -/
theorem Tables.call (hi : Tables e) (hf : CanCall e t a) : Tables (e.call t a) := by
  refine ⟨by simpa using hi.index, by simpa using hi.fresh, ?_, ?_, by simpa using hi.inflight,
    by simpa using hi.count⟩
  · intro t' s hs
    obtain ⟨s₀, hs₀, rfl⟩ := (call_mux_eq_some e t a).1 hs
    split
    · rename_i ht
      subst ht
      exact (hi.served t' s₀ hs₀).call a (hf s₀ hs₀)
    · exact hi.served t' s₀ hs₀
  · intro t' sid p hp
    rw [call_routeOf] at hp
    obtain ⟨s₀, hs₀, hm⟩ := hi.ids t' sid p hp
    refine ⟨_, (call_mux_eq_some e t a).2 ⟨s₀, hs₀, rfl⟩, ?_⟩
    split
    · exact (hi.served t' s₀ hs₀).ids_call a t' hm
    · exact hm

theorem Tables.can_call (hi : Tables e) (t) (ha : ∀ m, a ≠ .open m) : CanCall e t a := fun s hs =>
  Session.call_few (hi.served t s hs).wf (hi.served t s hs).few ha

theorem Tables.born (hi : Tables e) (hp : e.routeOf (t, sid) = some p) :
    ∃ s, (e.conn t).mux = some s ∧ (s.toCore.view sid).Born (Own s.role sid) := by
  obtain ⟨s, hs, hm⟩ := hi.ids t sid p hp
  exact ⟨s, hs, (hi.served t s hs).born_of_knows (Served.knows_of_ids t hm)⟩

/-! ### Streams without a route -/

/-- A live session carries a stream that has no route. -/
def Misses (e : Router ne nw) (t : Tunnel ne nw) (sid : UInt32) : Prop :=
  ∃ s, (e.conn t).mux = some s ∧ s.dead = false ∧ s.Carries sid ∧ e.routeOf (t, sid) = none

/-- The session has no such stream, or is dead. -/
def Off (e : Router ne nw) (t : Tunnel ne nw) (sid : UInt32) : Prop :=
  ∀ s, (e.conn t).mux = some s → s.dead = true ∨ ¬ s.Live sid

theorem Off.not_misses (h : Off e t sid) : ¬ Misses e t sid := by
  rintro ⟨s, hs, hd, hc, -⟩
  rcases h s hs with h | h
  · simp [hd] at h
  · exact h hc.1

/-- Only an open leaves a stream without a route. -/
theorem misses_call (hi : Tables e) (hf : CanCall e t a) (ha : a ≠ .nextEvent)
    (hm : Misses (e.call t a) t' sid) :
    Misses e t' sid ∨ t' = t ∧ ∃ s, (e.conn t).mux = some s ∧ sid ∈ s.returned a := by
  obtain ⟨s, hs, hd, hc, hno⟩ := hm
  rw [call_routeOf] at hno
  obtain ⟨s₀, hs₀, rfl⟩ := (call_mux_eq_some e t a).1 hs
  have hsv := hi.served t' s₀ hs₀
  by_cases ht : t' = t
  · subst ht
    rw [if_pos rfl] at hd hc
    rcases hsv.carries_call ha (hf s₀ hs₀) hc with h | h
    · exact .inl ⟨s₀, hs₀, Session.call_alive hsv.wf hd, h, hno⟩
    · exact .inr ⟨rfl, s₀, hs₀, h⟩
  · rw [if_neg ht] at hd hc
    exact .inl ⟨s₀, hs₀, hd, hc, hno⟩

theorem misses_pop (hi : Tables e) {ev : Event} (hs : (e.conn t).mux = some s)
    (hfr : s.front = some ev) (hm : Misses (e.call t .nextEvent) t' sid) :
    Misses e t' sid ∨ t' = t ∧ ev.openedId = some sid := by
  obtain ⟨s', hs', hd, hc, hno⟩ := hm
  rw [call_routeOf] at hno
  obtain ⟨s₀, hs₀, rfl⟩ := (call_mux_eq_some e t _).1 hs'
  by_cases ht : t' = t
  · subst ht
    rw [hs, some_inj] at hs₀
    subst hs₀
    rw [if_pos rfl] at hd hc
    rcases Served.carries_front hfr hc with h | h
    · exact .inl ⟨s, hs, Session.call_alive (hi.served t' s hs).wf hd, h, hno⟩
    · exact .inr ⟨rfl, h⟩
  · rw [if_neg ht] at hd hc
    exact .inl ⟨s₀, hs₀, hd, hc, hno⟩

theorem Off.call (hi : Tables e) (h : Off e t' sid) (hp : e.routeOf (t', sid) = some p)
    (hf : CanCall e t a) : Off (e.call t a) t' sid := by
  intro s hs
  obtain ⟨s₀, hs₀, rfl⟩ := (call_mux_eq_some e t a).1 hs
  by_cases ht : t' = t
  · subst ht
    rw [if_pos rfl]
    have hsv := hi.served t' s₀ hs₀
    obtain ⟨s₁, hs₁, hb⟩ := hi.born hp
    rw [hs₀, some_inj] at hs₁
    subst hs₁
    rcases h s₀ hs₀ with hd | hl
    · exact .inl (by rw [Session.call_dead hd]; exact hd)
    · exact .inr fun hl' => hl (hsv.live_before (hf s₀ hs₀) hl' hb)
  · rw [if_neg ht]
    exact h s₀ hs₀

theorem off_reset (hi : Tables e) (t sid code) : Off (e.call t (.reset sid code)) t sid := by
  intro s hs
  obtain ⟨s₀, hs₀, rfl⟩ := (call_mux_eq_some e t _).1 hs
  rw [if_pos rfl]
  exact (hi.served t s₀ hs₀).reset_gone sid code

/-! ### Half-closed routes -/

/-- The router was told that the peer has closed the stream. -/
def Told (e : Router ne nw) (t : Tunnel ne nw) (sid : UInt32) : Prop :=
  ∃ s, (e.conn t).mux = some s ∧ .closed sid ∈ s.popped

/-- The router has closed its side of the stream. -/
def Shut (e : Router ne nw) (t : Tunnel ne nw) (sid : UInt32) : Prop :=
  ∀ s, (e.conn t).mux = some s → s.dead = true ∨ s.Closing sid

def Fins (e : Router ne nw) : Prop := ∀ p r, e.heap p = some r → ∀ d, r.fin d = true →
  Told e (r.tunnel d) (r.sid d) ∧ Shut e (r.tunnel d.other) (r.sid d.other)

theorem Told.call (hi : Tables e) (h : Told e t' sid) : Told (e.call t a) t' sid := by
  obtain ⟨s₀, hs₀, hm⟩ := h
  refine ⟨_, (call_mux_eq_some e t a).2 ⟨s₀, hs₀, rfl⟩, ?_⟩
  split
  · exact ((hi.served t' s₀ hs₀).popped_call a).subset hm
  · exact hm

theorem Shut.call (hi : Tables e) (h : Shut e t' sid) (hp : e.routeOf (t', sid) = some p)
    (hf : CanCall e t a) : Shut (e.call t a) t' sid := by
  intro s hs
  obtain ⟨s₀, hs₀, rfl⟩ := (call_mux_eq_some e t a).1 hs
  by_cases ht : t' = t
  · subst ht
    rw [if_pos rfl]
    obtain ⟨s₁, hs₁, hb⟩ := hi.born hp
    rw [hs₀, some_inj] at hs₁
    subst hs₁
    rcases h s₀ hs₀ with hd | hc
    · exact .inl (by rw [Session.call_dead hd]; exact hd)
    · exact .inr ((hi.served t' s₀ hs₀).closing_call a (hf s₀ hs₀) hb hc)
  · rw [if_neg ht]
    exact h s₀ hs₀

theorem shut_close (hi : Tables e) (t sid) : Shut (e.call t (.close sid)) t sid := by
  intro s hs
  obtain ⟨s₀, hs₀, rfl⟩ := (call_mux_eq_some e t _).1 hs
  rw [if_pos rfl]
  exact (hi.served t s₀ hs₀).close_closing sid

theorem Told.off (hi : Tables e) (h : Told e t sid) (hs : Shut e t sid) : Off e t sid := by
  obtain ⟨s₀, hs₀, hm⟩ := h
  intro s hs'
  rw [hs₀, some_inj] at hs'
  subst hs'
  have hsv := hi.served t s₀ hs₀
  exact (hs s₀ hs₀).imp_right fun hc => hsv.not_live_of_closed (hsv.popped_mem hm) hc

theorem Fins.call (hi : Tables e) (h : Fins e) (hf : CanCall e t a) : Fins (e.call t a) := by
  intro p r hp d hd
  rw [call_heap] at hp
  obtain ⟨h1, h2⟩ := h p r hp d hd
  exact ⟨h1.call hi, h2.call hi (hi.index.reach p r hp d.other) hf⟩

/-! ### Calls -/

/-- Calls on the sessions, of which none opens a stream, processes frames or takes an event. -/
inductive Calls (e : Router ne nw) : Router ne nw → Prop
  | refl : Calls e e
  | call {e' : Router ne nw} (t : Tunnel ne nw) {a : Call} : Calls e e' → a.Quiet →
      (∀ m, a ≠ .open m) → Calls e (e'.call t a)

namespace Calls

theorem trans {e''} (h : Calls e e') (h' : Calls e' e'') : Calls e e'' := by
  induction h' with
  | refl => exact h
  | call t _ ha hm ih => exact ih.call t ha hm

theorem heap_eq (h : Calls e e') : e'.heap = e.heap := by
  induction h with
  | refl => rfl
  | call t _ _ _ ih => rw [call_heap, ih]

theorem next_eq (h : Calls e e') : e'.next = e.next := by
  induction h with
  | refl => rfl
  | call t _ _ _ ih => rw [call_next, ih]

theorem freed_eq (h : Calls e e') : e'.freed = e.freed := by
  induction h with
  | refl => rfl
  | call t _ _ _ ih => rw [call_freed, ih]

theorem routes_eq (h : Calls e e') (t) : (e'.conn t).routes = (e.conn t).routes := by
  induction h with
  | refl => rfl
  | call t _ _ _ ih => rw [call_routes, ih]

theorem routeOf_eq (h : Calls e e') : e'.routeOf = e.routeOf := by
  funext k
  rw [routeOf, routeOf, h.routes_eq]

theorem tables (h : Calls e e') (hi : Tables e) : Tables e' := by
  induction h with
  | refl => exact hi
  | call t _ _ hm ih => exact ih.call (ih.can_call t hm)

theorem off (h : Calls e e') (hi : Tables e) (ho : Off e t sid) (hp : e.routeOf (t, sid) = some p) :
    Off e' t sid := by
  induction h with
  | refl => exact ho
  | call t₀ hc _ hm ih =>
    exact ih.call (hc.tables hi) (hc.routeOf_eq ▸ hp) ((hc.tables hi).can_call t₀ hm)

theorem told (h : Calls e e') (hi : Tables e) (ht : Told e t sid) : Told e' t sid := by
  induction h with
  | refl => exact ht
  | call t₀ hc _ _ ih => exact ih.call (hc.tables hi)

end Calls

/-! ### Routes that change, start and end -/

theorem Tables.lt_next (hi : Tables e) (hp : e.heap p = some r) : p < e.next := by
  by_contra hle
  simp [hi.fresh p (Nat.not_lt.1 hle)] at hp

@[simp] theorem setRoute_self (e : Router ne nw) (p : ℕ) (r) :
    (e.setRoute p r).heap p = some r := update_self ..

theorem setRoute_of_ne {q : ℕ} (h : q ≠ p) (e : Router ne nw) (r) :
    (e.setRoute p r).heap q = e.heap q := update_of_ne h ..

theorem Tables.setRoute (hi : Tables e) (hp : e.heap p = some r) (hk : ∀ d, r'.key d = r.key d) :
    Tables (e.setRoute p r') := by
  refine ⟨hi.index.set hp hk, fun q hq => ?_, hi.served, hi.ids, hi.inflight, fun j => ?_⟩
  · have hlt := hi.lt_next hp
    have hq : e.next ≤ q := hq
    exact (setRoute_of_ne (by omega) e r').trans (hi.fresh q hq)
  · have hw : r'.workerIdx = r.workerIdx := by
      have := congrArg Prod.fst (hk .down)
      simpa [Route.key, Route.tunnel] using this
    have := total_update (onWorker j) e.heap (hi.lt_next hp) (some r')
    simp only [hp, map_some, getD_some, onWorker, hw] at this
    exact (Nat.add_right_cancel this).trans (hi.count j)

theorem Fins.setRoute (h : Fins e)
    (hr : ∀ d, r'.fin d = true → Told e (r'.tunnel d) (r'.sid d)
      ∧ Shut e (r'.tunnel d.other) (r'.sid d.other)) : Fins (e.setRoute p r') := by
  intro q x hq d hd
  by_cases hqp : q = p
  · subst hqp
    rw [setRoute_self, some_inj] at hq
    exact hq ▸ hr d (hq ▸ hd)
  · rw [setRoute_of_ne hqp] at hq
    exact h q x hq d hd

section Free

variable (e)

theorem routeFree_heap (hp : e.heap p = some r) :
    (e.routeFree p).heap = update e.heap p none := by
  rw [routeFree, hp]
  rfl

theorem routeFree_next : (e.routeFree p).next = e.next := by
  unfold routeFree
  split <;> rfl

theorem routeFree_field {α : Type*} (φ : EpConn → α)
    (h : ∀ (c : EpConn) m n, φ { c with routes := m, inflight := n } = φ c) (t : Tunnel ne nw) :
    φ ((e.routeFree p).conn t) = φ (e.conn t) := by
  unfold routeFree
  split
  · rfl
  · rw [modify_field _ _ _ φ (h _ _ _), modify_field _ _ _ φ (h _ _ _)]

theorem routeFree_mux (t : Tunnel ne nw) : ((e.routeFree p).conn t).mux = (e.conn t).mux :=
  routeFree_field e mux (fun _ _ _ => rfl) t

theorem routeFree_edge (hp : e.heap p = some r) (i) :
    ((e.routeFree p).conn (.edge i)).routes = if i = r.edgeIdx
      then (e.conn (.edge i)).routes.erase r.upSid else (e.conn (.edge i)).routes := by
  rw [routeFree, hp]
  rw [modify_of_ne _ _ _ (by simp)]
  split
  · rename_i h
    rw [h, modify_self]
  · rename_i h
    rw [modify_of_ne _ _ _ (by simpa using h)]

theorem routeFree_worker (hp : e.heap p = some r) (j) :
    ((e.routeFree p).conn (.worker j)).routes = (if j = r.workerIdx
      then (e.conn (.worker j)).routes.erase r.downSid else (e.conn (.worker j)).routes)
    ∧ ((e.routeFree p).conn (.worker j)).inflight = if j = r.workerIdx
      then if (e.conn (.worker j)).inflight ≠ 0 then (e.conn (.worker j)).inflight - 1
        else (e.conn (.worker j)).inflight
      else (e.conn (.worker j)).inflight := by
  rw [routeFree, hp]
  dsimp only
  split
  · rename_i h
    rw [h, modify_self, modify_of_ne _ _ _ (by simp)]
    exact ⟨rfl, rfl⟩
  · rename_i h
    rw [modify_of_ne _ _ _ (by simpa using h), modify_of_ne _ _ _ (by simp)]
    exact ⟨rfl, rfl⟩

theorem routeFree_routeOf_self (hp : e.heap p = some r) (d) :
    (e.routeFree p).routeOf (r.key d) = none := by
  cases d with
  | up => simp [routeOf, Route.key, Route.tunnel, Route.sid, routeFree_edge e hp]
  | down => simp [routeOf, Route.key, Route.tunnel, Route.sid, (routeFree_worker e hp _).1]

theorem routeFree_routeOf_of_ne (hp : e.heap p = some r) {k} (hk : ∀ d, r.key d ≠ k) :
    (e.routeFree p).routeOf k = e.routeOf k := by
  obtain ⟨t, x⟩ := k
  cases t with
  | edge i =>
    rw [routeOf, routeOf]
    dsimp only
    rw [routeFree_edge e hp]
    split
    · rename_i h
      refine AList.lookup_erase_ne fun hx => hk .up ?_
      rw [Route.key, Route.tunnel, Route.sid, h, hx]
    · rfl
  | worker j =>
    rw [routeOf, routeOf]
    dsimp only
    rw [(routeFree_worker e hp j).1]
    split
    · rename_i h
      refine AList.lookup_erase_ne fun hx => hk .down ?_
      rw [Route.key, Route.tunnel, Route.sid, h, hx]
    · rfl

end Free

/-- A route that is freed is in no table. -/
theorem Tables.free (hi : Tables e) (hp : e.heap p = some r) : Tables (e.routeFree p) := by
  refine ⟨?_, fun q hq => ?_, fun t s hs => ?_, fun t sid q hq => ?_, fun j => ?_, fun j => ?_⟩
  · rw [routeFree_heap e hp]
    exact hi.index.erase hp (routeFree_routeOf_self e hp) fun k hk =>
      routeFree_routeOf_of_ne e hp hk
  · rw [routeFree_next] at hq
    rw [routeFree_heap e hp, update_of_ne (by have := hi.lt_next hp; omega)]
    exact hi.fresh q hq
  · rw [routeFree_mux] at hs
    exact hi.served t s hs
  · rw [routeFree_mux]
    refine hi.ids t sid q ?_
    by_cases hk : ∃ d, r.key d = (t, sid)
    · obtain ⟨d, hk⟩ := hk
      rw [← hk, routeFree_routeOf_self e hp] at hq
      cases hq
    · rwa [routeFree_routeOf_of_ne e hp fun d hd => hk ⟨d, hd⟩] at hq
  · obtain ⟨h1, h2⟩ := routeFree_worker e hp j
    rw [h1, h2]
    have hlen := hi.inflight j
    split
    · rename_i hj
      have hmem : r.downSid ∈ (e.conn (.worker j)).routes := by
        have := hi.index.reach p r hp .down
        rw [← AList.lookup_isSome, hj]
        exact isSome_iff_exists.2 ⟨p, this⟩
      rw [AList.keys_erase, length_erase_of_mem (AList.mem_keys.1 hmem)]
      have hpos := length_pos_of_mem (AList.mem_keys.1 hmem)
      have hne : (e.conn (.worker j)).inflight ≠ 0 := by
        intro h0
        rw [h0] at hlen
        simp at hlen
        omega
      rw [if_pos hne, UInt32.toNat_sub_of_le _ _ ?_, hlen]
      · rfl
      · rw [UInt32.le_iff_toNat_le, hlen]
        exact hpos
    · exact hlen
  · have htot := total_update (onWorker j) e.heap (hi.lt_next hp) none
    have hcount := hi.count j
    obtain ⟨h1, -⟩ := routeFree_worker e hp j
    rw [h1, routeFree_heap e hp, routeFree_next]
    simp only [hp, map_some, getD_some, map_none, getD_none, Nat.add_zero, onWorker] at htot
    split
    · rename_i hj
      have hmem : r.downSid ∈ (e.conn (.worker j)).routes := by
        have := hi.index.reach p r hp .down
        rw [← AList.lookup_isSome, hj]
        exact isSome_iff_exists.2 ⟨p, this⟩
      rw [AList.keys_erase, length_erase_of_mem (AList.mem_keys.1 hmem)]
      rw [if_pos hj.symm] at htot
      omega
    · rename_i hj
      rw [if_neg (Ne.symm hj), Nat.add_zero] at htot
      exact htot.trans hcount

theorem misses_free (hp : e.heap p = some r) (hm : Misses (e.routeFree p) t sid) :
    Misses e t sid ∨ ∃ d, r.key d = (t, sid) := by
  obtain ⟨s, hs, hd, hc, hno⟩ := hm
  rw [routeFree_mux] at hs
  by_cases hk : ∃ d, r.key d = (t, sid)
  · exact .inr hk
  · rw [routeFree_routeOf_of_ne e hp fun d hd => hk ⟨d, hd⟩] at hno
    exact .inl ⟨s, hs, hd, hc, hno⟩

section New

variable (e) (i : Fin ne) (j : Fin nw) (sid ds : UInt32)

theorem routeNew_field {α : Type*} (φ : EpConn → α)
    (h : ∀ (c : EpConn) m n, φ { c with routes := m, inflight := n } = φ c) (t : Tunnel ne nw) :
    φ ((e.routeNew i sid j ds).conn t) = φ (e.conn t) := by
  unfold routeNew
  rw [modify_field _ _ _ φ (h _ _ _), modify_field _ _ _ φ (h _ _ _)]

theorem routeNew_mux (t : Tunnel ne nw) :
    ((e.routeNew i sid j ds).conn t).mux = (e.conn t).mux :=
  routeNew_field e i j sid ds mux (fun _ _ _ => rfl) t

theorem routeNew_edge (i') : ((e.routeNew i sid j ds).conn (.edge i')).routes = if i' = i
      then (e.conn (.edge i')).routes.insert sid e.next else (e.conn (.edge i')).routes := by
  unfold routeNew
  rw [modify_of_ne _ _ _ (by simp)]
  split
  · rename_i h
    rw [h, modify_self]
  · rename_i h
    rw [modify_of_ne _ _ _ (by simpa using h)]

theorem routeNew_worker (j') : ((e.routeNew i sid j ds).conn (.worker j')).routes = (if j' = j
      then (e.conn (.worker j')).routes.insert ds e.next else (e.conn (.worker j')).routes)
    ∧ ((e.routeNew i sid j ds).conn (.worker j')).inflight = if j' = j
      then (e.conn (.worker j')).inflight + 1 else (e.conn (.worker j')).inflight := by
  unfold routeNew
  split
  · rename_i h
    rw [h, modify_self, modify_of_ne _ _ _ (by simp)]
    exact ⟨rfl, rfl⟩
  · rename_i h
    rw [modify_of_ne _ _ _ (by simpa using h), modify_of_ne _ _ _ (by simp)]
    exact ⟨rfl, rfl⟩

/-- The route that `route_new` allocates. -/
def newRoute : Route ne nw := { edgeIdx := i, upSid := sid, workerIdx := j, downSid := ds }

theorem routeNew_heap :
    (e.routeNew i sid j ds).heap = update e.heap e.next (some (newRoute i j sid ds)) := rfl

theorem routeNew_next : (e.routeNew i sid j ds).next = e.next + 1 := rfl

theorem routeNew_routeOf_self (d) :
    (e.routeNew i sid j ds).routeOf ((newRoute i j sid ds).key d) = some e.next := by
  cases d with
  | up => simp [routeOf, newRoute, Route.key, Route.tunnel, Route.sid, routeNew_edge]
  | down => simp [routeOf, newRoute, Route.key, Route.tunnel, Route.sid, routeNew_worker]

theorem routeNew_routeOf_of_ne {k} (hk : ∀ d, (newRoute i j sid ds).key d ≠ k) :
    (e.routeNew i sid j ds).routeOf k = e.routeOf k := by
  obtain ⟨t, x⟩ := k
  cases t with
  | edge i' =>
    rw [routeOf, routeOf]
    dsimp only
    rw [routeNew_edge]
    split
    · rename_i h
      refine AList.lookup_insert_ne fun hx => hk .up ?_
      rw [newRoute, Route.key, Route.tunnel, Route.sid, h, hx]
    · rfl
  | worker j' =>
    rw [routeOf, routeOf]
    dsimp only
    rw [(routeNew_worker e i j sid ds j').1]
    split
    · rename_i h
      refine AList.lookup_insert_ne fun hx => hk .down ?_
      rw [newRoute, Route.key, Route.tunnel, Route.sid, h, hx]
    · rfl

end New

theorem Tables.length_keys_lt (hi : Tables e) (j) :
    (e.conn (.worker j)).routes.keys.length < 2 ^ 31 := by
  rcases hm : (e.conn (.worker j)).mux with _ | s
  · have hnil : (e.conn (.worker j)).routes.keys = [] := by
      refine eq_nil_iff_forall_not_mem.2 fun x hx => ?_
      obtain ⟨p, hp⟩ := isSome_iff_exists.1 (AList.lookup_isSome.2 (AList.mem_keys.2 hx))
      obtain ⟨s, hs, -⟩ := hi.ids (.worker j) x p hp
      simp [hm] at hs
    rw [hnil]
    decide
  · have hsub : (e.conn (.worker j)).routes.keys ⊆ synIds s.sent := by
      intro x hx
      obtain ⟨p, hp⟩ := isSome_iff_exists.1 (AList.lookup_isSome.2 (AList.mem_keys.2 hx))
      obtain ⟨s', hs', hx'⟩ := hi.ids (.worker j) x p hp
      rw [hm, some_inj] at hs'
      exact hs' ▸ hx'
    have hle := ((AList.keys_nodup _).subperm hsub).length_le
    exact Nat.lt_of_le_of_lt hle (hi.served _ s hm).few

/-- A new route is entered on both sides. -/
theorem Tables.new (hi : Tables e) {i j sid ds} {w : Session} (hs : (e.conn (.edge i)).mux = some s)
    (hup : sid ∈ openedIds s.popped) (hno : e.routeOf (.edge i, sid) = none)
    (hw : (e.conn (.worker j)).mux = some w) (hdown : ds ∈ synIds w.sent)
    (hno' : e.routeOf (.worker j, ds) = none) : Tables (e.routeNew i sid j ds) := by
  have hkeys : ∀ d, e.routeOf ((newRoute i j sid ds).key d) = none := by
    intro d
    cases d with
    | up => exact hno
    | down => exact hno'
  refine ⟨?_, fun q hq => ?_, fun t s hs => ?_, fun t x q hq => ?_, fun j' => ?_, fun j' => ?_⟩
  · exact hi.index.insert (hi.fresh _ (Nat.le_refl _)) hkeys
      (routeNew_routeOf_self e i j sid ds) fun k hk => routeNew_routeOf_of_ne e i j sid ds hk
  · rw [routeNew_next] at hq
    rw [routeNew_heap, update_of_ne (by omega)]
    exact hi.fresh q (by omega)
  · rw [routeNew_mux] at hs
    exact hi.served t s hs
  · rw [routeNew_mux]
    by_cases hk : ∃ d, (newRoute i j sid ds).key d = (t, x)
    · obtain ⟨d, hk⟩ := hk
      cases d with
      | up =>
        obtain ⟨rfl, rfl⟩ := Prod.mk.inj hk
        exact ⟨s, hs, hup⟩
      | down =>
        obtain ⟨rfl, rfl⟩ := Prod.mk.inj hk
        exact ⟨w, hw, hdown⟩
    · rw [routeNew_routeOf_of_ne e i j sid ds fun d hd => hk ⟨d, hd⟩] at hq
      exact hi.ids t x q hq
  · obtain ⟨h1, h2⟩ := routeNew_worker e i j sid ds j'
    rw [h1, h2]
    have hlen := hi.inflight j'
    have hlt := hi.length_keys_lt j'
    split
    · rename_i hj
      have hmem : ds ∉ (e.conn (.worker j')).routes := hj ▸ AList.lookup_eq_none.1 hno'
      rw [AList.keys_insert, length_cons,
        erase_of_not_mem fun h => hmem (AList.mem_keys.2 h), UInt32.toNat_add, hlen]
      exact Nat.mod_eq_of_lt (by change _ + 1 < 2 ^ 32; omega)
    · exact hlen
  · obtain ⟨h1, -⟩ := routeNew_worker e i j sid ds j'
    have hcount := hi.count j'
    rw [h1, routeNew_heap, routeNew_next, total_succ, total_update_of_le _ (Nat.le_refl _),
      update_self, hcount]
    simp only [map_some, getD_some, onWorker, newRoute]
    split
    · rename_i hj
      have hmem : ds ∉ (e.conn (.worker j')).routes := hj ▸ AList.lookup_eq_none.1 hno'
      rw [if_pos hj.symm, AList.keys_insert, length_cons,
        erase_of_not_mem fun h => hmem (AList.mem_keys.2 h)]
    · rename_i hj
      rw [if_neg (Ne.symm hj), Nat.add_zero]

theorem misses_new {i j ds} (hm : Misses (e.routeNew i sid j ds) t sid') :
    Misses e t sid' ∧ ∀ d, (newRoute i j sid ds).key d ≠ (t, sid') := by
  obtain ⟨s, hs, hd, hc, hno⟩ := hm
  have hk : ∀ d, (newRoute i j sid ds).key d ≠ (t, sid') := fun d hk => by
    rw [← hk, routeNew_routeOf_self] at hno
    cases hno
  rw [routeNew_mux] at hs
  rw [routeNew_routeOf_of_ne e i j sid ds hk] at hno
  exact ⟨⟨s, hs, hd, hc, hno⟩, hk⟩

theorem Fins.new (h : Fins e) {i j ds} : Fins (e.routeNew i sid j ds) := by
  intro q x hq d hd
  rw [routeNew_heap] at hq
  by_cases hqn : q = e.next
  · subst hqn
    rw [update_self, some_inj] at hq
    subst hq
    cases d <;> cases hd
  · rw [update_of_ne hqn] at hq
    obtain ⟨⟨s, hs, hm⟩, h2⟩ := h q x hq d hd
    exact ⟨⟨s, by rwa [routeNew_mux], hm⟩, fun s hs => h2 s (by rwa [routeNew_mux] at hs)⟩

end Router

end MuxProtocol
