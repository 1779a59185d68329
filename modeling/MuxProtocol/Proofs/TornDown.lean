import MuxProtocol.Proofs.Credit
import MuxProtocol.Proofs.Keepalive
import MuxProtocol.Proofs.Loops
import MuxProtocol.Proofs.ReadLoops

/-!
# Dead sessions

The main loops learn that a session is dead from a read or a write that fails, not from FATAL. So a
tunnel from whose session FATAL was taken is torn down in an iteration exactly if the answers that
follow give it away: there is more to read, be it the end of the stream, or a write fails. Nothing
follows the timer of libpeer, nor a poll that is interrupted.
-/

namespace MuxProtocol

open Machine Relation List Option

theorem any_isFatal_eq_false {m : Option Session} :
    (m.map Session.popped).any (fun l => l.any Event.isFatal) = false
      ↔ ∀ s, m = some s → ∀ code, .fatal code ∉ s.popped := by
  rcases m with _ | s
  · simp
  simp only [Option.map_some, Option.any_some, List.any_eq_false, Option.some_inj, forall_eq']
  constructor
  · intro h code hm
    exact h _ hm rfl
  · intro h ev hev
    cases ev with
    | fatal code => exact absurd hev (h code)
    | _ => simp [Event.isFatal]

theorem dead_of_any_isFatal {m : Option Session} (hm : ∀ s, m = some s → s.Silent)
    (h : (m.map Session.popped).any (fun l => l.any Event.isFatal) = true) :
    ∃ s, m = some s ∧ s.dead = true := by
  by_contra hno
  rw [any_isFatal_eq_false.2 fun s hs code hp => hno ⟨s, hs, (hm s hs).dead hp⟩] at h
  cases h

theorem Further.told {a b : Option (List Event)} (h : Further a b)
    (ha : a.any (fun l => l.any Event.isFatal) = true) :
    b.any (fun l => l.any Event.isFatal) = true := by
  cases h with
  | none => exact ha
  | some h =>
    simp only [Option.any_some, List.any_eq_true] at ha ⊢
    obtain ⟨ev, hev, hf⟩ := ha
    exact ⟨ev, h.subset hev, hf⟩

/-! ### Answers that give a dead session away -/

/-- What is left to be sent when a flush of `n` bytes stops, unless a write fails. -/
def sentOut : List WriteAnswer → ℕ → Option ℕ
  | [], n => some n
  | a :: as, n =>
    if n = 0 then some n
    else
      match a with
      | .wrote k => if k = 0 then none else sentOut as (n - k)
      | .again => some n
      | .error => none

/-- The bytes that a session has to send. -/
def toSend (m : Option Session) : ℕ := (m.map muxOutPending).getD 0

theorem muxOutPending_sendAdvance (s : Session) (n : ℕ) :
    muxOutPending (s.call (.sendAdvance n)) = muxOutPending s - n := by
  unfold Session.call muxSendAdvance muxOutPending
  dsimp only
  split
  · simp only [length_nil]
    omega
  · dsimp only
    omega

/-- There is something to read, or the receive buffer is full. -/
def brings (recv : Bytes) (reads : List ReadAnswer) : Bool :=
  decide (recvCap ≤ recv.length) || reads.head?.any (· ≠ .again)

namespace ReadHost

variable {σ : Type} (h : ReadHost σ) {x : σ}

/-- What the drain leaves that makes room, with whether there is more to read. -/
def roomDrain (more : Bool) (x : σ) : List (σ × Bool) :=
  if (h.recv x).length < recvCap then []
  else
    match h.pump x with
    | (_, .error _) => []
    | (y, .ok 0) => [(y, false)]
    | (y, .ok _) => [(y, more)]

/-- The state in which the loop begins and those that its drains leave, each with whether there is
more to read. -/
def drains : List ReadAnswer → σ → List (σ × Bool)
  | [], x => (x, brings (h.recv x) []) :: h.roomDrain false x
  | a :: as, x =>
    (x, brings (h.recv x) (a :: as)) :: (h.roomDrain (a ≠ .again) x ++
      match h.makeRoom x with
      | (_, some _) => []
      | (y, none) =>
        match a with
        | .bytes b =>
          let space := recvCap - (h.recv y).length
          let b := b.take space
          if b = [] then []
          else
            match h.pump (h.stash y b) with
            | (_, .error _) => []
            | (z, .ok _) => if b.length < space then [(z, false)] else drains as z
        | .eof | .again | .error => [])

/-- What a turn of the tunnel leaves, unless a read or a write fails. -/
def turn (fd : σ → Bool) (flush : σ → σ × Bool) (readable writable : Bool) (as : List ReadAnswer)
    (x : σ) : Option σ :=
  match if readable then h.readLoop as x else (x, true) with
  | (_, false) => none
  | (x, true) =>
    match if fd x && writable then flush x else (x, true) with
    | (_, false) => none
    | (x, true) => some x

/-- Wherever FATAL has been taken from the session in the turn, the answers that follow give it
away: there is more to read, or the tunnel is writable and a write fails. -/
def GivesAway (told : σ → Bool) (readable writable : Bool) (as : List ReadAnswer)
    (ws : List WriteAnswer) (x : σ) : Prop :=
  ∀ p ∈ if readable then h.drains as x else [(x, false)], told p.1 = true →
    p.2 = true ∨ writable = true ∧ sentOut ws (toSend (h.mux p.1)) = none

instance (told readable writable as ws x) :
    Decidable (h.GivesAway told readable writable as ws x) :=
  inferInstanceAs (Decidable (∀ p ∈ ite .., _ → _ ∨ _))

theorem roomDrain_iff {P : σ → Bool → Prop} (hx : ∀ more, P x more) (more : Bool) :
    (∀ p ∈ h.roomDrain more x, P p.1 p.2)
      ↔ ((h.makeRoom x).2 = some true → P (h.makeRoom x).1 false)
        ∧ ((h.makeRoom x).2 = none → P (h.makeRoom x).1 more) := by
  unfold roomDrain Reader.makeRoom
  split_ifs
  · simp [hx]
  · rcases h.pump x with ⟨y, e | _ | n⟩ <;> simp

/-- Without a session that takes it, nothing of what is read is drained. -/
theorem drains_single (hp : ∀ y, h.mux y = h.mux x → ∃ e, (h.pump y).2 = .error e) (as) :
    h.drains as x = [(x, brings (h.recv x) as)] := by
  have hroom : ∀ more, h.roomDrain more x = [] := by
    intro more
    obtain ⟨e, he⟩ := hp x rfl
    unfold roomDrain
    rw [show h.pump x = ((h.pump x).1, .error e) from Prod.ext rfl he, ite_self]
  cases as with
  | nil => rw [drains, hroom]
  | cons a as =>
    rw [drains, hroom, nil_append]
    congr 1
    unfold Reader.makeRoom
    split_ifs
    · cases a with
      | bytes b =>
        obtain ⟨e, he⟩ := hp _ (h.stash_mux x (b.take (recvCap - (h.recv x).length)))
        dsimp only
        rw [show h.pump (h.stash x _) = ((h.pump (h.stash x _)).1, .error e) from Prod.ext rfl he,
          ite_self]
      | _ => rfl
    · obtain ⟨e, he⟩ := hp x rfl
      rw [show h.pump x = ((h.pump x).1, .error e) from Prod.ext rfl he]

theorem givesAway_of_none {T : σ → Bool} {readable writable : Bool} {as ws} (hn : h.mux x = none)
    (hT : T x = false) : h.GivesAway T readable writable as ws x := by
  intro p hp htold
  rw [h.drains_single fun y hy => h.pump_none y (hy.trans hn)] at hp
  obtain rfl : p.1 = x := by
    split_ifs at hp
    all_goals rw [mem_singleton.1 hp]
  simp [hT] at htold

/-- `mux_recv` refuses what is read for a dead session, so the loop fails unless nothing is read. -/
theorem readLoop_dead {s : Session} (hs : h.mux x = some s) (hd : s.dead = true) (as) :
    h.drains as x = [(x, brings (h.recv x) as)]
      ∧ (brings (h.recv x) as = true → (h.readLoop as x).2 = false)
      ∧ (brings (h.recv x) as = false → h.readLoop as x = (x, true)) := by
  have hpump : ∀ y, h.mux y = h.mux x → (h.pump y).2 = .error .state := fun y hy => by
    rw [h.pump_snd y s (hy.trans hs), muxRecv, if_pos hd]
  refine ⟨h.drains_single (fun y hy => ⟨_, hpump y hy⟩) as, ?_⟩
  by_cases hf : recvCap ≤ (h.recv x).length
  · exact ⟨fun _ => h.readLoop_error hf (hpump x rfl), fun hno => by simp [brings, hf] at hno⟩
  have hroom : h.makeRoom x = (x, none) := if_pos (Nat.not_le.1 hf)
  rcases as with _ | ⟨a, as⟩
  · exact ⟨fun hb => by simp [brings, hf] at hb, fun _ => by rw [Reader.readLoop, hroom]⟩
  by_cases ha : a = .again
  · exact ⟨fun hb => by simp [brings, hf, ha] at hb, fun _ => by rw [ha, Reader.readLoop, hroom]⟩
  refine ⟨fun _ => ?_, fun hno => by simp [brings, ha] at hno⟩
  rw [Reader.readLoop, hroom]
  cases a with
  | bytes b =>
    dsimp only
    split
    · rfl
    · have hp := hpump _ (h.stash_mux x (b.take (recvCap - (h.recv x).length)))
      rw [show h.pump (h.stash x _) = ((h.pump (h.stash x _)).1, .error .state) from
        Prod.ext rfl hp]
  | again => exact absurd rfl ha
  | eof | error => rfl

section Told

variable {I W : σ → Prop} {T : σ → Bool}
  (hdead : ∀ x, I x → T x = true → ∃ s, h.mux x = some s ∧ s.dead = true)
include hdead

theorem drains_iff_of_told (hI : I x) (htold : T x = true) (as) :
    (∀ p ∈ h.drains as x, T p.1 = true → p.2 = true ∨ W p.1)
      ↔ ((h.readLoop as x).2 = true → T (h.readLoop as x).1 = true → W (h.readLoop as x).1) := by
  obtain ⟨s, hs, hd⟩ := hdead x hI htold
  obtain ⟨h1, h2, h3⟩ := h.readLoop_dead hs hd as
  rw [h1]
  rcases hb : brings (h.recv x) as
  · simp [h3 hb, htold]
  · simp [h2 hb]

variable (hstash : ∀ x b, I x → I (h.stash x b)) (hpump : ∀ x, I x → I (h.pump x).1)
include hstash hpump

/-- The loop has not failed although FATAL was taken only if nothing was left to read when it
was. -/
theorem drains_iff (hI : I x) (as : List ReadAnswer) :
    (∀ p ∈ h.drains as x, T p.1 = true → p.2 = true ∨ W p.1)
      ↔ ((h.readLoop as x).2 = true → T (h.readLoop as x).1 = true → W (h.readLoop as x).1) := by
  induction as generalizing x with
  | nil =>
    rcases htold : T x
    swap
    · exact h.drains_iff_of_told hdead hI htold []
    have hroom := h.roomDrain_iff (P := fun y more => T y = true → more = true ∨ W y)
      (x := x) (by simp [htold])
    rw [drains, forall_mem_cons, hroom]
    unfold Reader.readLoop
    rcases h.makeRoom x with ⟨y, _ | _ | _⟩ <;> simp [htold]
  | cons a as ih =>
    rcases htold : T x
    swap
    · exact h.drains_iff_of_told hdead hI htold (a :: as)
    have hroom := h.roomDrain_iff (P := fun y more => T y = true → more = true ∨ W y)
      (x := x) (by simp [htold])
    have hI' : I (h.makeRoom x).1 := by
      have hp := hpump x hI
      unfold Reader.makeRoom
      split_ifs
      · exact hI
      · generalize h.pump x = res at hp
        obtain ⟨y, e | _ | n⟩ := res <;> exact hp
    rw [drains, forall_mem_cons, forall_mem_append, hroom]
    unfold Reader.readLoop
    rcases hm : h.makeRoom x with ⟨y, _ | _ | _⟩
    · rw [hm] at hI'
      cases a with
      | bytes b =>
        dsimp only
        have hp := hpump _ (hstash y (b.take (recvCap - (h.recv y).length)) hI')
        generalize h.pump (h.stash y (b.take (recvCap - (h.recv y).length))) = res at hp
        obtain ⟨z, e | n⟩ := res
        · split_ifs <;> simp [htold]
        · split_ifs
          · simp [htold]
          · simp [htold]
          · dsimp only
            rw [← ih hp]
            simp [htold]
      | _ => simp [htold]
    · simp [htold]
    · simp [htold]

/-- A turn fails, or FATAL was not taken, exactly if its answers give away where FATAL was taken. -/
theorem givesAway_iff (fd : σ → Bool) (flush : σ → σ × Bool) (readable writable : Bool) (as) {ws}
    (hI : I x) (hfd : ∀ x, I x → h.mux x ≠ none → fd x = true)
    (hflush : ∀ {x s}, h.mux x = some s → (flush x).2 = (sentOut ws (muxOutPending s)).isSome)
    (hT : ∀ x, T (flush x).1 = T x) : h.GivesAway T readable writable as ws x
      ↔ ∀ y ∈ h.turn fd flush readable writable as x, T y = false := by
  have hread : h.GivesAway T readable writable as ws x
      ↔ ((if readable = true then h.readLoop as x else (x, true)).2 = true →
        T (if readable = true then h.readLoop as x else (x, true)).1 = true → writable = true
          ∧ sentOut ws (toSend (h.mux
            (if readable = true then h.readLoop as x else (x, true)).1)) = none) := by
    unfold GivesAway
    cases readable with
    | false => simp
    | true =>
      exact h.drains_iff (W := fun x => writable = true ∧ sentOut ws (toSend (h.mux x)) = none)
        hdead hstash hpump hI as
  have hI' : I (if readable = true then h.readLoop as x else (x, true)).1 := by
    split
    · exact Reader.readLoop_rel (R := fun x y => I x → I y) (fun _ => id) (fun f g => g ∘ f)
        hstash hpump as x hI
    · exact hI
  rw [hread]
  unfold turn
  generalize (if readable = true then h.readLoop as x else (x, true)) = res at hI'
  obtain ⟨y, _ | _⟩ := res
  · simp
  have hTy := hT y
  rcases htold : T y
  · refine iff_of_true (by simp) ?_
    dsimp only
    split_ifs
    · rcases hx : flush y with ⟨z, _ | _⟩
      · simp
      · rw [hx] at hTy
        simpa using hTy.trans htold
    · simpa using htold
  obtain ⟨s, hs, -⟩ := hdead y hI' htold
  dsimp only
  rw [hfd y hI' (by simp [hs]), Bool.true_and, toSend, hs, map_some, getD_some,
    ← not_isSome_iff_eq_none, ← hflush hs]
  rcases hx : flush y with ⟨z, ok⟩
  rw [hx] at hTy
  cases writable <;> cases ok <;> simp [htold, hTy]

end Told

end ReadHost

/-- Whether the loop that sends fails is a matter of the answers and of what there is to send. -/
theorem sendLoop_snd {σ : Type} {mux : σ → Option Session} {advance : σ → ℕ → σ}
    (hadv : ∀ x n, mux (advance x n) = (mux x).map (·.call (.sendAdvance n))) :
    ∀ (as : List WriteAnswer) {x : σ} {s : Session}, mux x = some s →
      (sendLoop mux advance as x).2 = (sentOut as (muxOutPending s)).isSome
  | [], _, _, _ => rfl
  | a :: as, x, s, hs => by
    unfold sendLoop sentOut
    rw [hs]
    dsimp only
    split
    · rfl
    · cases a with
      | wrote n =>
        dsimp only
        split
        · rfl
        · rw [← muxOutPending_sendAdvance]
          exact sendLoop_snd hadv as (by rw [hadv, hs]; rfl)
      | again | error => rfl

/-- `mux_on_timer` leaves the session alive: no PING is overdue, and one that is due has room. -/
def Session.Outlasts (s : Session) (now : UInt64) : Prop :=
  s.dead = false ∧ (s.heartbeatMs ≠ 0 → s.timerStarted = true →
    ¬ Expired s now ∧ (now ≥ s.pingDueMs → s.HasRoom (muxHeaderSize + 8)))

instance (s : Session) (now) : Decidable (s.Outlasts now) := by
  unfold Session.Outlasts Expired
  infer_instance

theorem outlasts_iff {s : Session} {now : UInt64} :
    s.Outlasts now ↔ (muxOnTimer s now).1.dead = false := by
  unfold Session.Outlasts
  rcases hd : s.dead
  swap
  · simp [muxOnTimer, hd]
  by_cases hb : s.heartbeatMs = 0
  · simp [muxOnTimer, hd, hb]
  rcases hs : s.timerStarted
  · simp [muxOnTimer, hd, hb, hs]
  by_cases he : Expired s now
  · simp [muxOnTimer_expired hd hb hs he, he, hb]
  by_cases ht : now ≥ s.pingDueMs
  swap
  · simp [muxOnTimer_early hd hb hs he ht, he, hd, ht]
  have he' := he
  unfold Expired at he'
  unfold muxOnTimer
  rw [if_neg (by simp [hd, hb]), if_neg (by simp [hs]), if_neg he', if_pos ht]
  simp only [ne_eq, hb, he, ht, not_false_eq_true, true_and, forall_const]
  generalize hn : bePut32 (s.pingNonce >>> 32).toUInt32 ++ bePut32 s.pingNonce.toUInt32 = nonce
  have h8 : nonce.length = 8 := by rw [← hn]; rfl
  by_cases hr : s.HasRoom (muxHeaderSize + 8)
  · have hemit : (emit s muxTPing 0 muxSidControl nonce).1.dead = s.dead :=
      (Session.HasRoom.emit (m := 0) (h8 ▸ hr)).1
    generalize emit s muxTPing 0 muxSidControl nonce = res at hemit
    obtain ⟨s', _ | _⟩ := res
    · simpa [hr, hd] using hemit
    · simpa [hr, hd] using hemit
  · unfold Session.HasRoom at hr
    unfold emit
    rw [h8]
    rcases ho : obReserve s.out (muxHeaderSize + 8) s.maxOutBuffer.toNat with ⟨out, e | ⟨⟩⟩
    · simp [Session.HasRoom, ho]
    · simp [ho] at hr

namespace Router

variable {ne nw : ℕ} {e e' e'' : Router ne nw} {t t' : Tunnel ne nw} {r : Route ne nw} {p : ℕ}
  {hmac : Hmac}

/-! ### The end of a tunnel -/

/-- A tunnel that was torn down and has no session yet. -/
structure Down (e : Router ne nw) (t : Tunnel ne nw) : Prop where
  mux : (e.conn t).mux = none
  ready : (e.conn t).ready = false
  routes : ∀ sid, e.find t sid = none

theorem Firm.down (h : Firm e) (ht : (e.conn t).mux = none) : Down e t := by
  obtain ⟨hready, hno⟩ := h.base.none ht
  refine ⟨ht, hready, fun sid => ?_⟩
  rw [find, show (e.conn t).routes.lookup sid = none from hno sid]
  rfl

/-- Among the changes from `e` to `e'`, the stream was reset. -/
def ResetIn (e e' : Router ne nw) (t : Tunnel ne nw) (sid : UInt32) : Prop :=
  ∃ e₁, Edits e e₁ ∧ Edits (e₁.call t (.reset sid muxCodeInternal)) e'

theorem resetRoute_foldl_resetIn (t : Tunnel ne nw) :
    ∀ (l : List (Sigma fun _ : UInt32 => ℕ)) {e : Router ne nw} {en : Sigma fun _ : UInt32 => ℕ}
      {r : Route ne nw}, en ∈ l → e.heap en.2 = some r → r.gone = false →
      ResetIn e (l.foldl (resetRoute t) e) (r.tunnel t.side.other) (r.sid t.side.other)
  | x :: l, e, en, r, hen, hr, hg => by
    obtain ⟨hed, hheap⟩ := resetRoute_edits t e x
    rw [foldl_cons]
    rcases mem_cons.1 hen with rfl | hen
    · refine ⟨e, .refl, ?_⟩
      have heq : resetRoute t e en
          = e.call (r.tunnel t.side.other) (.reset (r.sid t.side.other) muxCodeInternal) := by
        rw [resetRoute, hr]
        exact if_neg (by simp [hg])
      rw [← heq]
      exact resetRoute_foldl_edits t l _
    · obtain ⟨e₁, h1, h2⟩ := resetRoute_foldl_resetIn t l hen (hheap ▸ hr) hg
      exact ⟨e₁, hed.trans h1, h2⟩

/-- The routes of a tunnel that is torn down are reset on their other side. -/
def ResetsRoutes (e : Router ne nw) (t : Tunnel ne nw) : Prop :=
  ∀ sid p, e.routeOf (t, sid) = some p → ∃ r, e.heap p = some r ∧ r.key t.side = (t, sid)
    ∧ ResetIn e (e.dropRoutes t) (r.tunnel t.side.other) (r.sid t.side.other)

theorem Firm.resetsRoutes (h : Firm e) (t) : ResetsRoutes e t := by
  intro sid p hp
  obtain ⟨r, hr, d, hd⟩ := h.base.owned _ p hp
  have hside : t.side = d := by
    rw [← (Prod.mk.inj hd).1, Route.side_tunnel]
  obtain ⟨e₁, h1, h2⟩ := resetRoute_foldl_resetIn t (e.conn t).routes.entries
    (AList.mem_lookup_iff.1 hp) hr (h.intact p r hr)
  exact ⟨r, hr, hside ▸ hd, e₁, h1, h2.trans (freeRoutes_edits t _ _)⟩

/-! ### An iteration -/

/-- FATAL was taken from the session of the tunnel. -/
def told (e : Router ne nw) (t : Tunnel ne nw) : Bool :=
  (e.taken t).any fun l => l.any Event.isFatal

/-- What becomes of a tunnel in an iteration of the main loop: its session goes on, and FATAL was
not taken from it; or it was torn down; or there was no session. -/
inductive Fate (hmac : Hmac) (e : Router ne nw) (t : Tunnel ne nw)
    (e' : Router ne nw) : Prop
  | live {s : Session} (hs : (e'.conn t).mux = some s)
      (hno : ∀ code, .fatal code ∉ s.popped)
      (hgo : ∀ s₀, (e.conn t).mux = some s₀ → s₀.popped <+: s.popped)
  | torn {e₁ : Router ne nw} {now : UInt64} (h₁ : Moves hmac e e₁) (hr : ResetsRoutes e₁ t)
      (h₂ : Moves hmac (e₁.connTeardown t now) e') (hd : Down e' t)
  | idle (h : (e.conn t).mux = none) (hd : Down e' t)

theorem told_eq_false : e.told t = false
    ↔ ∀ s, (e.conn t).mux = some s → ∀ code, .fatal code ∉ s.popped := any_isFatal_eq_false

theorem Fate.not_told (h : Fate hmac e t e') : e'.told t = false := by
  rw [told_eq_false]
  intro s hs
  cases h with
  | live hs' hno =>
    obtain rfl := some.inj (hs.symm.trans hs')
    exact hno
  | torn _ _ _ hd | idle _ hd => simp [hd.mux] at hs

theorem taken_eq_none : e.taken t = none ↔ (e.conn t).mux = none := map_eq_none_iff

theorem Going.fate (h : Going t e e') (hf : Firm e') (hno : e'.told t = false) :
    Fate hmac e t e' := by
  rcases hs : (e'.conn t).mux with _ | s
  · exact .idle (taken_eq_none.1 (h.eq_none.1 (taken_eq_none.2 hs))) (hf.down hs)
  · refine .live hs (told_eq_false.1 hno s hs) fun s₀ hs₀ => ?_
    unfold Going taken at h
    rw [hs, hs₀] at h
    cases h with
    | some h => exact h

theorem Fate.spared (h : Fate hmac e t e') (hs : Spared t e' e'') (hm : Moves hmac e' e'')
    (hf : Firm e'') : Fate hmac e t e'' := by
  have hdown : Down e' t → Down e'' t := fun hd =>
    hf.down (taken_eq_none.1 (hs.taken.trans (taken_eq_none.2 hd.mux)))
  cases h with
  | @live s hs' hno hgo =>
    have htaken : e''.taken t = some s.popped := hs.taken.trans (by rw [taken, hs']; rfl)
    obtain ⟨s', hs'', hpop⟩ := map_eq_some_iff.1 htaken
    exact .live hs'' (hpop ▸ hno) fun s₀ hs₀ => hpop ▸ hgo s₀ hs₀
  | torn h₁ hr h₂ hd => exact .torn h₁ hr (h₂.trans hm) (hdown hd)
  | idle h hd => exact .idle h (hdown hd)

/-- What happens outside in an iteration. -/
structure RunInput (ne nw : ℕ) where
  now : UInt64 := 0
  interrupted : Bool := false
  ans : Tunnel ne nw → Answers := fun _ => {}

def iterate (hmac : Hmac) (e : Router ne nw) (x : RunInput ne nw) :
    Router ne nw := e.epRunLoop hmac x.now x.interrupted x.ans

section Conditions

variable (hmac : Hmac) (polled : Tunnel ne nw → EpConn)
  (ans : Tunnel ne nw → Answers)

/-- In the state before the turn of each tunnel. -/
def EachTurn (P : Tunnel ne nw → Router ne nw → Prop) : List (Tunnel ne nw) → Router ne nw → Prop
  | [], _ => True
  | t :: ts, e => P t e ∧ EachTurn P ts (e.connTurn hmac (polled t) t (ans t)).1

instance decidableEachTurn (P : Tunnel ne nw → Router ne nw → Prop) [∀ t e, Decidable (P t e)] :
    ∀ ts e, Decidable (EachTurn hmac polled ans P ts e)
  | [], _ => .isTrue trivial
  | t :: ts, e =>
    have := decidableEachTurn P ts (e.connTurn hmac (polled t) t (ans t)).1
    inferInstanceAs (Decidable (_ ∧ _))

/-- `poll` finds the tunnel readable, or writable, where it was polled for that. -/
def GivesAway (t : Tunnel ne nw) : Router ne nw → Prop :=
  (reader hmac t).GivesAway (told · t) ((ans t).pollIn && pollIn (polled t) || (ans t).pollErr)
    ((ans t).pollOut && pollOut (polled t)) (ans t).reads (ans t).writes

instance (t) (e : Router ne nw) : Decidable (GivesAway hmac polled ans t e) :=
  inferInstanceAs (Decidable (ReadHost.GivesAway ..))

end Conditions

/-- Where FATAL is taken from a session in an iteration, what follows gives it away in the turn of
its tunnel; if `poll` is interrupted, there are no turns. -/
def GivenAway (hmac : Hmac) (e : Router ne nw) (x : RunInput ne nw) : Prop :=
  if x.interrupted then ∀ t ∈ tunnels ne nw, (e.beforePoll hmac x.now x.ans).told t = false
  else EachTurn hmac (e.beforePoll hmac x.now x.ans).conn x.ans
    (GivesAway hmac (e.beforePoll hmac x.now x.ans).conn x.ans)
    (tunnels ne nw) (e.beforePoll hmac x.now x.ans)

instance (hmac : Hmac) (e : Router ne nw) (x : RunInput ne nw) :
    Decidable (e.GivenAway hmac x) := by
  unfold GivenAway
  infer_instance

theorem tunnels_nodup (ne nw : ℕ) : (tunnels ne nw).Nodup := by
  refine List.Nodup.append ?_ ?_ ?_
  · exact (nodup_finRange ne).map fun _ _ h => Tunnel.edge.inj h
  · exact (nodup_finRange nw).map fun _ _ h => Tunnel.worker.inj h
  · intro t h1 h2
    obtain ⟨i, -, rfl⟩ := mem_map.1 h1
    obtain ⟨j, -, hj⟩ := mem_map.1 h2
    cases hj

/-- Before the poll no session goes. -/
theorem beforePoll_going (hmac) (hf : Firm e) (now ans) :
    Moves hmac e (e.beforePoll hmac now ans) ∧ ∀ t, Going t e (e.beforePoll hmac now ans) := by
  have htick : ∀ (ts : List (Tunnel ne nw)) (e : Router ne nw), Moves hmac e (ts.foldl (fun e t =>
      e.connTickConnect t (ans t).tickAt (ans t).dialled (ans t).tickFailedAt) e)
      ∧ ∀ t, (ts.foldl (fun e t =>
        e.connTickConnect t (ans t).tickAt (ans t).dialled (ans t).tickFailedAt) e).taken t
        = e.taken t := by
    intro ts
    induction ts with
    | nil => exact fun e => ⟨.start, fun _ => rfl⟩
    | cons t ts ih =>
      intro e
      obtain ⟨h1, h2⟩ := ih (e.connTickConnect t (ans t).tickAt (ans t).dialled
        (ans t).tickFailedAt)
      exact ⟨(Reach.single (a := Move.tick t _ _ _) trivial rfl).trans h1,
        fun t' => (h2 t').trans (tick_taken ..)⟩
  have htimer : ∀ (ts : List (Tunnel ne nw)) {e : Router ne nw}, Firm e →
      Moves hmac e (ts.foldl (fun e t => e.connTimer hmac t now (ans t).timerFlush) e)
      ∧ ∀ t, Going t e (ts.foldl (fun e t => e.connTimer hmac t now (ans t).timerFlush) e) := by
    intro ts
    induction ts with
    | nil => exact fun _ => ⟨.start, fun _ => .refl ..⟩
    | cons t ts ih =>
      intro e hf
      have hs := connTimer_serves hmac e t now (ans t).timerFlush
      obtain ⟨h1, h2⟩ := ih (hs.moves.firm hf)
      exact ⟨hs.moves.trans h1, fun t' => (hs.going hf t').trans (h2 t')⟩
  obtain ⟨h1, h2⟩ := htick (tunnels ne nw) e
  obtain ⟨h3, h4⟩ := htimer (tunnels ne nw) (h1.firm hf)
  refine ⟨h1.trans h3, fun t => Going.trans ?_ (h4 t)⟩
  rw [Going, h2]
  exact Going.refl t e

theorem connTurn_spared (hmac) {polled : EpConn} {a} (hfd : polled.fd = (e.conn t).fd) :
    Moves hmac e (e.connTurn hmac polled t a).1
      ∧ ∀ t', t' ≠ t → Spared t' e (e.connTurn hmac polled t a).1 := by
  rcases connTurn_cases hmac e polled t a hfd.symm.trans with
    ⟨-, hs⟩ | ⟨-, -, m, rfl, hs⟩ | ⟨-, e₁, hs, heq⟩
  · exact ⟨hs.moves, fun t' ht => hs.spared ht⟩
  · exact ⟨(Reach.single (a := m) trivial rfl).trans hs.moves,
      fun t' ht => (move_spared hmac ht).trans (hs.spared ht)⟩
  · rw [heq]
    exact ⟨hs.moves.trans (.single (a := Move.teardown t a.downAt) trivial rfl), fun t' ht =>
      (hs.spared ht).trans (move_spared hmac (m := .teardown t a.downAt) ht)⟩

theorem connTurn_fate {e₀} (hm : Moves hmac e₀ e) (hf : Firm e) (hgo : Going t e₀ e)
    {polled : EpConn} {a} (hfd : polled.fd = (e.conn t).fd)
    (hno : (e.connTurn hmac polled t a).2 = true → (e.connTurn hmac polled t a).1.told t = false) :
    Fate hmac e₀ t (e.connTurn hmac polled t a).1 := by
  have hf' : Firm (e.connTurn hmac polled t a).1 := (connTurn_spared hmac hfd).1.firm hf
  rcases connTurn_cases hmac e polled t a hfd.symm.trans with
    ⟨hok, hs⟩ | ⟨hok, hc, m, -, hs⟩ | ⟨-, e₁, hs, heq⟩
  · exact (hgo.trans (hs.going hf t)).fate hf' (hno hok)
  · -- there was no session, and there may be one now
    have hnone : (e₀.conn t).mux = none :=
      taken_eq_none.1 (hgo.eq_none.1 (taken_eq_none.2 (hf.base.wired.connecting t hc)))
    rcases hs' : ((e.connTurn hmac polled t a).1.conn t).mux with _ | s
    · exact .idle hnone (hf'.down hs')
    · exact .live hs' (told_eq_false.1 (hno hok) s hs') fun s₀ hs₀ => by simp [hnone] at hs₀
  · rw [heq] at hf' ⊢
    refine .torn (hm.trans hs.moves) ((hs.moves.firm hf).resetsRoutes t) .start (hf'.down ?_)
    simp [connTeardown]

/-! ### A turn -/

theorem told_congr (h : e'.taken t = e.taken t) : e'.told t = e.told t :=
  congrArg (Option.any fun l : List Event => l.any Event.isFatal) h

theorem Firm.dead_of_told (hf : Firm e) (h : e.told t = true) :
    ∃ s, (e.conn t).mux = some s ∧ s.dead = true :=
  dead_of_any_isFatal (fun s hs => (hf.base.hosted t s hs).silent) h

section Turn

variable {polled : Tunnel ne nw → EpConn} {ans : Tunnel ne nw → Answers}

theorem connFinishConnect_told (hn : (e.conn t).mux = none) (err nonce failedAt as) :
    (e.connFinishConnect hmac t err nonce failedAt as).told t = false := by
  have hnone : ∀ g : EpConn → EpConn, (∀ c, (g c).mux = c.mux) → (e.modify t g).told t = false :=
    fun g hg => told_eq_false.2 fun s hs => by simp [modify_self, hg, hn] at hs
  unfold connFinishConnect
  dsimp only
  split
  · exact hnone _ fun _ => rfl
  split
  · exact hnone _ fun _ => rfl
  · rename_i s hnew
    rw [told_congr ((connFlush_edits t as _).taken_eq t)]
    refine told_eq_false.2 fun s' hs' => ?_
    rw [modify_self, some_inj] at hs'
    simp [← hs', (served_new hnew).2]

/-- A turn ends with a failure, or without FATAL taken, exactly if its answers give away where FATAL
was taken. -/
theorem givesAway_iff (hf : Firm e) (hfd : (polled t).fd = (e.conn t).fd) :
    GivesAway hmac polled ans t e ↔ ((e.connTurn hmac (polled t) t (ans t)).2 = true →
      (e.connTurn hmac (polled t) t (ans t)).1.told t = false) := by
  have hnone : (e.conn t).mux = none → e.told t = false ∧ GivesAway hmac polled ans t e := by
    intro hn
    have htold : e.told t = false := told_eq_false.2 fun s hs => by simp [hn] at hs
    exact ⟨htold, (reader hmac t).givesAway_of_none hn htold⟩
  unfold connTurn
  dsimp only
  split
  · obtain ⟨h1, h2⟩ := hnone (hf.base.wired.down t (hfd ▸ ‹_›))
    exact iff_of_true h2 fun _ => h1
  split
  · have hc := hf.base.wired.connecting t ‹_›
    obtain ⟨h1, h2⟩ := hnone hc
    refine iff_of_true h2 fun _ => ?_
    split
    · exact connFinishConnect_told hc ..
    · exact h1
  refine Iff.trans ((reader hmac t).givesAway_iff (I := Firm) (T := (told · t))
    (fun _ h ht => h.dead_of_told ht) (fun e b h => (stash_serves hmac e t (· ++ b)).moves.firm h)
    (fun e h => (connPump_serves hmac e t).moves.firm h) (fun e => (e.conn t).fd)
    (connFlush t (ans t).writes) _ _ _ hf (fun e h hm => ?_)
    (sendLoop_snd (fun e n => call_mux_self e t _) (ans t).writes)
    fun e => told_congr ((connFlush_edits t (ans t).writes e).taken_eq t)) ?_
  · by_contra hno
    exact hm (h.base.wired.down t (by simpa using hno))
  rw [ReadHost.turn, ← connRead_eq]
  rcases (if ((ans t).pollIn && pollIn (polled t) || (ans t).pollErr) = true
    then connRead hmac t (ans t).reads e else (e, true)) with ⟨e₁, _ | _⟩
  · simp
  dsimp only
  rcases (if ((e₁.conn t).fd && ((ans t).pollOut && pollOut (polled t))) = true
    then connFlush t (ans t).writes e₁ else (e₁, true)) with ⟨e₂, _ | _⟩ <;> simp

end Turn

section Turns

variable (hmac) (polled : Tunnel ne nw → EpConn) (ans : Tunnel ne nw → Answers)

theorem turns_spared : ∀ (ts : List (Tunnel ne nw)) {e : Router ne nw}, ts.Nodup →
    (∀ t ∈ ts, (polled t).fd = (e.conn t).fd) →
    Moves hmac e (ts.foldl (fun e t => (e.connTurn hmac (polled t) t (ans t)).1) e)
      ∧ ∀ t ∉ ts, Spared t e (ts.foldl (fun e t => (e.connTurn hmac (polled t) t (ans t)).1) e)
  | [], _, _, _ => ⟨.start, fun _ _ => .refl ..⟩
  | t :: ts, e, hnd, hfd => by
    obtain ⟨hnot, hnd⟩ := nodup_cons.1 hnd
    obtain ⟨h1, h2⟩ := connTurn_spared hmac (a := ans t) (hfd t mem_cons_self)
    have hne : ∀ t' ∈ ts, t' ≠ t := fun t' ht' heq => hnot (heq ▸ ht')
    obtain ⟨h3, h4⟩ := turns_spared ts hnd fun t' ht' =>
      (hfd t' (mem_cons_of_mem _ ht')).trans (h2 t' (hne t' ht')).fd.symm
    refine ⟨h1.trans h3, fun t' ht' => ?_⟩
    rw [mem_cons, not_or] at ht'
    exact (h2 t' ht'.1).trans (h4 t' ht'.2)

/-- The sessions from which FATAL is taken are torn down in the turns, if and only if each turn gives
its own away. -/
theorem turns_fate {e₀} : ∀ (ts : List (Tunnel ne nw)) {e : Router ne nw},
    ts.Nodup → (∀ t ∈ ts, (polled t).fd = (e.conn t).fd) → Moves hmac e₀ e → Firm e →
    (∀ t ∈ ts, Going t e₀ e) →
    (EachTurn hmac polled ans (GivesAway hmac polled ans) ts e ↔ ∀ t ∈ ts,
      (ts.foldl (fun e t => (e.connTurn hmac (polled t) t (ans t)).1) e).told t = false)
    ∧ (EachTurn hmac polled ans (GivesAway hmac polled ans) ts e → ∀ t ∈ ts,
      Fate hmac e₀ t (ts.foldl (fun e t => (e.connTurn hmac (polled t) t (ans t)).1) e))
  | [], _, _, _, _, _, _ => by simp [EachTurn]
  | t :: ts, e, hnd, hfd, hm, hf, hgo => by
    obtain ⟨hnot, hnd⟩ := nodup_cons.1 hnd
    have hfd₁ := hfd t mem_cons_self
    obtain ⟨h1, h2⟩ := connTurn_spared hmac (a := ans t) hfd₁
    have hne : ∀ t' ∈ ts, t' ≠ t := fun t' ht' heq => hnot (heq ▸ ht')
    have hfd' : ∀ t' ∈ ts,
        (polled t').fd = ((e.connTurn hmac (polled t) t (ans t)).1.conn t').fd := fun t' ht' =>
      (hfd t' (mem_cons_of_mem _ ht')).trans (h2 t' (hne t' ht')).fd.symm
    have hf₁ := h1.firm hf
    obtain ⟨h3, h4⟩ := turns_spared hmac polled ans ts hnd hfd'
    obtain ⟨hiff, hfate⟩ := turns_fate ts hnd hfd' (hm.trans h1) hf₁ fun t' ht' =>
      (hgo t' (mem_cons_of_mem _ ht')).trans (h2 t' (hne t' ht')).going
    have hhead := connTurn_fate (a := ans t) hm hf (hgo t mem_cons_self) hfd₁
    rw [EachTurn, foldl_cons, hiff, givesAway_iff hf hfd₁]
    -- the other turns leave what was taken from the tunnel as it is
    have htold := told_congr (h4 t hnot).taken
    refine ⟨⟨fun h => ?_, fun h => ⟨fun _ => ?_, fun t' ht' => h t' (mem_cons_of_mem _ ht')⟩⟩,
      fun h => ?_⟩
    · exact forall_mem_cons.2 ⟨htold.trans (hhead h.1).not_told, h.2⟩
    · exact htold.symm.trans (h t mem_cons_self)
    · exact forall_mem_cons.2 ⟨(hhead h.1).spared (h4 t hnot) h3 (h3.firm hf₁),
        hfate (hiff.2 h.2)⟩

end Turns

theorem lastFlush_spared (hmac : Hmac) (ans : Tunnel ne nw → Answers) :
    ∀ (ts : List (Tunnel ne nw))
    (e : Router ne nw), Moves hmac e (ts.foldl (fun e t =>
      if e.hasMux t then (connFlush t (ans t).lastFlush e).1 else e) e)
    ∧ ∀ t, Spared t e (ts.foldl (fun e t =>
      if e.hasMux t then (connFlush t (ans t).lastFlush e).1 else e) e)
  | [], _ => ⟨.start, fun _ => .refl ..⟩
  | t :: ts, e => by
    rw [foldl_cons]
    split
    · obtain ⟨h1, h2⟩ := lastFlush_spared hmac ans ts (connFlush t (ans t).lastFlush e).1
      exact ⟨(connFlush_serves t _ e).moves.trans h1, fun t' =>
        ((connFlush_edits t _ e).spared t').trans (h2 t')⟩
    · exact lastFlush_spared hmac ans ts e

/-- An iteration of the main loop is made of moves. -/
theorem Firm.iterate (hf : Firm e) (x : RunInput ne nw) : Firm (e.iterate hmac x) := by
  have hf₁ := (beforePoll_going hmac hf x.now x.ans).1.firm hf
  unfold Router.iterate epRunLoop
  split
  · exact hf₁
  · exact (lastFlush_spared hmac x.ans (tunnels ne nw) _).1.firm
      ((turns_spared hmac _ x.ans (tunnels ne nw) (tunnels_nodup ne nw) fun _ _ => rfl).1.firm hf₁)

/-- Every session from which FATAL was taken is gone after an iteration with its tunnel torn down, if
and only if each was given away. -/
theorem Firm.iterate_fate (hf : Firm e) (x : RunInput ne nw) :
    e.GivenAway hmac x ↔ ∀ t, Fate hmac e t (e.iterate hmac x) := by
  obtain ⟨hm, hgo⟩ := beforePoll_going hmac hf x.now x.ans
  have hf₁ := hm.firm hf
  unfold GivenAway Router.iterate epRunLoop
  dsimp only
  split
  · exact ⟨fun h t => (hgo t).fate hf₁ (h t (mem_tunnels t)), fun h t _ => (h t).not_told⟩
  unfold afterPoll
  dsimp only
  generalize e.beforePoll hmac x.now x.ans = e₁ at hm hgo hf₁
  obtain ⟨hiff, hfate⟩ := turns_fate hmac e₁.conn x.ans
    (tunnels ne nw) (tunnels_nodup ne nw) (fun _ _ => rfl) hm hf₁ fun t _ => hgo t
  obtain ⟨hm₂, -⟩ := turns_spared hmac e₁.conn x.ans
    (tunnels ne nw) (e := e₁) (tunnels_nodup ne nw) fun _ _ => rfl
  generalize (tunnels ne nw).foldl (fun e t => (e.connTurn hmac (e₁.conn t) t (x.ans t)).1) e₁ = e₂
    at hiff hfate hm₂
  obtain ⟨hm₃, hsp⟩ := lastFlush_spared hmac x.ans (tunnels ne nw) e₂
  constructor
  · intro h t
    exact (hfate h t (mem_tunnels t)).spared (hsp t) hm₃ (hm₃.firm (hm₂.firm hf₁))
  · intro h
    exact hiff.2 fun t _ => (told_congr (hsp t).taken).symm.trans (h t).not_told

end Router

namespace LpClient

variable {c c' : LpClient} {s : Session} {hmac : Hmac}

/-- `session_down` has run: the streams that are left are reset, but for those that both sides had
finished with, and the next iteration connects. -/
structure Down (hmac : Hmac) (c : LpClient) : Prop where
  mux : c.mux = none
  streams : ∀ p st, c.heap p = some st → st.reset = true ∨ st.finSent = true ∧ st.eof = true
  redial : ∀ a : IoInput, c.ioConnect hmac a = match a.nonce with
    | none => a.dialCalls.foldl app c
    | some nonce => (a.dialCalls.foldl app c).sessionUp hmac nonce

theorem Sound.down (h : Sound c) (hm : c.mux = none) : Down hmac c := by
  refine ⟨hm, fun p st hp => ?_, fun a => ?_⟩
  · refine (h.sane p st hp).done ?_
    by_contra hno
    have hcur := (h.moored p st hp).done (by simpa using hno)
    simp [Current, hm] at hcur
  · have hfd : c.fd = false := by rw [h.links.fd, hm]; rfl
    unfold ioConnect
    exact if_neg (by simp [hfd])

/-- FATAL was taken from the session. -/
def told (c : LpClient) : Bool := c.taken.any fun l => l.any Event.isFatal

inductive Fate (hmac : Hmac) (c c' : LpClient) : Prop
  | live {s : Session} (hs : c'.mux = some s) (hno : ∀ code, .fatal code ∉ s.popped)
      (hgo : ∀ s₀, c.mux = some s₀ → s₀.popped <+: s.popped)
  | torn {c₁ : LpClient} (h : Moves hmac c c₁) (heq : c' = c₁.sessionDown) (hd : Down hmac c')
  | idle (h : c.mux = none) (hd : Down hmac c')

/-- The state in which the timer runs, unless a read, a write or `poll` has failed before. -/
def servedPoll (hmac : Hmac) (c : LpClient) (outPending : ℕ) (a : IoInput) : Option LpClient :=
  if a.pollFailed then none
  else (reader hmac).turn fd (tunnelFlush a.writes)
    (c.fd && (a.pollIn && outPending < 4 * 1024 * 1024 || a.pollErr))
    (a.pollOut && outPending ≠ 0) a.reads c

def served (hmac : Hmac) (c : LpClient) (a : IoInput) : Option LpClient :=
  let c := c.ioConnect hmac a
  if c.fd = false then none
  else
    match tunnelFlush a.flush c.runPending with
    | (_, false) => none
    | (c, true) =>
      (a.pollCalls.foldl app c).servedPoll hmac ((c.mux.map muxOutPending).getD 0) a

/-- With `n` bytes to send when `poll` was called: it fails, or finds the tunnel readable, or
writable. -/
def GivesAway (hmac : Hmac) (n : ℕ) (a : IoInput) (c : LpClient) : Prop :=
  a.pollFailed = false → (reader hmac).GivesAway told
    (a.pollIn && n < 4 * 1024 * 1024 || a.pollErr) (a.pollOut && n ≠ 0) a.reads a.writes c

instance (n a) (c : LpClient) : Decidable (GivesAway hmac n a c) :=
  inferInstanceAs (Decidable (_ → ReadHost.GivesAway ..))

/-- Where FATAL is taken from the session in an iteration, what follows gives it away, unless a
write fails before `poll`; and it is not taken after the timer, when nothing follows. -/
def GivenAway (hmac : Hmac) (c : LpClient) (a : IoInput) : Prop :=
  ((c.ioConnect hmac a).fd = true →
    ∀ n ∈ sentOut a.flush (toSend (c.ioConnect hmac a).runPending.mux), GivesAway hmac n a
      (a.pollCalls.foldl app (tunnelFlush a.flush (c.ioConnect hmac a).runPending).1))
  ∧ ∀ c₁ ∈ c.served hmac a, c₁.told = false → ∀ s ∈ c₁.mux, s.Outlasts a.now

instance (c : LpClient) (a) : Decidable (c.GivenAway hmac a) :=
  inferInstanceAs (Decidable ((_ → ∀ n ∈ sentOut _ _, _) ∧ ∀ c₁ ∈ c.served hmac a, _ →
    ∀ s ∈ c₁.mux, _))

theorem told_eq_false : c.told = false ↔ ∀ s, c.mux = some s → ∀ code, .fatal code ∉ s.popped :=
  any_isFatal_eq_false

theorem tunnelFlush_taken (as : List WriteAnswer) (c : LpClient) :
    (tunnelFlush as c).1.taken = c.taken :=
  sendLoop_rel (R := fun c c' : LpClient => c'.taken = c.taken) (fun _ => rfl)
    (fun h h' => h'.trans h) (fun c n => by
      rw [taken, call, Option.map_map, taken]
      exact congrArg (fun f => Option.map f _)
        (funext fun s => (Session.call_pushes (by simp) s).popped)) as c

theorem ioConnect_moves (hmac) (hi : Sound c) (a) : Moves hmac c (c.ioConnect hmac a)
    ∧ (c.mux ≠ none → c.ioConnect hmac a = c) := by
  unfold ioConnect
  split
  · exact ⟨.start, fun _ => rfl⟩
  rename_i hfd
  refine ⟨?_, fun hne => absurd (hi.links.fd ▸ isSome_iff_ne_none.2 hne) hfd⟩
  dsimp only
  have happ := (app_works hmac a.dialCalls c).serves
  rcases a.nonce with _ | nonce
  · exact happ.moves
  · have hi' := happ.moves.sound hi
    have hfd' : (a.dialCalls.foldl app c).fd = false := by
      have hnone := (happ.going hi).mux_none
      rw [hi.links.fd, Bool.not_eq_true, isSome_eq_false_iff, isNone_iff_eq_none] at hfd
      rw [hi'.links.fd, hnone.2 hfd]
      rfl
    exact happ.moves.trans (.single (a := Move.up nonce) trivial (if_neg (by simp [hfd'])).symm)

theorem Fate.not_told (h : Fate hmac c c') : c'.told = false := by
  rw [told_eq_false]
  intro s hs
  cases h with
  | live hs' hno =>
    obtain rfl := some.inj (hs.symm.trans hs')
    exact hno
  | torn _ _ hd | idle _ hd => simp [hd.mux] at hs

theorem sessionDown_fate {c₁ : LpClient} (hi : Sound c) (h : Moves hmac c c₁) :
    Fate hmac c c₁.sessionDown := by
  have hm : Moves hmac c c₁.sessionDown := h.trans (.single (a := Move.down) trivial rfl)
  exact .torn h rfl ((hm.sound hi).down (sessionDown_mux c₁))

/-! ### Calls on the session -/

theorem Deed.inlet_worked {a} (h : Deed c a c') {m : Move} (ha : a.Of m)
    (hm : m = .work ∨ ∃ b, m = .app b) : c.inlet.Worked c'.inlet := by
  have hsame : c'.inlet = c.inlet → c.inlet.Worked c'.inlet := fun h => h ▸ .refl _
  have hcall : ∀ b : Call, c'.inlet = (c.call b).inlet → b.Inner → b.Quiet →
      c.inlet.Worked c'.inlet := fun b h h1 h2 => h ▸ .call c.inlet h1 h2
  cases h with
  | credit | write | fin => exact hcall _ rfl trivial trivial
  | stall => exact hcall _ inlet_aloof.streamTryFree trivial trivial
  | room => exact hsame inlet_aloof.readyMark
  | retire | forget => exact hsame inlet_aloof.streamTryFree
  | read | put | close => exact hsame inlet_aloof.pendingPush
  | rearm => exact hsame inlet_aloof.notifyRaise
  | accept | again | want | fileno | stop | drain | report => exact hsame rfl
  | call | note | skip | opened | data | closed | reset | writable | up | lose | hangUp | reap =>
    rcases hm with rfl | ⟨b, rfl⟩ <;> simp [Act.Of] at ha

/-- The application's calls and the pending list work on the session in that way. -/
theorem works_worked (hi : Sound c) (h : Works hmac c c') : c.inlet.Worked c'.inlet := by
  have hmove : ∀ {c : LpClient} {m : Move}, Links c → m = .work ∨ (∃ b, m = .app b) →
      c.inlet.Worked (c.move hmac m).inlet := fun {c m} hi hm =>
    ((move_deeds hmac hi m).inv (I := fun c' => Links c' ∧ c.inlet.Worked c'.inlet) ⟨hi, .refl _⟩
      fun _ _ _ h ha hs => ⟨hs.links h.1, h.2.trans (hs.inlet_worked ha hm)⟩).2
  refine (h.inv (I := fun c' => Sound c' ∧ c.inlet.Worked c'.inlet) ⟨hi, .refl _⟩
    fun _ m _ hI hm he => ?_).2
  rw [he]
  exact ⟨move_sound hI.1 m, hI.2.trans (hmove hI.1.links hm)⟩

theorem tunnelFlush_spec (as : List WriteAnswer) {c : LpClient} {s : Session} (hs : c.mux = some s) :
    ∃ s', (tunnelFlush as c).1 = { c with mux := some s' } ∧ s'.left = s.left
      ∧ ∀ n ∈ sentOut as (muxOutPending s), muxOutPending s' = n := by
  have hkeep {c : LpClient} {s : Session} (hs : c.mux = some s) : c = { c with mux := some s } := by
    rw [← hs]
  induction as generalizing c s with
  | nil => exact ⟨s, hkeep hs, rfl, fun n hn => some.inj hn⟩
  | cons a as ih =>
    unfold tunnelFlush sendLoop sentOut
    rw [hs]
    dsimp only
    split
    · exact ⟨s, hkeep hs, rfl, fun n hn => some.inj hn⟩
    · cases a with
      | wrote n =>
        dsimp only
        split
        · exact ⟨s, hkeep hs, rfl, by simp⟩
        · have hs' : (c.call (.sendAdvance n)).mux = some (s.call (.sendAdvance n)) := by
            rw [call, hs]
            rfl
          obtain ⟨s', h1, h2, h3⟩ := ih hs'
          rw [muxOutPending_sendAdvance] at h3
          exact ⟨s', h1, h2.trans (Session.call_hushed (a := .sendAdvance n) trivial s).left, h3⟩
      | again => exact ⟨s, hkeep hs, rfl, fun n hn => some.inj hn⟩
      | error => exact ⟨s, hkeep hs, rfl, by simp⟩

/-- No event waits, but for the FATAL of a session that has died. -/
def Calm (c : LpClient) : Prop := ∀ s ∈ c.mux, s.left ≤ 1

theorem nextEvent_left {n : ℕ} (h : ∀ s ∈ c.mux, s.left ≤ n + 1) :
    ∀ s ∈ (c.nextEvent hmac).mux, s.left ≤ max n 1 := by
  unfold nextEvent
  rcases hs : c.mux with _ | s
  · simp [hs]
  rcases hf : s.front with _ | ev
  · rw [bind_some, show (muxNextEvent s).2 = none from hf]
    intro s' hs'
    obtain rfl : s = s' := some.inj (hs.symm.trans hs')
    have hq : s.q.count = 0 := by rw [← RingQueue.length_toList, (front_none hf).1]; rfl
    unfold Session.left
    split <;> omega
  · rw [bind_some, show (muxNextEvent s).2 = some ev from hf]
    refine (onEvent_worked hmac (c.call .nextEvent) ev).left fun s' hs' => ?_
    have hs'' : (c.call .nextEvent).mux = some (s.call .nextEvent) := by rw [call, hs]; rfl
    obtain rfl : s.call .nextEvent = s' := some.inj (hs''.symm.trans hs')
    have := h s hs
    have := left_front hf
    omega

theorem handleEvents_calm (c : LpClient) : Calm (c.handleEvents hmac) := by
  have hrun : ∀ (n : ℕ) (c : LpClient), (∀ s ∈ c.mux, s.left ≤ n + 1) →
      Calm ((fun c => nextEvent hmac c)^[n] c) := by
    intro n
    induction n with
    | zero => exact fun c h => h
    | succ n ih =>
      intro c h
      refine ih _ fun s hs => ?_
      have := nextEvent_left h s hs
      omega
  refine hrun _ c fun s hs => ?_
  rw [eventsLeft, show c.mux = some s from hs]
  exact Nat.le_succ _

theorem Calm.flush (h : Calm c) (as) : Calm (tunnelFlush as c).1 := by
  rcases hs : c.mux with _ | s
  · cases as <;> simpa [tunnelFlush, sendLoop, hs] using h
  · obtain ⟨s', heq, hleft, -⟩ := tunnelFlush_spec as hs
    rw [heq]
    rintro _ ⟨⟩
    rw [hleft]
    exact h s hs

theorem Calm.read (h : Calm c) (as) : Calm (tunnelRead hmac as c).1 := by
  rw [tunnelRead_eq, ReadHost.readLoop_fst]
  rcases (reader hmac).lastPump as c with _ | y
  · exact h
  · change Calm (y.tunnelPump hmac).1
    unfold tunnelPump
    split
    · rename_i hnone
      intro s hs
      cases hnone.symm.trans hs
    · exact handleEvents_calm _

theorem Calm.works (h : Calm c) (hi : Sound c) (hw : Works hmac c c') : Calm c' :=
  (works_worked hi hw).left h

theorem Calm.connect (h : Calm c) (hi : Sound c) (a) : Calm (c.ioConnect hmac a) := by
  unfold ioConnect
  split
  · exact h
  have happ := h.works hi (app_works hmac a.dialCalls c)
  dsimp only
  split
  · exact happ
  unfold sessionUp
  split
  · exact happ
  · rename_i hnew
    rintro _ ⟨⟩
    have hq := congrArg length (muxSessionNew_queue hnew)
    rw [RingQueue.length_toList] at hq
    unfold Session.left
    rw [hq]
    split <;> simp

/-- Steps with the session up that leave no event waiting. -/
def Calms (hmac : Hmac) (c c' : LpClient) : Prop := Serves hmac c c' ∧ (Calm c → Calm c')

namespace Calms

theorem refl (c) : Calms hmac c c := ⟨.start, id⟩

theorem trans {c''} (h : Calms hmac c c') (h' : Calms hmac c' c'') : Calms hmac c c'' :=
  ⟨Reach.trans h.1 h'.1, h'.2 ∘ h.2⟩

theorem read (as) (c : LpClient) : Calms hmac c (tunnelRead hmac as c).1 :=
  ⟨tunnelRead_serves as c, (Calm.read · as)⟩

theorem flush (as) (c : LpClient) : Calms hmac c (tunnelFlush as c).1 :=
  ⟨tunnelFlush_serves as c, (Calm.flush · as)⟩

theorem works (hi : Sound c) (h : Works hmac c c') : Calms hmac c c' :=
  ⟨h.serves, (Calm.works · hi h)⟩

end Calms

theorem servedPoll_cases (hmac) (c : LpClient) (outPending : ℕ) (a : IoInput) :
    (c.servedPoll hmac outPending a = none ∧ ∃ c₁, Calms hmac c c₁
      ∧ c.ioAfterPoll hmac outPending a = c₁.sessionDown)
    ∨ ∃ c₁, c.servedPoll hmac outPending a = some c₁ ∧ Calms hmac c c₁
      ∧ c.ioAfterPoll hmac outPending a
        = (tunnelFlush a.lastFlush ((c₁.call (.onTimer a.now)).handleEvents hmac)).1 := by
  unfold servedPoll ioAfterPoll ReadHost.turn
  rw [← tunnelRead_eq]
  dsimp only
  split
  · exact .inl ⟨rfl, c, .refl c, rfl⟩
  have hread : Calms hmac c (if (c.fd && (a.pollIn && outPending < 4 * 1024 * 1024
      || a.pollErr)) = true then tunnelRead hmac a.reads c else (c, true)).1 := by
    split
    · exact .read _ c
    · exact .refl c
  generalize (if (c.fd && (a.pollIn && outPending < 4 * 1024 * 1024 || a.pollErr)) = true
    then tunnelRead hmac a.reads c else (c, true)) = res at hread
  obtain ⟨c₁, _ | _⟩ := res
  · exact .inl ⟨rfl, c₁, hread, rfl⟩
  dsimp only
  have hflush : Calms hmac c (if (c₁.fd && (a.pollOut && outPending ≠ 0)) = true
      then tunnelFlush a.writes c₁ else (c₁, true)).1 := by
    split
    · exact hread.trans (.flush _ c₁)
    · exact hread
  generalize (if (c₁.fd && (a.pollOut && outPending ≠ 0)) = true
    then tunnelFlush a.writes c₁ else (c₁, true)) = res at hflush
  obtain ⟨c₂, _ | _⟩ := res
  · exact .inl ⟨rfl, c₂, hflush, rfl⟩
  · exact .inr ⟨c₂, rfl, hflush, rfl⟩

/-- An iteration: there is no tunnel, or it is torn down, or all goes well up to the timer. -/
theorem Sound.ioLoop_cases (hmac) (hi : Sound c) (hs : c.stopping = false) (a : IoInput) :
    (c.served hmac a = none ∧ (c.ioConnect hmac a).fd = false
      ∧ c.ioLoop hmac a = c.ioConnect hmac a)
    ∨ (c.served hmac a = none ∧ ∃ c₁, Moves hmac c c₁ ∧ c.ioLoop hmac a = c₁.sessionDown)
    ∨ ∃ c₁, c.served hmac a = some c₁ ∧ (c.ioConnect hmac a).fd = true
      ∧ Calms hmac (c.ioConnect hmac a) c₁ ∧ c.ioLoop hmac a
        = (tunnelFlush a.lastFlush ((c₁.call (.onTimer a.now)).handleEvents hmac)).1 := by
  obtain ⟨hm, -⟩ := ioConnect_moves hmac hi a
  unfold served ioLoop
  simp only [hs, Bool.false_eq_true, if_false]
  by_cases hfd : (c.ioConnect hmac a).fd = false
  · rw [if_pos hfd, if_pos hfd]
    exact .inl ⟨rfl, hfd, rfl⟩
  rw [if_neg hfd, if_neg hfd]
  have hw := runPending_works hmac (hm.sound hi) (by simpa using hfd)
  have hserve := (Calms.works (hm.sound hi) hw).trans (.flush a.flush _)
  generalize tunnelFlush a.flush (c.ioConnect hmac a).runPending = res at hserve
  obtain ⟨c₂, _ | _⟩ := res
  · exact .inr (.inl ⟨rfl, c₂, hm.trans hserve.1.moves, rfl⟩)
  dsimp only at hserve ⊢
  have happ := hserve.trans (.works (hserve.1.moves.sound (hm.sound hi))
    (app_works hmac a.pollCalls c₂))
  generalize (c₂.mux.map muxOutPending).getD 0 = n
  generalize a.pollCalls.foldl app c₂ = c₃ at happ
  rcases servedPoll_cases hmac c₃ n a with ⟨h1, c₁, h2, h3⟩ | ⟨c₁, h1, h2, h3⟩
  · exact .inr (.inl ⟨h1, c₁, (hm.trans happ.1.moves).trans h2.1.moves, h3⟩)
  · exact .inr (.inr ⟨c₁, h1, by simpa using hfd, happ.trans h2, h3⟩)

theorem timer_serves (c : LpClient) (a : IoInput) :
    Serves hmac c ((c.call (.onTimer a.now)).handleEvents hmac)
      ∧ Serves hmac c
        (tunnelFlush a.lastFlush ((c.call (.onTimer a.now)).handleEvents hmac)).1 := by
  have h : Serves hmac c ((c.call (.onTimer a.now)).handleEvents hmac) :=
    (move_serves (m := .timer a.now) c trivial).trans (handleEvents_serves _)
  exact ⟨h, h.trans (tunnelFlush_serves _ _)⟩

theorem Sound.ioLoop (hi : Sound c) (hcalm : Calm c) (a) :
    Sound (c.ioLoop hmac a) ∧ Calm (c.ioLoop hmac a) := by
  obtain ⟨hm, -⟩ := ioConnect_moves hmac hi a
  rcases hs : c.stopping
  · rcases hi.ioLoop_cases hmac hs a with
      ⟨-, -, heq⟩ | ⟨-, c₁, h, heq⟩ | ⟨c₁, -, -, h, heq⟩
    · exact heq ▸ ⟨hm.sound hi, hcalm.connect hi a⟩
    · have hdown : Sound (c₁.move hmac .down) := move_sound (h.sound hi) .down
      refine heq ▸ ⟨hdown, fun s hm => ?_⟩
      cases (sessionDown_mux c₁).symm.trans hm
    · exact heq ▸ ⟨Moves.sound ((hm.trans h.1.moves).trans (timer_serves c₁ a).2.moves) hi,
        (handleEvents_calm _).flush _⟩
  · rw [LpClient.ioLoop, if_pos hs]
    exact ⟨hi, hcalm⟩

/-! ### A dead session -/

theorem told_congr (h : c'.taken = c.taken) : c'.told = c.told :=
  congrArg (Option.any fun l : List Event => l.any Event.isFatal) h

theorem Going.told (h : Going c c') (ht : c.told = true) : c'.told = true :=
  Further.told h ht

theorem Sound.dead_of_told (hi : Sound c) (h : c.told = true) : ∃ s, c.mux = some s ∧ s.dead = true :=
  dead_of_any_isFatal (fun s hs => (hi.links.served s hs).silent) h

/-- The timer finds no session from which FATAL was taken exactly if the answers have given such a
session away. -/
theorem servedPoll_iff (hi : Sound c) (n : ℕ) (a : IoInput) :
    (∀ c₁ ∈ c.servedPoll hmac n a, c₁.told = false) ↔ GivesAway hmac n a c := by
  unfold servedPoll GivesAway
  rcases a.pollFailed
  swap
  · simp
  rw [if_neg (by simp), forall_prop_of_true rfl]
  rcases hfd : c.fd
  · have hn : c.mux = none := by
      rwa [hi.links.fd, isSome_eq_false_iff, isNone_iff_eq_none] at hfd
    have htold : c.told = false := told_eq_false.2 fun s hs => by simp [hn] at hs
    refine iff_of_true ?_ ((reader hmac).givesAway_of_none hn htold)
    simp [ReadHost.turn, hfd, htold]
  rw [Bool.true_and]
  refine ((reader hmac).givesAway_iff (I := Sound) (fun _ h ht => h.dead_of_told ht)
    (fun c b h => show Sound (c.move hmac (.stash (c.recv ++ b))) from move_sound h _)
    (fun c h => (tunnelPump_serves hmac c).moves.sound h) fd _ _ _ _ hi (fun c h hm => ?_)
    (sendLoop_snd (fun _ _ => rfl) a.writes)
    fun c => told_congr (tunnelFlush_taken a.writes c)).symm
  rw [h.links.fd]
  exact isSome_iff_ne_none.2 hm

theorem served_iff (hi : Sound c) (a : IoInput) :
    (∀ c₁ ∈ c.served hmac a, c₁.told = false) ↔ ((c.ioConnect hmac a).fd = true →
      ∀ n ∈ sentOut a.flush (toSend (c.ioConnect hmac a).runPending.mux), GivesAway hmac n a
        (a.pollCalls.foldl app (tunnelFlush a.flush (c.ioConnect hmac a).runPending).1)) := by
  have hi₀ := (ioConnect_moves hmac hi a).1.sound hi
  unfold served
  dsimp only
  generalize c.ioConnect hmac a = c₀ at hi₀
  rcases hfd : c₀.fd
  · simp
  rw [if_neg (by simp), forall_prop_of_true rfl]
  have hw := runPending_works hmac hi₀ hfd
  have hi₁ := hw.serves.moves.sound hi₀
  obtain ⟨s, hs⟩ : ∃ s, c₀.runPending.mux = some s := by
    rw [← ne_none_iff_exists', ne_eq, (hw.serves.going hi₀).mux_none]
    exact isSome_iff_ne_none.1 (hi₀.links.fd ▸ hfd)
  obtain ⟨s', heq, -, hn⟩ := tunnelFlush_spec a.flush hs
  have hok : (tunnelFlush a.flush c₀.runPending).2 = _ := sendLoop_snd (fun _ _ => rfl) a.flush hs
  have hserves : Serves hmac c₀.runPending _ := tunnelFlush_serves a.flush _
  have hi₂ := hserves.moves.sound hi₁
  rw [toSend, hs, map_some, getD_some]
  rcases hx : tunnelFlush a.flush c₀.runPending with ⟨c₁, ok⟩
  rw [hx] at hok heq hi₂
  dsimp only at hok heq hi₂ ⊢
  subst hok
  rcases hsent : sentOut a.flush (muxOutPending s) with _ | n
  · simp
  rw [hsent] at hn
  have hlen : (c₁.mux.map muxOutPending).getD 0 = n := by rw [heq]; exact hn n rfl
  simp only [isSome_some, mem_def, some_inj, forall_eq']
  rw [hlen]
  exact servedPoll_iff ((app_works hmac a.pollCalls c₁).serves.moves.sound hi₂) n a

/-- The timer and the drain after it. -/
theorem timer_told (hi : Sound c) (hcalm : Calm c) (now : UInt64) :
    ((c.call (.onTimer now)).handleEvents hmac).told = false
      ↔ c.told = false ∧ ∀ s ∈ c.mux, s.Outlasts now := by
  have hserves : Serves hmac c (c.call (.onTimer now)) := move_serves (m := .timer now) c trivial
  have hi' := hserves.moves.sound hi
  have hdrain : Serves hmac (c.call (.onTimer now)) _ := handleEvents_serves _
  have hcalled : (c.call (.onTimer now)).mux = c.mux.map (·.call (.onTimer now)) := rfl
  have hleft : Calm (c.call (.onTimer now)) := by
    intro s' hs'
    obtain ⟨s, hs, rfl⟩ := map_eq_some_iff.1 hs'
    rw [(Session.call_hushed (a := .onTimer now) trivial s).left]
    exact hcalm s hs
  rcases hm : c.mux with _ | s
  · have hnone : (c.call (.onTimer now)).mux = none := by rw [hcalled, hm]; rfl
    refine iff_of_true ?_ ⟨?_, by simp⟩
    · exact told_eq_false.2 fun s hs => by simp [((hdrain.going hi').mux_none).2 hnone] at hs
    · exact told_eq_false.2 fun s hs => by simp [hm] at hs
  rw [hm, map_some] at hcalled
  simp only [mem_def, some_inj, forall_eq', outlasts_iff]
  change _ ↔ _ ∧ (s.call (.onTimer now)).dead = false
  generalize s.call (.onTimer now) = s' at hcalled
  generalize c.call (.onTimer now) = c' at hi' hserves hdrain hcalled hleft
  have hcount := hleft s' hcalled
  rcases hd : s'.dead
  · -- the queue is empty, so the drain does nothing
    have hidle : c'.handleEvents hmac = c' := by
      refine Function.iterate_fixed (nextEvent_idle hmac hcalled ?_) _
      rw [Session.left, if_neg (by simp [hd])] at hcount
      omega
    have htold : c'.told = false := by
      by_contra hno
      obtain ⟨s, hs, hd'⟩ := hi'.dead_of_told (by simpa using hno)
      obtain rfl := some.inj (hcalled.symm.trans hs)
      simp [hd] at hd'
    rw [hidle]
    refine iff_of_true htold ⟨?_, rfl⟩
    by_contra hno
    simp [(hserves.going hi).told (by simpa using hno)] at htold
  · -- FATAL was taken before, or it is the one event that waits
    refine iff_of_false ?_ (by simp)
    have hsv := hi'.links.served s' hcalled
    obtain ⟨code, hf⟩ := hsv.silent.1 hd
    rw [hsv.queued_eq, mem_append] at hf
    rw [Bool.not_eq_false]
    rcases hf with hf | hf
    · refine (hdrain.going hi').told ?_
      rw [told, taken, hcalled]
      exact any_eq_true.2 ⟨_, hf, rfl⟩
    rw [Session.left, if_pos hd, add_zero, ← RingQueue.length_toList] at hcount
    rcases hfr : s'.front with _ | ev
    · simp [(front_none hfr).1] at hf
    have hq := (front_some hfr).1
    rw [hq, length_cons] at hcount
    have hnil : (s'.call .nextEvent).q.toList = [] := length_eq_zero_iff.1 (by omega)
    rw [hq, hnil, mem_singleton] at hf
    subst hf
    have hone : c'.eventsLeft = 1 := by
      rw [eventsLeft, hcalled]
      dsimp only
      rw [if_pos hd, ← RingQueue.length_toList, hq, hnil]
      rfl
    rw [handleEvents, hone, Function.iterate_one, nextEvent, hcalled, bind_some,
      show (muxNextEvent s').2 = _ from hfr]
    change (c'.call .nextEvent).told = true
    rw [told, taken, call, hcalled, map_some, map_some, any_some, hsv.popped_front hfr]
    simp [Event.isFatal]

/-- After an iteration in which nothing has failed before the timer the session is told of exactly
if the drain after the timer has taken FATAL. -/
theorem Sound.ioLoop_noticed (hi : Sound c) (hs : c.stopping = false) (a) :
    (∀ c₁ ∈ c.served hmac a, ((c₁.call (.onTimer a.now)).handleEvents hmac).told = false)
      ↔ Fate hmac c (c.ioLoop hmac a) := by
  obtain ⟨hm, hsame⟩ := ioConnect_moves hmac hi a
  have hi₀ := hm.sound hi
  rcases hi.ioLoop_cases hmac hs a with
    ⟨h1, hfd, h2⟩ | ⟨h1, c₁, h2, h3⟩ | ⟨c₁, h1, hfd, h2, h3⟩
  · rw [h1, h2]
    have hnone : (c.ioConnect hmac a).mux = none := by
      rwa [hi₀.links.fd, isSome_eq_false_iff, isNone_iff_eq_none] at hfd
    refine iff_of_true (by simp) (.idle ?_ (hi₀.down hnone))
    by_contra hne
    rw [hsame hne] at hnone
    exact hne hnone
  · rw [h1, h3]
    exact iff_of_true (by simp) (sessionDown_fate hi h2)
  rw [h1, h3]
  simp only [mem_def, some_inj, forall_eq']
  have hgo := Serves.going (h2.1.trans (timer_serves c₁ a).2) hi₀
  have htaken := tunnelFlush_taken a.lastFlush ((c₁.call (.onTimer a.now)).handleEvents hmac)
  generalize (tunnelFlush a.lastFlush ((c₁.call (.onTimer a.now)).handleEvents hmac)).1 = c₂
    at htaken hgo
  rw [← told_congr htaken]
  refine ⟨fun h => ?_, Fate.not_told⟩
  rcases hmux : c₂.mux with _ | s
  · rw [hgo.mux_none] at hmux
    rw [hi₀.links.fd, hmux] at hfd
    cases hfd
  · refine .live hmux (told_eq_false.1 h s hmux) fun s₀ hs₀ => ?_
    rw [hsame (by simp [hs₀])] at hgo
    unfold Going taken at hgo
    rw [hs₀, hmux] at hgo
    cases hgo with
    | some h => exact h

/-- A session from which FATAL was taken is gone after an iteration, if and only if it was given
away. -/
theorem Sound.ioLoop_fate (hi : Sound c) (hcalm : Calm c) (hs : c.stopping = false) (a) :
    c.GivenAway hmac a ↔ Fate hmac c (c.ioLoop hmac a) := by
  have htimer : ∀ c₁ ∈ c.served hmac a,
      (((c₁.call (.onTimer a.now)).handleEvents hmac).told = false
        ↔ c₁.told = false ∧ ∀ s ∈ c₁.mux, s.Outlasts a.now) := by
    intro c₁ hc
    rcases hi.ioLoop_cases hmac hs a with ⟨h1, -⟩ | ⟨h1, -⟩ | ⟨c', h1, -, h2, -⟩
    · cases h1.symm.trans hc
    · cases h1.symm.trans hc
    · cases h1.symm.trans hc
      exact timer_told (h2.1.moves.sound ((ioConnect_moves hmac hi a).1.sound hi))
        (h2.2 (hcalm.connect hi a)) a.now
  rw [← hi.ioLoop_noticed hs a, GivenAway, ← served_iff hi a]
  constructor
  · rintro ⟨h1, h2⟩ c₁ hc
    exact (htimer c₁ hc).2 ⟨h1 c₁ hc, h2 c₁ hc (h1 c₁ hc)⟩
  · intro h
    exact ⟨fun c₁ hc => ((htimer c₁ hc).1 (h c₁ hc)).1,
      fun c₁ hc _ => ((htimer c₁ hc).1 (h c₁ hc)).2⟩

end LpClient

/-- No session is left at the end of an iteration from which FATAL was taken: its tunnel was torn
down, if and only if the answers of the system gave each away from which FATAL was taken. When the
thread of libpeer ends, none is left in any case. -/
theorem dead_sessions_torn_down_iff (hmac : Hmac) :
    (∀ ne nw cfg e, Reach (ofFun (Router.iterate hmac)) (fun _ _ => True)
        (Router.start ne nw cfg) e →
      ∀ x, e.GivenAway hmac x ↔ ∀ t, Router.Fate hmac e t (e.iterate hmac x))
    ∧ ∀ cfg c, Reach (ofFun (LpClient.ioLoop hmac)) (fun _ _ => True) (lpConnect cfg) c →
      (c.stopping = false → ∀ a, c.GivenAway hmac a ↔ LpClient.Fate hmac c (c.ioLoop hmac a))
      ∧ ∀ rounds, LpClient.Fate hmac c (c.ioExit rounds) := by
  refine ⟨fun ne nw cfg e hr x => ?_, fun cfg c hr => ?_⟩
  · have hf : e.Firm := hr.inv (Router.firm_start cfg) fun _ y _ h _ hs => by
      rw [hs]
      exact h.iterate y
    exact hf.iterate_fate x
  · have hi : c.Sound ∧ c.Calm := by
      refine hr.inv (I := fun c => c.Sound ∧ c.Calm) ⟨LpClient.sound_start cfg, ?_⟩
        fun _ y _ h _ hs => ?_
      · intro s hs
        cases hs
      · rw [hs]
        exact h.1.ioLoop h.2 y
    refine ⟨fun hs a => hi.1.ioLoop_fate hi.2 hs a, fun rounds => ?_⟩
    obtain ⟨c₁, hm, heq⟩ := LpClient.ioExit_moves hmac hi.1 rounds
    exact heq ▸ LpClient.sessionDown_fate hi.1 hm

def Router.answering (b : Bytes) : Router.Answers := { pollIn := true, reads := [.bytes b] }

/-- Both tunnels come up, a stream of the edge is routed to the worker, the peers fall silent. -/
def Router.silentRun : List (Router.RunInput 1 1) :=
  [{ ans := fun _ => { pollOut := true } },
    { ans := fun _ =>
        Router.answering (encode (helloFrame (initSession {} .acceptor).toCore true)) },
    { ans := fun
        | .edge _ => Router.answering (encode (synFrame 2 []))
        | .worker _ => {} },
    { now := 15000 }]

/-- The tunnel comes up, the peer opens a stream and falls silent. -/
def LpClient.silentRun : List LpClient.IoInput :=
  [{ nonce := some zeroNonce, pollIn := true
     reads := [.bytes (encode (helloFrame (initSession {} .dialer).toCore false)
        ++ encode (synFrame 1 []))] },
    { now := 15000 }]

/-- The keepalive gives up on it. -/
def LpClient.timedOutRun : List LpClient.IoInput := LpClient.silentRun ++ [{ now := 60000 }]

/-- The peers hang up: when the keepalive of the router gives up on them, and after that of libpeer
has. -/
theorem dead_sessions_torn_down_iff_hangUp :
    (∃ e x, e = Router.silentRun.foldl (Router.iterate nullHmac) (Router.start 1 1 {})
      ∧ x = { now := 60000, ans := fun _ => { pollIn := true, reads := [.eof] } }
      ∧ (e.beforePoll nullHmac x.now x.ans).told (.worker 0) = true
      ∧ ∀ t, Router.Fate nullHmac e t (e.iterate nullHmac x))
    ∧ ∃ c a, c = LpClient.timedOutRun.foldl (LpClient.ioLoop nullHmac)
        (lpConnect { listens := true })
      ∧ a = ({ pollIn := true, reads := [.eof] } : LpClient.IoInput) ∧ c.told = true
      ∧ LpClient.Fate nullHmac c (c.ioLoop nullHmac a) := by
  constructor
  · refine ⟨_, _, rfl, rfl, by decide +kernel, ?_⟩
    exact ((dead_sessions_torn_down_iff nullHmac).1 1 1 {} _
      (.foldl Router.silentRun (by decide +kernel)) _).1 (by decide +kernel)
  · refine ⟨_, _, rfl, rfl, by decide +kernel, ?_⟩
    exact (((dead_sessions_torn_down_iff nullHmac).2 { listens := true } _
      (.foldl LpClient.timedOutRun (by decide +kernel))).1 (by decide +kernel)
      { pollIn := true, reads := [.eof] }).1 (by decide +kernel)

/-- If they stay silent nothing fails: the router has taken FATAL from the session of the worker and
the next iteration finds it ready, with its route, and picks it for a new stream; libpeer has the
tunnel still, and its stream is not reset. -/
theorem dead_sessions_kept_silentRun :
    (∃ e x, Reach (ofFun (Router.iterate nullHmac)) (fun _ _ => True) (Router.start 1 1 {}) e
      ∧ ¬ Router.Fate nullHmac e (.worker 0) (e.iterate nullHmac x)
      ∧ (e.iterate nullHmac x).told (.worker 0) = true
      ∧ ((e.iterate nullHmac x).conn (.worker 0)).ready = true
      ∧ ((e.iterate nullHmac x).find (.worker 0) 1).isSome = true
      ∧ (e.iterate nullHmac x).pickWorker.2 = some 0)
    ∧ ∃ c a, Reach (ofFun (LpClient.ioLoop nullHmac)) (fun _ _ => True)
        (lpConnect { listens := true }) c ∧ c.stopping = false
      ∧ ¬ LpClient.Fate nullHmac c (c.ioLoop nullHmac a)
      ∧ (c.ioLoop nullHmac a).told = true ∧ (c.ioLoop nullHmac a).fd = true
      ∧ ((c.ioLoop nullHmac a).heap 0).map LpStream.reset = some false := by
  constructor
  · have hrun : Reach (ofFun (Router.iterate nullHmac)) (fun _ _ => True) (Router.start 1 1 {})
        (Router.silentRun.foldl (Router.iterate nullHmac) (Router.start 1 1 {})) :=
      .foldl Router.silentRun (by decide +kernel)
    have hfacts : let e' := (Router.silentRun.foldl (Router.iterate nullHmac)
          (Router.start 1 1 {})).iterate nullHmac { now := 60000 };
        e'.told (.worker 0) = true ∧ (e'.conn (.worker 0)).ready = true
          ∧ (e'.find (.worker 0) 1).isSome = true ∧ e'.pickWorker.2 = some 0 := by decide +kernel
    refine ⟨_, _, hrun, fun h => ?_, hfacts⟩
    exact Bool.false_ne_true (h.not_told.symm.trans hfacts.1)
  · have hrun : Reach (ofFun (LpClient.ioLoop nullHmac)) (fun _ _ => True)
        (lpConnect { listens := true })
        (LpClient.silentRun.foldl (LpClient.ioLoop nullHmac) (lpConnect { listens := true })) :=
      .foldl LpClient.silentRun (by decide +kernel)
    have hfacts : let c' := (LpClient.silentRun.foldl (LpClient.ioLoop nullHmac)
          (lpConnect { listens := true })).ioLoop nullHmac { now := 60000 };
        c'.told = true ∧ c'.fd = true ∧ (c'.heap 0).map LpStream.reset = some false := by
      decide +kernel
    refine ⟨_, _, hrun, by decide +kernel, fun h => ?_, hfacts⟩
    exact Bool.false_ne_true (h.not_told.symm.trans hfacts.1)

end MuxProtocol
