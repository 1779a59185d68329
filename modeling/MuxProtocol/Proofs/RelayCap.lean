import MuxProtocol.Proofs.Loops
import MuxProtocol.Proofs.RelaySplice

/-!
# The edge stops accepting at its cap, and goes on below it

An edge counts its public connections, stops accepting at `max_streams` of them and goes on when one
is destroyed. The count is kept where a connection is accepted and where one is destroyed; an edge
dials no backend, whose connections are not counted.
-/

namespace MuxProtocol

open Machine Index

namespace Relay

variable {opt : RelayOpts} {r r' : Relay} {i : ℕ} {c c' : RelayConn} {a : Act}

/-- The connections in use. -/
def used (r : Relay) : ℕ :=
  ((Finset.range r.connsCap).filter fun i => (r.conns i).isSome = true).card

theorem used_eq_total (r : Relay) : r.used = total (fun _ => 1) r.conns r.connsCap := by
  rw [used, Finset.card_eq_sum_ones, Finset.sum_filter, total]
  refine Finset.sum_congr rfl fun i _ => ?_
  rcases r.conns i with _ | c <;> rfl

/-- The account of the public connections. -/
structure Capped (opt : RelayOpts) (r : Relay) : Prop where
  same : r.opt = opt
  listens : r.opt.publicListen = true
  dialsNot : r.opt.backend = false
  count : r.nactive = r.used
  cap : 0 < r.opt.maxStreams → (r.nactive : ℤ) ≤ r.opt.maxStreams
  paused : r.listenPaused = true → 0 < r.opt.maxStreams ∧ r.opt.maxStreams ≤ r.nactive

theorem Capped.congr (h : Capped opt r) (hopt : r'.opt = r.opt) (hn : r'.nactive = r.nactive)
    (hp : r'.listenPaused = r.listenPaused) (hcap : r'.connsCap = r.connsCap)
    (hocc : ∀ j, (r'.conns j).isSome = (r.conns j).isSome) : Capped opt r' := by
  refine ⟨hopt.trans h.same, hopt ▸ h.listens, hopt ▸ h.dialsNot, ?_, ?_, ?_⟩
  · rw [hn, h.count, used, used, hcap]
    simp only [hocc]
  · rw [hopt, hn]
    exact h.cap
  · rw [hopt, hn, hp]
    exact h.paused

theorem isSome_update (heap : ℕ → Option RelayConn) (hc : heap i = some c) (c' : RelayConn)
    (j : ℕ) :
    (Function.update heap i (some c') j).isSome = (heap j).isSome := by
  by_cases hj : j = i
  · rw [hj, Function.update_self, hc]
    rfl
  · rw [Function.update_of_ne hj]

/-- A connection destroyed is one fewer, and the listener stays paused only at the cap. -/
theorem Capped.released (h : Capped opt r) (hi : Slots r) (hc : r.conns i = some c) (c') {p}
    (hp : p = true → 0 < r.opt.maxStreams ∧ r.opt.maxStreams ≤ (r.nactive - 1 : ℕ)) :
    Capped opt (r.released i c' (r.nactive - 1) p) := by
  have hused : (r.released i c' (r.nactive - 1) p).used + 1 = r.used := by
    have := total_update (fun _ => 1) r.conns (hi.lt i c hc) none
    rw [hc] at this
    rw [used_eq_total, used_eq_total]
    exact this
  refine ⟨h.same, h.listens, h.dialsNot, ?_, fun hpos => ?_, hp⟩
  · have := h.count
    change r.nactive - 1 = _
    omega
  · have := h.cap hpos
    change ((r.nactive - 1 : ℕ) : ℤ) ≤ r.opt.maxStreams
    omega

theorem connDestroy_edge (hc : r.conns i = some c) (hl : r.opt.publicListen = true) :
    ∃ p, r.connDestroy i = r.released i c (r.nactive - 1) p
      ∧ (p = true → r.listenPaused = true ∧ 0 < r.opt.maxStreams
        ∧ r.opt.maxStreams ≤ (r.nactive - 1 : ℕ)) := by
  rw [connDestroy, hc]
  dsimp only [publicGone, sidmapDel]
  rw [if_pos hl]
  split
  · exact ⟨false, rfl, by simp⟩
  · rename_i hno
    refine ⟨r.listenPaused, rfl, fun hp => ⟨hp, ?_⟩⟩
    rw [hp] at hno
    simp only [true_and, not_or, not_le, not_lt] at hno
    exact hno

theorem Capped.destroy (h : Capped opt r) (hi : Slots r) (hc : r.conns i = some c) :
    Capped opt (r.connDestroy i) := by
  obtain ⟨p, heq, hp⟩ := connDestroy_edge hc h.listens
  rw [heq]
  exact h.released hi hc c fun h => (hp h).2

theorem Capped.giveUp (h : Capped opt r) (hi : Slots r) (hc : r.conns i = some c) :
    Capped opt (r.giveUp i) := by
  rw [Relay.giveUp, modify_eq hc]
  obtain ⟨p, heq, hp⟩ := connDestroy_edge (r := r.setConn i c.giveUp) (setConn_conns ..) h.listens
  have hrel : (r.setConn i c.giveUp).released i c.giveUp (r.nactive - 1) p
      = r.released i c.giveUp (r.nactive - 1) p := by
    simp [Relay.released, setConn]
  rw [heq]
  exact hrel ▸ h.released hi hc c.giveUp fun h => (hp h).2

/-- A connection is accepted below the limit only. -/
theorem Capped.accept (h : Capped opt r) (hi : Slots r) (hg : ¬ r.full) (sid peer) :
    Capped opt ((r.call (.open peer)).opened sid) := by
  obtain ⟨i, free, cap, w, hroom, heq⟩ := hi.accept sid peer
  rw [heq]
  refine ⟨h.same, h.listens, h.dialsNot, ?_, fun hpos => ?_, fun hp => ?_⟩
  · have hone := total_update (fun _ => 1) r.conns hroom.lt (some { sid := sid })
    have hfree : ∀ j, r.connsCap ≤ j → r.conns j = none := fun j hj => by
      rcases hc : r.conns j with _ | c
      · rfl
      · exact absurd (hi.lt j c hc) (Nat.not_lt.2 hj)
    have hgrow := total_of_le (fun _ => 1) hroom.le hfree
    have hcount := h.count
    rw [hroom.slot] at hone
    rw [used_eq_total] at hcount ⊢
    change r.nactive + 1 = total (fun _ => 1) (Function.update r.conns i (some { sid := sid })) cap
    simp only [Option.map_none, Option.getD_none, Option.map_some, Option.getD_some] at hone
    omega
  · have := h.cap hpos
    unfold full at hg
    change 0 < r.opt.maxStreams at hpos
    change ((r.nactive + 1 : ℕ) : ℤ) ≤ r.opt.maxStreams
    push_cast
    omega
  · exact absurd (h.paused hp) hg

/-- Every deed keeps the account: the listener is asked below the cap only, and paused at it. -/
theorem Deed.capped (h : Deed r a r') (hi : Slots r) (hcap : Capped opt r) : Capped opt r' := by
  have hset : ∀ {r' : Relay} {i : ℕ} {c c' : RelayConn}, r.conns i = some c → r'.opt = r.opt →
      r'.nactive = r.nactive → r'.listenPaused = r.listenPaused → r'.connsCap = r.connsCap →
      r'.conns = Function.update r.conns i (some c') → Capped opt r' := by
    intro r' i c c' hc h1 h2 h3 h4 h5
    refine hcap.congr h1 h2 h3 h4 fun j => ?_
    rw [h5]
    exact isSome_update r.conns hc c' j
  have hcall : ∀ b : Call, Capped opt (r.call b) ∧ Slots (r.call b) := fun b =>
    ⟨hcap.congr rfl rfl rfl rfl fun _ => rfl, ⟨hi.lt, hi.free, hi.nodup⟩⟩
  cases h with
  | call | note | stash | skip | stray | refuse | busy =>
    exact hcap.congr rfl rfl rfl rfl fun _ => rfl
  | pause hf =>
    exact ⟨hcap.same, hcap.listens, hcap.dialsNot, hcap.count, hcap.cap, fun _ => hf⟩
  | accept _ hf => exact hcap.accept hi hf _ _
  | dial hf hb => exact absurd (hcap.dialsNot.symm.trans hb) Bool.false_ne_true
  | data _ _ hc | closed _ _ hc | drain hc | shut hc | pass hc | stick hc | unblock hc | fin hc
  | connected hc | eof hc | input hc => exact hset hc rfl rfl rfl rfl rfl
  | reset _ _ hc => exact (hcall .nextEvent).1.giveUp (hcall .nextEvent).2 hc
  | broken hc | kill hc => exact (hcall _).1.giveUp (hcall _).2 hc
  | fail hc => exact hcap.giveUp hi hc
  | done hc => exact hcap.destroy hi hc

theorem capped_start {hmac} {nonce : Nonce}
    (h : relayNew hmac opt nonce = some r) (hl : opt.publicListen = true)
    (hb : opt.backend = false) : Capped opt r ∧ Slots r := by
  obtain ⟨s, -, rfl⟩ := Option.map_eq_some_iff.1 h
  refine ⟨⟨rfl, hl, hb, ?_, fun hpos => ?_, nofun⟩, ⟨nofun, nofun, List.nodup_nil⟩⟩
  · simp [used]
  · exact Int.le_of_lt hpos

theorem Runs.capped {hmac t} (h : Runs hmac opt t r) (hl : opt.publicListen = true)
    (hb : opt.backend = false) : Capped opt r :=
  (h.inv (I := fun r => Capped opt r ∧ Slots r) (fun _ _ h₀ => capped_start h₀ hl hb)
    fun _ _ _ _ hi _ hd => ⟨hd.capped hi.2 hi.1, (hd.outcome hi.2).slots hi.2⟩).1

/-- An edge, which dials no backend, counts its connections, has at most `max_streams` of them, and
is paused only there: after any iterations of its main loop, and between the moves of one. -/
theorem accept_backpressure {hmac : Hmac}
    {nonce : Nonce} {r₀ : Relay} (h₀ : relayNew hmac opt nonce = some r₀)
    (hl : opt.publicListen = true) (hb : opt.backend = false)
    (h : Reach (ofFun (turn hmac)) (fun _ _ => True) r₀ r) :
    r.nactive = r.used ∧ (0 < opt.maxStreams → (r.nactive : ℤ) ≤ opt.maxStreams)
      ∧ (r.listenPaused = true → 0 < opt.maxStreams ∧ opt.maxStreams ≤ r.nactive) := by
  have hruns : Runs hmac opt anyhow r :=
    ⟨nonce, r₀, h₀, (moves_of_turns h).mono fun r m _ => meets_anyhow r m⟩
  obtain ⟨rfl, -, -, hcount, hcap, hpaused⟩ := hruns.capped hl hb
  exact ⟨hcount, hcap, hpaused⟩

/-- The greeting is read, and of two clients that wait one is accepted and the edge is paused, in
one iteration of the main loop. -/
theorem accept_backpressure_edge :
    ∃ r : Relay, r.listenPaused = true ∧ r.nactive = 1 ∧ r.used = 1
      ∧ (r.nactive : ℤ) ≤ edgeOpts.maxStreams ∧ edgeOpts.maxStreams ≤ r.nactive := by
  let l : List (Move ⊕ Answers) := [.inr
    { ready := [.tunnel true false
        [.bytes (encode (helloFrame (initSession {} .dialer).toCore false))] [],
        .listener [[], []]] }]
  have hnew : (relayNew nullHmac edgeOpts zeroNonce).any fun r₀ =>
      (l.foldl (turn nullHmac) r₀).listenPaused && (l.foldl (turn nullHmac) r₀).nactive == 1 := by
    decide +kernel
  obtain ⟨r₀, h₀, h⟩ := (Option.any_eq_true _ _).1 hnew
  rw [Bool.and_eq_true, beq_iff_eq] at h
  obtain ⟨h1, h2, h3⟩ := accept_backpressure h₀ rfl rfl (.foldl l (by simp [l, Allowed]))
  exact ⟨_, h.1, h.2, h1.symm.trans h.2, h2 (by decide), (h3 h.1).2⟩

end Relay

end MuxProtocol
