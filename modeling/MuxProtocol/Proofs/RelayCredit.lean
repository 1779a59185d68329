import MuxProtocol.Proofs.Relay

/-!
# Credit in the relay

The bytes of the tunnel are those passed to `mux_consume`, those that wait for a socket, and those
that nobody gives back: what waited in a connection that is destroyed, and what comes for a stream
that has none.
-/

namespace MuxProtocol

open Machine Index List Option Function RelayConn

namespace Relay

variable {r r' : Relay} {i : ℕ} {c c' : RelayConn} {a : Act} {t : Terms}
  {e : Option Event}

/-- The bytes that wait for a socket. -/
def held (r : Relay) : ℕ := total (·.m2s.length) r.conns r.connsCap

/-- The bytes that were dropped. -/
def lost (r : Relay) : ℕ := (r.freed.map (·.m2s.length)).sum + (r.strays.map List.length).sum

theorem ConnStep.held (h : ConnStep r i c a c') :
    c'.m2s.length + passed a.credits = c.m2s.length + deliveredBytes a.events := by
  cases h with
  | arrive => simp [RelayConn.arrive, Act.credits, Act.events, Event.size]
  | drain hw hl =>
    simp [RelayConn.drain, Act.credits, Call.credits, Act.events]
    omega
  | pass =>
    rw [RelayConn.eased]
    split <;> rfl
  | input =>
    split <;> rfl
  | _ => rfl

/-- Bytes that come are held, credited or lost. -/
theorem Outcome.balance (h : Outcome r a r') (hi : Slots r) :
    r'.held + r'.lost + passed a.credits = r.held + r.lost + deliveredBytes a.events := by
  unfold held lost
  cases h with
  | same hcn hcap _ _ hfr hst hact =>
    rw [hcn, hcap, hfr, hst, Act.credits_eq_nil hact, passed_nil]
    omega
  | @step i c c' hc hs hcn hcap _ _ hfr hst =>
    have htot := total_update (·.m2s.length) r.conns (hi.lt i c hc) (some c')
    have hheld := hs.held
    rw [hc] at htot
    simp only [map_some, getD_some] at htot
    rw [hcn, hcap, hfr, hst]
    omega
  | @born i c hnew _ hroom hcn _ hfr hst hev hact =>
    have htot := total_update (·.m2s.length) r.conns hroom.lt (some c)
    have hcap := total_of_le (fun c : RelayConn => c.m2s.length) hroom.le
      fun j (hj : r.connsCap ≤ j) => show r.conns j = none by
        rcases hjc : r.conns j with _ | d
        · rfl
        · exact absurd (hi.lt j d hjc) (Nat.not_lt.2 hj)
    rw [hroom.slot, hnew] at htot
    simp only [map_some, getD_some, map_none, getD_none, length_nil] at htot
    rw [hcn, hfr, hst, hev, Act.credits_eq_nil hact, passed_nil, hnew]
    omega
  | @gone i c c' hc hg hcn hcap _ _ hfr hst hev hact =>
    have htot := total_update (·.m2s.length) r.conns (hi.lt i c hc) none
    have hlen : c'.m2s = c.m2s := by rcases hg with rfl | rfl <;> rfl
    rw [hc] at htot
    simp only [map_some, getD_some, map_none, getD_none] at htot
    rw [hcn, hcap, hfr, hst, hev, Act.credits_eq_nil hact, passed_nil]
    simp only [map_append, map_cons, map_nil, sum_append, sum_cons, sum_nil, hlen]
    omega

/-! ### Runs -/

/-- The bytes of the tunnel are accounted for. -/
structure Accounts (r : Relay) : Prop where
  slots : Slots r
  queues : r.mux.Queues
  gone : ∀ i c, r.conns i = some c → c.gone = false
  balance : deliveredBytes r.mux.popped = passed r.credits + r.held + r.lost

theorem ConnStep.gone (h : ConnStep r i c a c') : c'.gone = c.gone := by
  cases h with
  | pass =>
    rw [eased]
    split <;> rfl
  | input =>
    split <;> rfl
  | _ => rfl

theorem Outcome.notGone (h : Outcome r a r') (hg : ∀ i c, r.conns i = some c → c.gone = false) :
    ∀ i c, r'.conns i = some c → c.gone = false := by
  intro j d hj
  cases h with
  | same hcn => exact hg j d (hcn ▸ hj)
  | @step i c c' hc hs hcn =>
    rw [hcn] at hj
    by_cases hji : j = i
    · rw [hji, update_self, some_inj] at hj
      exact hj ▸ hs.gone.trans (hg i c hc)
    · rw [update_of_ne hji] at hj
      exact hg j d hj
  | @born i c hnew _ _ hcn =>
    rw [hcn] at hj
    by_cases hji : j = i
    · rw [hji, update_self, some_inj] at hj
      rw [← hj, hnew]
    · rw [update_of_ne hji] at hj
      exact hg j d hj
  | @gone i c c' _ _ hcn =>
    rw [hcn] at hj
    by_cases hji : j = i
    · simp [hji] at hj
    · rw [update_of_ne hji] at hj
      exact hg j d hj

theorem Deed.accounts (h : Deed r a r') (hi : Accounts r) : Accounts r' := by
  have hout := h.outcome hi.slots
  have hcall := h.called hi.slots
  refine ⟨hout.slots hi.slots, hcall.queues hi.queues, hout.notGone hi.gone, ?_⟩
  have hbal := hout.balance hi.slots
  have hold := hi.balance
  rw [hcall.popped hi.queues, hcall.credits, deliveredBytes_append, passed_append]
  omega

theorem accounts_new {hmac opt} {nonce : Nonce}
    (h : relayNew hmac opt nonce = some r) : Accounts r ∧ r.lost = 0 := by
  obtain ⟨s, hs, rfl⟩ := map_eq_some_iff.1 h
  obtain ⟨hserved, hpop⟩ := served_new hs
  exact ⟨⟨⟨by simp, by simp, nodup_nil⟩, hserved.waiting, by simp, by rw [hpop]; rfl⟩, rfl⟩

theorem Runs.accounts {hmac opt} (h : Runs hmac opt t r) : Accounts r :=
  h.inv (fun _ _ h => (accounts_new h).1) fun _ _ _ _ hi _ hd => hd.accounts hi

theorem giveUp_lost (hc : r.conns i = some c) (hm : c.m2s = []) : (r.giveUp i).lost = r.lost := by
  obtain ⟨n, p, heq⟩ := giveUp_eq hc
  simp [heq, lost, released, RelayConn.giveUp, hm]

/-- While the terms are kept, a deed loses nothing. -/
theorem Deed.lost (h : Deed r a r') (hi : Accounts r) (hk : t.kept = true) (ha : Fit t e r a) :
    r'.lost = r.lost := by
  cases h with
  | @stray sid b hf hg =>
    have hsome : (r.connOf sid).isSome = true := ha.2 hk
    simp [hg] at hsome
  | @reset sid code i c hf hg hc =>
    refine giveUp_lost (r := r.call .nextEvent) hc (ha.2 hk c ?_)
    rw [connOf, hg]
    exact hc
  | @broken i c p e hc hp hw =>
    refine giveUp_lost (r := r.call _) hc (((ha c hc).2 hk).resolve_right fun hex => ?_)
    obtain ⟨w, hok⟩ := hex
    rw [hw] at hok
    cases hok
  | fail hc => exact giveUp_lost hc (ha.2 hk _ hc)
  | kill hc => exact giveUp_lost (r := r.call _) hc (ha hk _ hc)
  | @done i c hc hf =>
    obtain ⟨n, p, heq⟩ := connDestroy_eq hc
    rw [hi.gone i c hc, Bool.false_or, finished_iff] at hf
    simp [heq, Relay.lost, released, hf.2.2.1]
  | @dial sid m hf =>
    obtain ⟨i, free, cap, w, -, heq⟩ := hi.slots.dial sid
    rw [heq]
    rfl
  | @accept sid peer ho =>
    obtain ⟨i, free, cap, w, -, heq⟩ := hi.slots.accept sid peer
    rw [heq]
    rfl
  | _ => rfl

/-- The terms on which no byte is dropped. -/
def sparing : Terms := ⟨false, false, true⟩

/-- In every run in which every STREAM_DATA finds a connection, and no connection that has bytes for
its socket is destroyed: the bytes of the tunnel were passed to `mux_consume`, or are held. -/
theorem bytes_conserved {hmac : Hmac} {opt : RelayOpts}
    (h : Runs hmac opt sparing r) :
    deliveredBytes r.mux.popped = passed r.credits + r.held := by
  have hi : Accounts r ∧ r.lost = 0 := h.inv (fun _ _ h => accounts_new h)
    fun _ _ _ _ hi ha hd => ⟨hd.accounts hi.1, (hd.lost hi.1 rfl ha).trans hi.2⟩
  rw [hi.1.balance, hi.2, Nat.add_zero]

/-- The tunnel comes up, to a peer of that configuration. -/
def plugIn (role : MuxRole) (cfg : MuxConfig) : List Move :=
  [.stash (encode (helloFrame (initSession cfg role).toCore (role = .acceptor))), .recv, .event {}]

/-- The peer sends a frame, and its event is handled. -/
def hears (f : Frame) : List Move := [.stash (encode f), .recv, .event {}]

def backendOpts : RelayOpts where
  role := .dialer
  backend := true

/-- A byte comes before the backend is connected, and is written to it before the peer resets the
stream. -/
def deliveredRun : List Move :=
  plugIn .acceptor {} ++ hears (synFrame 2 []) ++ hears (dataFrame 2 [7])
    ++ [.writable 0 false [.wrote 1]]
    ++ hears (rstFrame 2 0)

theorem bytes_conserved_deliveredRun :
    ∃ r, Runs nullHmac backendOpts sparing r ∧ deliveredBytes r.mux.popped = 1
      ∧ passed r.credits + r.held = 1 := by
  obtain ⟨r, hr, h1⟩ := Runs.of_moves nullHmac backendOpts sparing zeroNonce
    (fun r => deliveredBytes r.mux.popped == 1) deliveredRun (by decide +kernel)
  rw [beq_iff_eq] at h1
  exact ⟨r, hr, h1, (bytes_conserved hr).symm.trans h1⟩

/-- A byte comes before the backend is connected, and the peer resets the stream. -/
def droppedRun : List Move :=
  plugIn .acceptor {} ++ hears (synFrame 2 []) ++ hears (dataFrame 2 [7]) ++ hears (rstFrame 2 0)

theorem reset_drops_bytes :
    ∃ r, Runs nullHmac backendOpts ⟨true, true, false⟩ r ∧ r.mux.dead = false
      ∧ deliveredBytes r.mux.popped = 1 ∧ passed r.credits + r.held = 0 := by
  obtain ⟨r, hr, h⟩ := Runs.of_moves nullHmac backendOpts ⟨true, true, false⟩ zeroNonce
    (fun r => !r.mux.dead && deliveredBytes r.mux.popped == 1
      && passed r.credits + total (·.m2s.length) r.conns r.connsCap == 0)
    droppedRun (by decide +kernel)
  simp only [Bool.and_eq_true, Bool.not_eq_true', beq_iff_eq] at h
  exact ⟨r, hr, h.1.1, h.1.2, h.2⟩

end Relay

end MuxProtocol
