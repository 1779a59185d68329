import MuxProtocol.Proofs.Calls
import MuxProtocol.Proofs.Strokes

/-!
# The ceiling of the output buffer

`ob_reserve` compares with `max_out_buffer` only when the buffer has to grow, and the capacity
doubles from 4096 without regard to it. Where the ceiling is itself one of those capacities, or
below every frame, the buffer never holds more. Any other ceiling is passed: a host that opens one
stream and then sends CAPACITY frames of 16 bytes fills the buffer up to the ceiling, so that the
capacity is above it, and the next frame is not compared with anything.
-/

namespace MuxProtocol

open Machine Session

variable {s s' : Session} {k limit : ℕ} {cfg : MuxConfig} {role : MuxRole}

/-! ### Capacities -/

/-- The capacities that a buffer can have. -/
def OutBuf.Doubled (o : OutBuf) : Prop :=
  o.data.length ≤ o.cap ∧ (o.cap = 0 ∨ ∃ j, o.cap = 4096 * 2 ^ j)

/-- A ceiling that is a capacity, or below every frame. -/
def ExactCeiling (limit : ℕ) : Prop := limit < muxHeaderSize ∨ ∃ k, limit = 4096 * 2 ^ k

theorem growTo_doubled {want : ℕ} (hw : want ≤ 4096 * 2 ^ k) : ∀ (n : ℕ) {j : ℕ}, j ≤ k →
    ∃ i ≤ k, growTo want n (4096 * 2 ^ j) = 4096 * 2 ^ i
  | 0, j, hj => ⟨j, hj, rfl⟩
  | n + 1, j, hj => by
    unfold growTo
    split
    · rename_i hlt
      have hne : j ≠ k := by
        rintro rfl
        omega
      rw [Nat.mul_assoc, ← Nat.pow_succ]
      exact growTo_doubled hw n (by omega)
    · exact ⟨j, hj, rfl⟩

/-- A buffer that grows to hold what is below a capacity has at most that capacity. -/
theorem OutBuf.Doubled.grow {o : OutBuf} (h : o.Doubled) {want : ℕ} (hw : want ≤ 4096 * 2 ^ k)
    (hc : o.cap ≤ 4096 * 2 ^ k) :
    ∃ i ≤ k, growTo want want (if o.cap = 0 then 4096 else o.cap) = 4096 * 2 ^ i := by
  split
  · exact growTo_doubled hw _ (Nat.zero_le k)
  · obtain ⟨j, hj⟩ := h.2.resolve_left ‹_›
    rw [hj] at hc ⊢
    refine growTo_doubled hw _ ?_
    exact (Nat.pow_le_pow_iff_right (by decide)).1 (Nat.le_of_mul_le_mul_left hc (by decide))

theorem obGrow_doubled {o : OutBuf} (h : o.Doubled) (need limit : ℕ) :
    (obGrow o need limit).1.Doubled := by
  unfold obGrow
  dsimp only
  split
  · exact h
  · have hbig : o.data.length + need + o.cap ≤ 4096 * 2 ^ (o.data.length + need + o.cap) :=
      le_trans Nat.lt_two_pow_self.le (Nat.le_mul_of_pos_left _ (by decide))
    have hwant := (Nat.le_add_right (o.data.length + need) o.cap).trans hbig
    obtain ⟨i, -, hi⟩ := h.grow hwant ((Nat.le_add_left ..).trans hbig)
    refine ⟨?_, .inr ⟨i, hi⟩⟩
    refine le_trans (Nat.le_add_right _ need) (want_le_growTo_self ?_)
    split <;> omega

theorem obGrow_cap_le {o : OutBuf} (h : o.Doubled) (hl : 0 < limit) (he : ExactCeiling limit)
    {need : ℕ} (hn : muxHeaderSize ≤ need) (hc : o.cap ≤ limit) :
    (obGrow o need limit).1.cap ≤ limit := by
  unfold obGrow
  dsimp only
  split
  · exact hc
  · rename_i hfit
    have htotal : o.data.length + need ≤ limit := by
      by_contra hgt
      exact hfit ⟨by omega, by omega⟩
    obtain hlow | ⟨k, rfl⟩ := he
    · omega
    · obtain ⟨i, hi, hgrow⟩ := h.grow htotal hc
      rw [hgrow]
      exact Nat.mul_le_mul_left _ (Nat.pow_le_pow_right (by decide) hi)

theorem obReserve_doubled {o : OutBuf} (h : o.Doubled) (hl : 0 < limit) {need : ℕ}
    (hn : muxHeaderSize ≤ need) (hc : ExactCeiling limit → o.cap ≤ limit) :
    (obReserve o need limit).1.Doubled
      ∧ (ExactCeiling limit → (obReserve o need limit).1.cap ≤ limit) := by
  have hcompact : OutBuf.Doubled { o with data := o.data.drop o.spos, spos := 0 } :=
    ⟨by simpa using le_trans (Nat.sub_le _ _) h.1, h.2⟩
  unfold obReserve
  split
  · exact ⟨h, hc⟩
  split
  · dsimp only
    split
    · exact ⟨hcompact, hc⟩
    · exact ⟨obGrow_doubled hcompact .., fun he => obGrow_cap_le hcompact hl he hn (hc he)⟩
  · exact ⟨obGrow_doubled h .., fun he => obGrow_cap_le h hl he hn (hc he)⟩

/-! ### Every run -/

/-- A session's buffer has one of the capacities, and under a ceiling that is one of them no more
than that. -/
structure Ceiled (limit : ℕ) (s : Session) : Prop where
  ceiling : s.maxOutBuffer.toNat = limit
  pos : 0 < limit
  out : s.out.Doubled
  cap_le : ExactCeiling limit → s.out.cap ≤ limit

theorem Ceiled.congr (h : Ceiled limit s) (ho : s'.out = s.out)
    (hm : s'.maxOutBuffer = s.maxOutBuffer) : Ceiled limit s' :=
  ⟨hm ▸ h.ceiling, h.pos, ho ▸ h.out, ho ▸ h.cap_le⟩

theorem raiseFatal_ceiled (h : Ceiled limit s) (code) : Ceiled limit (raiseFatal s code) := by
  unfold raiseFatal
  split
  · exact h
  · exact h.congr rfl rfl

theorem emit_ceiled (h : Ceiled limit s) (type flags sid payload) :
    Ceiled limit (emit s type flags sid payload).1 := by
  obtain ⟨hout, hcap⟩ := obReserve_doubled h.out h.pos
    (Nat.le_add_right muxHeaderSize payload.length) h.cap_le
  have hroom := (obReserve_spec s.out (muxHeaderSize + payload.length) limit).2.2
  unfold emit
  rw [h.ceiling]
  rcases hr : obReserve s.out (muxHeaderSize + payload.length) limit with ⟨out, e | ⟨⟩⟩
  · rw [hr] at hout hcap
    refine raiseFatal_ceiled ?_ muxCodeInternal
    exact ⟨h.ceiling, h.pos, hout, hcap⟩
  · rw [hr] at hout hcap hroom
    dsimp only
    by_cases hp : payload.length ≤ muxMaxPayload
    · rw [muxCraft_ok hp (by have := hroom rfl; dsimp only at this; omega)]
      refine ⟨h.ceiling, h.pos, ⟨?_, hout.2⟩, hcap⟩
      have := hroom rfl
      simp only [List.length_append, length_encode] at this ⊢
      omega
    · rw [muxCraft, if_pos (by omega)]
      exact ⟨h.ceiling, h.pos, hout, hcap⟩

theorem Stroke.ceiled {e} (hs : Stroke s e s') (h : Ceiled limit s) : Ceiled limit s' := by
  cases hs with
  | fatal code => exact raiseFatal_ceiled h code
  | emit f => exact emit_ceiled h _ _ _ _
  | _ => exact h.congr rfl rfl

theorem muxSendAdvance_ceiled (h : Ceiled limit s) (n : ℕ) :
    Ceiled limit (muxSendAdvance s n) := by
  unfold muxSendAdvance
  dsimp only
  split
  · exact ⟨h.ceiling, h.pos, ⟨Nat.zero_le _, h.out.2⟩, h.cap_le⟩
  · exact ⟨h.ceiling, h.pos, h.out, h.cap_le⟩

/-- A call keeps the bound: its strokes do, and the host only takes from the buffers. -/
theorem Session.call_ceiled (h : Ceiled limit s) (a) : Ceiled limit (s.call a) := by
  cases a with
  | sendAdvance n => exact muxSendAdvance_ceiled h n
  | nextEvent =>
    refine h.congr (muxNextEvent_out s) ?_
    unfold call muxNextEvent
    dsimp only
    split <;> rfl
  | _ => exact call_inv trivial (fun _ _ _ hi _ hs => hs.ceiled hi) h

/-- Every state of a run, from any role's start. -/
theorem ceiled_reach {s₀ : Session} (h₀ : muxSessionNew cfg role = some s₀)
    (h : Reach (ofFun call) (fun _ _ => True) s₀ s) :
    Ceiled (nz cfg.maxOutBuffer muxDefaultMaxOutBuffer).toNat s := by
  have hstart : Ceiled (nz cfg.maxOutBuffer muxDefaultMaxOutBuffer).toNat (initSession cfg role) :=
    ⟨rfl, nz_pos (by decide) _, ⟨Nat.le_refl 0, .inl rfl⟩, fun _ => Nat.zero_le _⟩
  refine h.inv (muxSessionNew_inv hstart (fun _ _ _ hi _ hs => hs.ceiled hi) h₀)
    fun s a s' hi _ hcall => ?_
  cases hcall
  exact call_ceiled hi a

/-- The output is within the limit, and a frame that would pass it is not appended but kills the
session. -/
def Session.Within (s : Session) (limit : ℕ) : Prop :=
  muxOutPending s ≤ limit
    ∧ ∀ f : Frame, f.payload.length ≤ muxMaxPayload →
      limit < muxOutPending s + (muxHeaderSize + f.payload.length) →
      ∃ s', emit s f.type f.flags f.sid f.payload = (s', .error .nospace)
        ∧ s'.dead = true ∧ s'.sent = s.sent ∧ muxSendBuf s' = muxSendBuf s

theorem Ceiled.within (h : Ceiled limit s) (he : ExactCeiling limit) : s.Within limit := by
  have hdata := h.out.1
  have hcap := h.cap_le he
  have hpos := h.pos
  refine ⟨by unfold muxOutPending; omega, fun f hp hover => ?_⟩
  have hfail : (obReserve s.out (muxHeaderSize + f.payload.length) limit).2 ≠ .ok () := by
    rw [Ne, obReserve_ok_iff, OutBuf.length_pending]
    unfold muxOutPending at hover
    omega
  obtain ⟨hpend, -, -⟩ := obReserve_spec s.out (muxHeaderSize + f.payload.length) limit
  unfold emit
  rw [h.ceiling]
  rcases hr : obReserve s.out (muxHeaderSize + f.payload.length) limit with ⟨out, e | ⟨⟩⟩
  · rw [hr] at hpend
    refine ⟨_, rfl, by simp, by simp, ?_⟩
    rw [muxSendBuf_eq, muxSendBuf_eq, raiseFatal_out, ← hpend]
  · exact absurd (congrArg Prod.snd hr) hfail

/-! ### A run past any other ceiling -/

/-- A session alive with `n` bytes to send. -/
structure Filled (limit n : ℕ) (s : Session) : Prop where
  alive : s.dead = false
  ceiling : s.maxOutBuffer.toNat = limit
  spos : s.out.spos ≤ s.out.data.length
  pending : s.out.pending.length = n

theorem Filled.emit {n : ℕ} (h : Filled limit n s) (type flags sid) {payload : Bytes}
    (hp : payload.length ≤ muxMaxPayload)
    (hroom : n + (muxHeaderSize + payload.length) ≤ max s.out.cap limit) :
    (emit s type flags sid payload).2 = .ok ()
      ∧ Filled limit (n + (muxHeaderSize + payload.length)) (emit s type flags sid payload).1 := by
  have hok : (MuxProtocol.emit s type flags sid payload).2 = .ok () := by
    refine emit_of_reserve hp ?_
    rw [obReserve_ok_iff, h.pending, h.ceiling]
    omega
  rcases emit_cases s type flags sid hp with ⟨out, he, -, hout⟩ | ⟨out, he, -⟩
  · obtain ⟨hspos, hpend⟩ := hout h.spos
    rw [he]
    refine ⟨rfl, h.alive, h.ceiling, hspos, ?_⟩
    rw [hpend, List.length_append, h.pending, length_encode]
  · rw [he] at hok
    cases hok

theorem Filled.sendCapacity {n : ℕ} (h : Filled limit n s) (hroom : n + 16 ≤ max s.out.cap limit) :
    Filled limit (n + 16) (s.call (.sendCapacity 0)) := by
  rw [call, muxSendCapacity, if_neg (by simp [h.alive])]
  have hlen : (bePut32 0).length ≤ muxMaxPayload := by decide
  exact (h.emit muxTCapacity 0 muxSidControl hlen hroom).2

/-- CAPACITY frames, one after the other, up to the ceiling. -/
theorem Filled.fill {n : ℕ} (h : Filled limit n s) : ∀ (m : ℕ), n + 16 * m ≤ limit → ∃ s',
    Reach (ofFun call) (fun _ _ => True) s s' ∧ Filled limit (n + 16 * m) s'
  | 0, _ => ⟨s, .start, h⟩
  | m + 1, hm => by
    obtain ⟨s₁, hr, h₁⟩ := h.fill m (by omega)
    exact ⟨_, .step hr trivial rfl, h₁.sendCapacity (by omega)⟩

/-- The answer of a peer to the HELLO, without a record that this side knows. -/
def bareAck : Frame where
  type := muxTHelloAck
  flags := 0
  sid := muxSidControl
  payload := [255, 255, 0, 0]

theorem greeted (cfg : MuxConfig) :
    (initSession cfg .acceptor).call (.recv (encode bareAck))
      = evqPush { initSession cfg .acceptor with got := [bareAck], peerHelloSeen := true }
        (.peerHello 0 0 0 [] [] []) := rfl

/-- The first frame of the run: a stream opened with `e` bytes of metadata. -/
theorem filled_open (cfg : MuxConfig) {e : ℕ} (he : e < 16)
    (hl : muxHeaderSize + e ≤ (nz cfg.maxOutBuffer muxDefaultMaxOutBuffer).toNat) : ∃ s,
    Reach (ofFun call) (fun _ _ => True) (initSession cfg .acceptor) s
      ∧ Filled (nz cfg.maxOutBuffer muxDefaultMaxOutBuffer).toNat (muxHeaderSize + e) s := by
  obtain ⟨s, hs⟩ : ∃ s, (initSession cfg .acceptor).call (.recv (encode bareAck)) = s := ⟨_, rfl⟩
  have hs' := (greeted cfg).symm.trans hs
  have hlen : (List.replicate e (0 : UInt8)).length = e := List.length_replicate
  have hok : OpenOk s.toCore (List.replicate e 0) := by
    rw [← hs']
    refine ⟨rfl, rfl, rfl, by rw [hlen]; exact le_trans he.le (by decide), ?_, ?_⟩
    · exact show 0 < muxDefaultMaxStreams.toNat by decide
    · exact show (2 : UInt32) ≠ 0 by decide
  have hwf : TabWf s.tab := by
    rw [← hs']
    exact stGrow_empty_wf _
  obtain ⟨t, i, hi, -⟩ := stInsert_inserted hwf (freshStream s.toCore s.nextLocalSid)
  have hfresh : Filled (nz cfg.maxOutBuffer muxDefaultMaxOutBuffer).toNat 0
      { s with nextLocalSid := s.nextLocalSid + 2, tab := t } := by
    rw [← hs']
    exact ⟨rfl, rfl, Nat.le_refl 0, rfl⟩
  have hmeta : (List.replicate e (0 : UInt8)).length ≤ muxMaxPayload := by
    rw [hlen]
    exact le_trans he.le (by decide)
  obtain ⟨hemit, hopen⟩ := hfresh.emit muxTData muxFSyn s.nextLocalSid hmeta (by rw [hlen]; omega)
  rw [hlen, Nat.zero_add] at hopen
  refine ⟨s.call (.open (List.replicate e 0)), ?_, ?_⟩
  · exact .step (.single trivial hs.symm) trivial rfl
  · rw [call, muxOpen_ok hok hi (Prod.ext rfl hemit)]
    exact hopen

/-- Sizes of a run that passes a ceiling: frames up to it, one of them above every capacity below
it, and room for one more in the next capacity. -/
theorem exists_sizes (hl : muxHeaderSize ≤ limit) (hne : ∀ k, limit ≠ 4096 * 2 ^ k) : ∃ e n k,
    e < 16 ∧ muxHeaderSize + e + 16 * n ≤ limit ∧ limit < muxHeaderSize + e + 16 * n + 16
      ∧ muxHeaderSize + e + 16 * n + 16 ≤ 4096 * 2 ^ k
      ∧ ∀ j < k, 4096 * 2 ^ j < muxHeaderSize + e + 16 * n := by
  have hex : ∃ k, limit < 4096 * 2 ^ k :=
    ⟨limit, lt_of_lt_of_le Nat.lt_two_pow_self (Nat.le_mul_of_pos_left _ (by decide))⟩
  obtain ⟨k, hk, hmin⟩ : ∃ k, limit < 4096 * 2 ^ k ∧ ∀ j < k, 4096 * 2 ^ j < limit :=
    ⟨Nat.find hex, Nat.find_spec hex, fun j hj =>
      lt_of_le_of_ne (Nat.not_lt.1 (Nat.find_min hex hj)) (hne j).symm⟩
  unfold muxHeaderSize at hl ⊢
  by_cases hbig : 16 ≤ limit ∧ ∀ j < k, 4096 * 2 ^ j < 16 * (limit / 16)
  · -- frames of 16 bytes only
    refine ⟨4, limit / 16 - 1, k, by omega, by omega, by omega, by omega, fun j hj => ?_⟩
    have := hbig.2 j hj
    omega
  · -- up to the ceiling itself, which is less than 16 bytes above a smaller capacity
    have hclose : limit + 16 ≤ 4096 * 2 ^ k := by
      by_cases hlow : limit < 16
      · have := Nat.two_pow_pos k
        omega
      · obtain ⟨j, hj, hle⟩ : ∃ j < k, 16 * (limit / 16) ≤ 4096 * 2 ^ j := by
          by_contra hno
          exact hbig ⟨by omega, fun j hj => Nat.not_le.1 fun hle => hno ⟨j, hj, hle⟩⟩
        have hpow : 2 ^ (j + 1) ≤ 2 ^ k := Nat.pow_le_pow_right (by decide) hj
        have := Nat.two_pow_pos j
        rw [Nat.pow_succ] at hpow
        omega
    refine ⟨(limit - 12) % 16, (limit - 12) / 16, k, by omega, by omega, by omega, by omega,
      fun j hj => ?_⟩
    have := hmin j hj
    omega

/-- Any other ceiling is passed in some run, with the session alive. -/
theorem exists_passed (h₀ : muxSessionNew cfg .acceptor = some (initSession cfg .acceptor))
    (hne : ¬ ExactCeiling (nz cfg.maxOutBuffer muxDefaultMaxOutBuffer).toNat) : ∃ s,
    Reach (ofFun call) (fun _ _ => True) (initSession cfg .acceptor) s
      ∧ s.dead = false ∧ (nz cfg.maxOutBuffer muxDefaultMaxOutBuffer).toNat < muxOutPending s := by
  obtain ⟨hl, hne⟩ := not_or.1 hne
  obtain ⟨e, n, k, he, hn, hover, hk, hmin⟩ :=
    exists_sizes (Nat.not_lt.1 hl) fun k hk => hne ⟨k, hk⟩
  obtain ⟨s₁, hr₁, h₁⟩ := filled_open cfg he (by omega)
  obtain ⟨s₂, hr₂, h₂⟩ := h₁.fill n hn
  have hrun := hr₁.trans hr₂
  -- the capacity holds the bytes so far, so it is above the ceiling
  have hcap : 4096 * 2 ^ k ≤ s₂.out.cap := by
    have hb := ceiled_reach h₀ hrun
    have hlen : muxHeaderSize + e + 16 * n ≤ s₂.out.cap := by
      have := hb.out.1
      have := h₂.pending
      rw [OutBuf.length_pending] at this
      omega
    obtain h0 | ⟨j, hj⟩ := hb.out.2
    · unfold muxHeaderSize at hlen
      omega
    · rw [hj] at hlen ⊢
      refine Nat.mul_le_mul_left _ (Nat.pow_le_pow_right (by decide) (Nat.not_lt.1 fun hlt => ?_))
      exact absurd (hmin j hlt) (Nat.not_lt.2 hlen)
  have h₃ := h₂.sendCapacity (by omega)
  refine ⟨_, .step hrun trivial rfl, h₃.alive, ?_⟩
  rw [muxOutPending, ← OutBuf.length_pending, h₃.pending]
  exact hover

/-- The ceiling holds in every state of every run and at every stroke of its calls, exactly where
it is a capacity the buffer can have, or below every frame. -/
theorem out_within_ceiling (cfg : MuxConfig) (h₀ : (muxSessionNew cfg .acceptor).isSome) :
    (∀ role s₀ s s', muxSessionNew cfg role = some s₀ →
        Reach (ofFun Session.call) (fun _ _ => True) s₀ s → Strokes False (fun _ => True) s s' →
        s'.Within (nz cfg.maxOutBuffer muxDefaultMaxOutBuffer).toNat)
      ↔ (nz cfg.maxOutBuffer muxDefaultMaxOutBuffer).toNat < muxHeaderSize
        ∨ ∃ k, (nz cfg.maxOutBuffer muxDefaultMaxOutBuffer).toNat = 4096 * 2 ^ k := by
  constructor
  · intro hall
    by_contra hne
    have hnew : muxSessionNew cfg .acceptor = some (initSession cfg .acceptor) := by
      unfold muxSessionNew at h₀ ⊢
      split
      · rw [if_pos ‹_›] at h₀
        cases h₀
      · rfl
    obtain ⟨s, hr, -, hover⟩ := exists_passed hnew hne
    exact absurd (hall _ _ _ _ hnew hr .start).1 (Nat.not_le.2 hover)
  · intro he role s₀ s s' hnew hr hs
    have hb := Reach.inv (ceiled_reach hnew hr) (fun _ _ _ hi _ hs => hs.ceiled hi) hs
    exact hb.within he

/-- Two CAPACITY frames under a ceiling of 4096 bytes. -/
theorem out_within_ceiling_page : ∃ s,
    Reach (ofFun call) (fun _ _ => True) (initSession { maxOutBuffer := 4096 } .acceptor) s
      ∧ muxOutPending s = 32 ∧ s.Within 4096 := by
  have hl : Reach (ofFun call) (fun _ _ => True)
      (initSession { maxOutBuffer := 4096 } .acceptor) _ :=
    Reach.foldl [.sendCapacity 1, .sendCapacity 2] (by simp [Allowed])
  refine ⟨_, hl, by decide +kernel, ?_⟩
  exact (out_within_ceiling { maxOutBuffer := 4096 } rfl).2 (.inr ⟨0, by decide⟩)
    .acceptor _ _ _ rfl
    hl .start

/-- A ceiling of 16 bytes, and two frames of 16 bytes each that nobody has sent yet. -/
theorem ceiling_passed : ∃ s₀ s, muxSessionNew { maxOutBuffer := 16 } .acceptor = some s₀
    ∧ Reach (ofFun Session.call) (fun _ _ => True) s₀ s
    ∧ s.maxOutBuffer = 16 ∧ muxOutPending s = 32 ∧ s.dead = false := by
  let l : List Call := [.sendCapacity 1, .sendCapacity 2]
  refine ⟨_, _, rfl, Reach.foldl l (by simp [l, Allowed]), ?_⟩
  decide +kernel

end MuxProtocol
