import MuxProtocol.Proofs.Calls
import MuxProtocol.Proofs.Strokes

/-!
# Dead-peer detection

A session that has sent a PING expects its answer within the keepalive timeout. But each heartbeat
sends a further PING and rewrites the time the timeout is counted from, so a peer that never
answers is declared dead only if no heartbeat falls before the timeout ends.
-/

namespace MuxProtocol

open LinearProbe Machine Session

/-! ### What only the timer and an answer change -/

section Watch

variable {s : Session} {f : Frame}

/-- What keepalive reads, with the frames heard. -/
def Session.watch (s : Session) : List Frame × UInt32 × Bool × Bool × UInt64 × UInt64 :=
  (s.got, s.keepaliveTimeoutMs, s.timerStarted, s.pingOutstanding, s.pingDueMs, s.pingSentMs)

@[simp] theorem evqPush_watch (s : Session) (e) : (evqPush s e).watch = s.watch := rfl

@[simp] theorem raiseFatal_watch (s : Session) (code) : (raiseFatal s code).watch = s.watch := by
  unfold raiseFatal
  split <;> rfl

@[simp] theorem emit_watch (s : Session) (type flags sid payload) :
    (emit s type flags sid payload).1.watch = s.watch := by
  unfold emit
  split
  · exact raiseFatal_watch _ _
  · split <;> rfl

/-- Only an answer to a PING stops the wait for it, and only the clock starts one. -/
theorem Strokes.watch {l : Prop} {E : Effect → Prop} {s' : Session} (hE : ¬ E .beat)
    (h : Strokes l E s s') : ∃ fs, s'.got = s.got ++ fs
      ∧ ((∀ f ∈ fs, ¬ Answers f) → s'.watch.2 = s.watch.2) := by
  refine Reach.inv (I := fun s' => ∃ fs, s'.got = s.got ++ fs
    ∧ ((∀ f ∈ fs, ¬ Answers f) → s'.watch.2 = s.watch.2)) ⟨[], by simp, fun _ => rfl⟩ ?_ h
  rintro s₁ e s₂ ⟨fs, hgot, hwatch⟩ ⟨-, he⟩ hs
  have hsame : s₂.watch = s₁.watch → ∃ fs, s₂.got = s.got ++ fs
      ∧ ((∀ f ∈ fs, ¬ Answers f) → s₂.watch.2 = s.watch.2) := fun h =>
    ⟨fs, (congrArg Prod.fst h).trans hgot, fun hfs => (congrArg Prod.snd h).trans (hwatch hfs)⟩
  cases hs with
  | hear f =>
    refine ⟨fs ++ [f], by simp [heard, hgot], fun hfs => hwatch fun g hg => ?_⟩
    exact hfs g (List.mem_append_left _ hg)
  | @answer f hf =>
    refine ⟨fs ++ [f], by simp [heard, hgot], fun hfs => absurd hf (hfs f ?_)⟩
    exact List.mem_append_right _ (List.mem_singleton_self f)
  | edit h => exact hsame (Prod.ext (congrArg (·.2.2.2.1) h) rfl)
  | beat => exact absurd he hE
  | drain | push => exact hsame rfl
  | fatal code => exact hsame (raiseFatal_watch s₁ code)
  | emit f => exact hsame (emit_watch s₁ _ _ _ _)

/-- A call that is not the timer's, and hears no answer, leaves keepalive alone. -/
theorem Session.call_watch {s : Session} {a} (ht : ∀ t, a ≠ .onTimer t)
    (hf : ∀ f ∈ (s.call a).got.drop s.got.length, ¬ Answers f) :
    (s.call a).watch.2 = s.watch.2 := by
  have hinner : a.Inner → (s.call a).watch.2 = s.watch.2 := by
    intro ha
    have hE : ¬ a.effects .beat := by
      cases a with
      | onTimer t => exact absurd rfl (ht t)
      | _ => exact id
    obtain ⟨fs, h1, h2⟩ :=
      (call_strokes (l := False) (s := s) nofun nofun ha).watch hE
    rw [h1, List.drop_left] at hf
    exact h2 hf
  cases a with
  | sendAdvance n =>
    unfold call muxSendAdvance
    dsimp only
    split <;> rfl
  | nextEvent =>
    unfold call muxNextEvent
    dsimp only
    split <;> rfl
  | _ => exact hinner trivial

end Watch

/-! ### The timer -/

section Timer

variable {s : Session} {t t₀ : UInt64}

/-- A PING sent at `t₀` waits for its answer, in a session with keepalive. -/
structure Waiting (s : Session) (t₀ : UInt64) : Prop where
  alive : s.dead = false
  beats : s.heartbeatMs ≠ 0
  started : s.timerStarted = true
  expects : s.pingOutstanding = true
  since : s.pingSentMs = t₀
  due : s.pingDueMs = t₀ + s.heartbeatMs.toUInt64

/-- The timeout of the last PING has passed. -/
def Expired (s : Session) (t : UInt64) : Prop :=
  s.pingOutstanding = true ∧ s.keepaliveTimeoutMs ≠ 0
    ∧ t - s.pingSentMs ≥ s.keepaliveTimeoutMs.toUInt64

/-- The timer call at `t` sends a PING. -/
def PingsAt (s : Session) (t : UInt64) : Prop :=
  ∃ nonce, (muxOnTimer s t).1.sent = s.sent ++ [pingFrame 0 nonce]

/-- A heartbeat: the PING is sent and the timeout is counted from now, or there is no room for
it and the session fails. -/
structure Beat (s s' : Session) (t : UInt64) : Prop where
  waiting : Waiting s' t
  timeout : s'.keepaliveTimeoutMs = s.keepaliveTimeoutMs
  beats : s'.heartbeatMs = s.heartbeatMs
  room : 20 ≤ s'.out.cap

theorem muxOnTimer_beat (hd : s.dead = false) (hb : s.heartbeatMs ≠ 0)
    (hs : s.timerStarted = true) (he : ¬ Expired s t) (ht : t ≥ s.pingDueMs) :
    Beat s (muxOnTimer s t).1 t
      ∨ (muxOnTimer s t).1.dead = true ∧ (muxOnTimer s t).1.sent = s.sent
        ∧ s.out.cap < s.out.data.length + 20 ∧ (muxOnTimer s t).1.overflow = true := by
  unfold Expired at he
  unfold muxOnTimer
  rw [if_neg (by simp [hd, hb]), if_neg (by simp [hs]), if_neg he, if_pos ht]
  generalize hn : bePut32 (s.pingNonce >>> 32).toUInt32 ++ bePut32 s.pingNonce.toUInt32 = nonce
  have h8 : nonce.length = 8 := by rw [← hn]; rfl
  rcases emit_cases s muxTPing 0 muxSidControl (by rw [h8]; decide) with ⟨out, h, hcap, -⟩
    | ⟨out, h, hcap, -⟩
  · rw [h]
    rw [h8] at hcap
    exact .inl ⟨⟨hd, hb, hs, rfl, rfl, rfl⟩, rfl, rfl, hcap⟩
  · rw [h]
    rw [h8] at hcap
    exact .inr ⟨by simp, by simp, hcap, by simp⟩

theorem muxOnTimer_expired (hd : s.dead = false) (hb : s.heartbeatMs ≠ 0)
    (hs : s.timerStarted = true) (he : Expired s t) :
    (muxOnTimer s t).1 = raiseFatal s muxCodeInternal := by
  unfold Expired at he
  unfold muxOnTimer
  rw [if_neg (by simp [hd, hb]), if_neg (by simp [hs]), if_pos he]

theorem muxOnTimer_early (hd : s.dead = false) (hb : s.heartbeatMs ≠ 0)
    (hs : s.timerStarted = true) (he : ¬ Expired s t) (ht : ¬ t ≥ s.pingDueMs) :
    (muxOnTimer s t).1 = s := by
  unfold Expired at he
  unfold muxOnTimer
  rw [if_neg (by simp [hd, hb]), if_neg (by simp [hs]), if_neg he, if_neg ht]

theorem PingsAt.beat (h : PingsAt s t) : Beat s (muxOnTimer s t).1 t := by
  obtain ⟨nonce, h⟩ := h
  have hne : (muxOnTimer s t).1.sent ≠ s.sent := by simp [h]
  by_cases h1 : s.dead = true ∨ s.heartbeatMs = 0
  · rw [muxOnTimer, if_pos h1] at hne
    exact absurd rfl hne
  rw [not_or, Bool.not_eq_true] at h1
  obtain ⟨hd, hb⟩ := h1
  by_cases hs : s.timerStarted = true
  · by_cases he : Expired s t
    · rw [muxOnTimer_expired hd hb hs he] at hne
      exact absurd (by simp) hne
    by_cases ht : t ≥ s.pingDueMs
    · exact (muxOnTimer_beat hd hb hs he ht).resolve_right fun h => hne h.2.1
    · rw [muxOnTimer_early hd hb hs he ht] at hne
      exact absurd rfl hne
  · rw [muxOnTimer, if_neg (by simp [hd, hb]), if_pos (by simpa using hs)] at hne
    exact absurd rfl hne

end Timer

/-! ### Schedules -/

section Schedule

variable {s s' : Session} {t t₀ now : UInt64}

/-- A call, with the time of the last timer call. -/
def clocked (p : Session × UInt64) (a : Call) : Session × UInt64 :=
  (p.1.call a, match a with | .onTimer t => t | _ => p.2)

/-- The timer's times do not decrease, and no frame heard answers a PING. -/
def Unanswered (p : Session × UInt64) (a : Call) : Prop :=
  (∀ t, a = .onTimer t → p.2 ≤ t) ∧ ∀ f ∈ (p.1.call a).got.drop p.1.got.length, ¬ Answers f

/-- Whatever calls follow the PING of `t₀`, if none hears an answer then the timer call at the end
of the timeout, or any later one, finds the peer dead. -/
def Detects (s : Session) (t₀ : UInt64) : Prop :=
  ∀ s' now t, Reach (ofFun clocked) Unanswered ((muxOnTimer s t₀).1, t₀) (s', now) → now ≤ t →
    t₀.toNat + s.keepaliveTimeoutMs.toNat ≤ t.toNat →
    (muxOnTimer s' t).1.dead = true ∧ ∃ code, .fatal code ∈ (muxOnTimer s' t).1.queued

/-- No heartbeat falls strictly between the PING of `t₀` and the end of its timeout, on a clock of
64 bits: the timeout ends past the clock, or no time is in between, or the heartbeat is as long as
the timeout and its due time does not wrap. -/
def NoBeatBetween (s : Session) (t₀ : UInt64) : Prop :=
  2 ^ 64 ≤ t₀.toNat + s.keepaliveTimeoutMs.toNat ∨ s.keepaliveTimeoutMs.toNat ≤ 1
    ∨ s.keepaliveTimeoutMs.toNat ≤ s.heartbeatMs.toNat
      ∧ t₀.toNat + s.heartbeatMs.toNat < 2 ^ 64

theorem expired_iff (hw : Waiting s t₀) (hT : s.keepaliveTimeoutMs ≠ 0) (ht : t₀ ≤ t) :
    Expired s t ↔ t₀.toNat + s.keepaliveTimeoutMs.toNat ≤ t.toNat := by
  have hsub := UInt64.toNat_sub_of_le t t₀ ht
  rw [UInt64.le_iff_toNat_le] at ht
  unfold Expired
  rw [hw.since, hw.expects, ge_iff_le, UInt64.le_iff_toNat_le, hsub, UInt32.toNat_toUInt64]
  simp only [true_and, hT, ne_eq, not_false_eq_true]
  omega

/-- What holds while the session waits: a call that hears no answer keeps it waiting, or the
session is dead. -/
structure StillWaiting (s₀ : Session) (t₀ : UInt64) (p : Session × UInt64) : Prop where
  wf : p.1.toCore.Wf
  fatal : p.1.dead = true → ∃ code, .fatal code ∈ p.1.queued
  waits : p.1.dead = true ∨ Waiting p.1 t₀ ∧ p.1.keepaliveTimeoutMs = s₀.keepaliveTimeoutMs
    ∧ p.1.heartbeatMs = s₀.heartbeatMs ∧ t₀ ≤ p.2
    ∧ p.2.toNat < t₀.toNat + s₀.keepaliveTimeoutMs.toNat

theorem Session.call_fatal {a} (hw : s.toCore.Wf)
    (hi : s.dead = true → ∃ code, .fatal code ∈ s.queued) :
    (s.call a).dead = true → ∃ code, .fatal code ∈ (s.call a).queued :=
  (call_steps hw (permits_any s a)).inv
    (I := fun c => c.dead = true → ∃ code, .fatal code ∈ c.queued) hi
    fun _ _ _ hi _ hs => hs.fatal_queued hi

theorem Session.call_heartbeatMs {a} (hw : s.toCore.Wf) :
    (s.call a).heartbeatMs = s.heartbeatMs := by
  have h := Steps.config_eq (call_steps hw (permits_any s a))
  simp only [Core.config, Prod.mk.injEq] at h
  exact h.2.2.2.2.2.1

/-- A call that hears no answer leaves the session waiting. -/
theorem Waiting.call {a} (h : Waiting s t₀) (hw : s.toCore.Wf) (ht : ∀ t, a ≠ .onTimer t)
    (hf : ∀ f ∈ (s.call a).got.drop s.got.length, ¬ Answers f) (hd : (s.call a).dead = false) :
    Waiting (s.call a) t₀ ∧ (s.call a).keepaliveTimeoutMs = s.keepaliveTimeoutMs := by
  have hwatch := call_watch ht hf
  have hb := call_heartbeatMs (a := a) hw
  simp only [watch, Prod.mk.injEq] at hwatch
  obtain ⟨h1, h2, h3, h4, h5⟩ := hwatch
  exact ⟨⟨hd, hb ▸ h.beats, h2.trans h.started, h3.trans h.expects, h5.trans h.since,
    by rw [h4, hb, h.due]⟩, h1⟩

/-- Between the PING and the end of its timeout no timer call is a heartbeat, or the heartbeat
is at the time of the PING. -/
theorem StillWaiting.step {s₀ : Session} {p a} (hT : s₀.keepaliveTimeoutMs ≠ 0)
    (hno : NoBeatBetween s₀ t₀) (hend : t₀.toNat + s₀.keepaliveTimeoutMs.toNat < 2 ^ 64)
    (h : StillWaiting s₀ t₀ p) (ha : Unanswered p a) : StillWaiting s₀ t₀ (clocked p a) := by
  obtain ⟨hwf, hfatal, hwaits⟩ := h
  refine ⟨Steps.wf (call_steps hwf (permits_any p.1 a)) hwf,
    call_fatal hwf hfatal, ?_⟩
  by_cases hd : (p.1.call a).dead = true
  · exact .inl hd
  rw [Bool.not_eq_true] at hd
  refine .inr ?_
  have halive := (call_alive hwf hd)
  obtain ⟨hw, hto, hhb, hle, hlt⟩ := hwaits.resolve_left (by simp [halive])
  by_cases ht : ∃ t, a = .onTimer t
  · obtain ⟨t, rfl⟩ := ht
    have ht₀ : t₀ ≤ t := UInt64.le_trans hle (ha.1 t rfl)
    have hT' : p.1.keepaliveTimeoutMs ≠ 0 := hto ▸ hT
    change (muxOnTimer p.1 t).1.dead = false at hd
    change Waiting (muxOnTimer p.1 t).1 t₀ ∧ (muxOnTimer p.1 t).1.keepaliveTimeoutMs = _
      ∧ (muxOnTimer p.1 t).1.heartbeatMs = _ ∧ t₀ ≤ t ∧ t.toNat < _
    by_cases he : Expired p.1 t
    · rw [muxOnTimer_expired halive hw.beats hw.started he] at hd
      simp at hd
    have hbefore := mt (expired_iff hw hT' ht₀).2 he
    rw [hto, Nat.not_le] at hbefore
    by_cases hdue : t ≥ p.1.pingDueMs
    · obtain ⟨hw', hto', hhb', -⟩ := (muxOnTimer_beat halive hw.beats hw.started he
        hdue).resolve_right fun h => by simp [h.1] at hd
      rw [ge_iff_le, hw.due, UInt64.le_iff_toNat_le, UInt64.toNat_add, UInt32.toNat_toUInt64,
        hhb] at hdue
      rw [UInt64.le_iff_toNat_le] at ht₀
      have heq : t = t₀ := by
        apply UInt64.toNat_inj.1
        unfold NoBeatBetween at hno
        omega
      exact ⟨heq ▸ hw', hto'.trans hto, hhb'.trans hhb, UInt64.le_iff_toNat_le.2 ht₀, hbefore⟩
    · rw [muxOnTimer_early halive hw.beats hw.started he hdue]
      exact ⟨hw, hto, hhb, ht₀, hbefore⟩
  · obtain ⟨h1, h2⟩ := hw.call hwf (fun t e => ht ⟨t, e⟩) ha.2 hd
    have hnow : (clocked p a).2 = p.2 := by
      cases a <;> first | rfl | exact absurd ⟨_, rfl⟩ ht
    rw [hnow]
    exact ⟨h1, h2.trans hto, (call_heartbeatMs hwf).trans hhb, hle, hlt⟩

theorem detects_of_noBeatBetween (hwf : s.toCore.Wf) (hp : PingsAt s t₀)
    (hT : s.keepaliveTimeoutMs ≠ 0) (hno : NoBeatBetween s t₀) : Detects s t₀ := by
  intro s' now t hreach hnow ht
  have hend : t₀.toNat + s.keepaliveTimeoutMs.toNat < 2 ^ 64 := by
    have := t.toNat_lt
    omega
  obtain ⟨hw, hto, hhb, -⟩ := hp.beat
  have hpos : 0 < s.keepaliveTimeoutMs.toNat := by
    rw [Nat.pos_iff_ne_zero]
    exact fun h => hT (UInt32.toNat_inj.1 h)
  have h₀ : StillWaiting s t₀ ((muxOnTimer s t₀).1, t₀) := by
    refine ⟨Steps.wf (call_steps hwf (permits_any s (.onTimer t₀))) hwf,
      fun hd => by simp [hw.alive] at hd, .inr ⟨hw, hto, hhb, UInt64.le_refl _, ?_⟩⟩
    dsimp only
    omega
  have hi : StillWaiting s t₀ (s', now) :=
    hreach.inv h₀ fun p a p' hi ha (hs : p' = clocked p a) => hs ▸ hi.step hT hno hend ha
  have hdead : (muxOnTimer s' t).1.dead = true := by
    rcases hi.waits with hd | ⟨hw', hto', -, hle, -⟩
    · rw [muxOnTimer, if_pos (.inl hd)]
      exact hd
    · have he := (expired_iff hw' (hto' ▸ hT) (UInt64.le_trans hle hnow)).2 (hto' ▸ ht)
      rw [muxOnTimer_expired hw'.alive hw'.beats hw'.started he]
      simp
  exact ⟨hdead, call_fatal (a := .onTimer t) hi.wf hi.fatal hdead⟩

/-- The host sends everything and calls the timer at `t`, before the timeout ends: if a heartbeat is
due, the timeout is counted anew. -/
theorem Waiting.rebeat (hw : Waiting s t₀) (hout : s.out.spos ≤ s.out.data.length)
    (hroom : 20 ≤ s.out.cap) (he : ¬ Expired s t) :
    ∃ s', s' = (muxOnTimer (muxSendAdvance s s.out.data.length) t).1 ∧ s'.dead = false
      ∧ s'.out.spos ≤ s'.out.data.length ∧ (t ≥ s.pingDueMs → Beat s s' t) := by
  rw [muxSendAdvance_all hout]
  set s₁ : Session := { s with out := { s.out with data := [], spos := 0 } } with hs₁
  refine ⟨_, rfl, ?_⟩
  by_cases ht : t ≥ s.pingDueMs
  · have hbeat := (muxOnTimer_beat (s := s₁) hw.alive hw.beats hw.started he ht).resolve_right
      fun h => by
        have := h.2.2.1
        simp [hs₁] at this
        omega
    have hout' := (@muxOnTimer_handles s₁ (fun _ _ => True) (fun _ => trivial) t fun _ => trivial).2
    exact ⟨hbeat.waiting.alive, (hout' (Nat.zero_le _)).1, fun _ => ⟨hbeat.waiting, hbeat.timeout,
      hbeat.beats, hbeat.room⟩⟩
  · rw [muxOnTimer_early (s := s₁) hw.alive hw.beats hw.started he ht]
    exact ⟨hw.alive, Nat.zero_le _, fun h => absurd h ht⟩

theorem muxOnTimer_got (s : Session) (t) : (muxOnTimer s t).1.got = s.got := by
  refine call_inv (a := .onTimer t) (I := fun s' => s'.got = s.got) trivial ?_ rfl
  intro s₁ e s₂ hgot he hs
  cases hs with
  | beat => exact hgot
  | fatal code => exact (congrArg Prod.fst (raiseFatal_watch s₁ code)).trans hgot
  | emit f => exact (congrArg Prod.fst (emit_watch s₁ _ _ _ _)).trans hgot
  | _ => exact he.elim

theorem unanswered_onTimer {p : Session × UInt64} (h : p.2 ≤ t) : Unanswered p (.onTimer t) := by
  refine ⟨fun t' e => by cases e; exact h, ?_⟩
  simp [call, muxOnTimer_got]

theorem unanswered_sendAdvance {p} (n : ℕ) : Unanswered p (.sendAdvance n) := by
  refine ⟨fun t' e => (by cases e), ?_⟩
  simp [call, muxSendAdvance_toCore]

theorem exists_beat (hb : s.heartbeatMs ≠ 0) (hno : ¬ NoBeatBetween s t₀) :
    ∃ t : UInt64, t₀.toNat < t.toNat ∧ t.toNat < t₀.toNat + s.keepaliveTimeoutMs.toNat
      ∧ t ≥ t₀ + s.heartbeatMs.toUInt64 := by
  have hpos : 0 < s.heartbeatMs.toNat := by
    rw [Nat.pos_iff_ne_zero]
    exact fun h => hb (UInt32.toNat_inj.1 h)
  have hlt := s.heartbeatMs.toNat_lt
  unfold NoBeatBetween at hno
  have hsum : (t₀ + s.heartbeatMs.toUInt64).toNat
      = (t₀.toNat + s.heartbeatMs.toNat) % 2 ^ 64 := by
    rw [UInt64.toNat_add, UInt32.toNat_toUInt64]
  by_cases hwrap : t₀.toNat + s.heartbeatMs.toNat < 2 ^ 64
  · exact ⟨_, by omega, by omega, UInt64.le_refl _⟩
  · -- the due time has wrapped around the clock, so it has passed
    refine ⟨.ofNat (t₀.toNat + 1), ?_⟩
    rw [ge_iff_le, UInt64.le_iff_toNat_le, hsum, UInt64.toNat_ofNat']
    omega

theorem noBeatBetween_of_detects (hout : s.out.spos ≤ s.out.data.length) (hp : PingsAt s t₀)
    (hT : s.keepaliveTimeoutMs ≠ 0) (h : Detects s t₀) : NoBeatBetween s t₀ := by
  by_contra hno
  obtain ⟨hw₁, hto₁, hhb₁, hroom₁⟩ := hp.beat
  have hout₁ :=
    ((@muxOnTimer_handles s (fun _ _ => True) (fun _ => trivial) t₀ fun _ => trivial).2 hout).1
  obtain ⟨t, h1, h2, hdue⟩ := exists_beat (hhb₁ ▸ hw₁.beats) hno
  have hend : t₀.toNat + s.keepaliveTimeoutMs.toNat < 2 ^ 64 := by
    unfold NoBeatBetween at hno
    omega
  have hend' : (t₀ + s.keepaliveTimeoutMs.toUInt64).toNat
      = t₀.toNat + s.keepaliveTimeoutMs.toNat := by
    rw [UInt64.toNat_add, UInt32.toNat_toUInt64, Nat.mod_eq_of_lt hend]
  have hle : t₀ ≤ t := UInt64.le_iff_toNat_le.2 (Nat.le_of_lt h1)
  have hle' : t ≤ t₀ + s.keepaliveTimeoutMs.toUInt64 :=
    UInt64.le_iff_toNat_le.2 (by rw [hend']; omega)
  generalize hs₁ : (muxOnTimer s t₀).1 = s₁ at hw₁ hto₁ hhb₁ hroom₁ hout₁
  have he₁ : ¬ Expired s₁ t := by
    rw [expired_iff hw₁ (hto₁ ▸ hT) hle, hto₁]
    omega
  obtain ⟨s₂, hs₂, hd₂, hout₂, hbeat⟩ := hw₁.rebeat hout₁ hroom₁ he₁
  obtain ⟨hw₂, hto₂, hhb₂, hroom₂⟩ := hbeat (by rw [hw₁.due, hhb₁]; exact hdue)
  have he₂ : ¬ Expired s₂ (t₀ + s.keepaliveTimeoutMs.toUInt64) := by
    rw [expired_iff hw₂ (by rw [hto₂, hto₁]; exact hT) hle', hto₂, hto₁]
    omega
  obtain ⟨s₃, hs₃, hd₃, -⟩ := hw₂.rebeat hout₂ hroom₂ he₂
  have hreach : Reach (ofFun clocked) Unanswered ((muxOnTimer s t₀).1, t₀)
      (muxSendAdvance s₂ s₂.out.data.length, t) := by
    rw [hs₁]
    refine .step (.step (.step .start (unanswered_sendAdvance s₁.out.data.length) rfl)
      (unanswered_onTimer hle) rfl) (unanswered_sendAdvance s₂.out.data.length) ?_
    rw [hs₂]
    rfl
  obtain ⟨hdead, -⟩ := h _ _ (t₀ + s.keepaliveTimeoutMs.toUInt64) hreach hle' (by rw [hend'])
  rw [← hs₃, hd₃] at hdead
  cases hdead

/-- A peer that does not answer the PING of `t₀` is found dead by the end of the timeout, whatever
the schedule, exactly where no heartbeat falls in between. -/
theorem detects_dead_peer_iff {cfg : MuxConfig} {role : MuxRole} {s₀ : Session}
    (h₀ : muxSessionNew cfg role = some s₀)
    (h : Reach (ofFun Session.call) (fun _ _ => True) s₀ s) (hT : s.keepaliveTimeoutMs ≠ 0)
    (hp : PingsAt s t₀) : Detects s t₀ ↔ NoBeatBetween s t₀ := by
  obtain ⟨hw, hout⟩ := Session.reach_wf h₀ h
  exact ⟨noBeatBetween_of_detects hout hp hT, detects_of_noBeatBetween hw hp hT⟩

/-- A timeout shorter than the heartbeat. -/
theorem detects_dead_peer_iff_shortTimeout :
    Detects ([.onTimer 0].foldl Session.call
      (initSession { heartbeatMs := 10, keepaliveTimeoutMs := 5, maxStreams := 1 } .acceptor))
      10 := by
  have hnew : muxSessionNew { heartbeatMs := 10, keepaliveTimeoutMs := 5, maxStreams := 1 }
      .acceptor = some (initSession
        { heartbeatMs := 10, keepaliveTimeoutMs := 5, maxStreams := 1 } .acceptor) := rfl
  have hping : PingsAt ([.onTimer 0].foldl Session.call (initSession
      { heartbeatMs := 10, keepaliveTimeoutMs := 5, maxStreams := 1 } .acceptor)) 10 :=
    ⟨[0, 0, 0, 0, 0, 0, 0, 0], by decide +kernel⟩
  exact (detects_dead_peer_iff hnew (.foldl [.onTimer 0] (by simp [Allowed])) (by decide)
    hping).2 (.inr (.inr (by decide)))

/-- A host that calls the timer at every deadline it returned, with the default timeout of three
heartbeats: the PING of time 10 is never answered and the peer is not found dead at time 40. -/
theorem dead_peer_undetected :
    ∃ s₀ s₁ s₂ s₃ s₄ : Session,
      muxSessionNew { heartbeatMs := 10, maxStreams := 1 } .acceptor = some s₀
        ∧ muxOnTimer s₀ 0 = (s₁, 10) ∧ muxOnTimer s₁ 10 = (s₂, 20) ∧ muxOnTimer s₂ 20 = (s₃, 30)
        ∧ muxOnTimer s₃ 30 = (s₄, 40) ∧ PingsAt s₁ 10 ∧ s₁.keepaliveTimeoutMs = 30 ∧ s₄.got = []
        ∧ (muxOnTimer s₄ 40).1.dead = false := by
  refine ⟨_, _, _, _, _, rfl, Prod.ext rfl ?_, Prod.ext rfl ?_, Prod.ext rfl ?_, Prod.ext rfl ?_,
    ⟨[0, 0, 0, 0, 0, 0, 0, 0], ?_⟩, ?_, ?_, ?_⟩
  all_goals decide +kernel

end Schedule

/-! ### No false alarm -/

section Alarm

variable {s s' : Session} {t : UInt64} {hb : ℕ}

/-- What the clock alone writes; a wait may end meanwhile. -/
def SameClock (s s' : Session) : Prop :=
  s'.keepaliveTimeoutMs = s.keepaliveTimeoutMs ∧ s'.timerStarted = s.timerStarted
    ∧ s'.pingDueMs = s.pingDueMs ∧ s'.pingSentMs = s.pingSentMs
    ∧ (s'.pingOutstanding = true → s.pingOutstanding = true)

theorem SameClock.of_watch {s₁ : Session} (h : SameClock s s₁) (hw : s'.watch.2 = s₁.watch.2) :
    SameClock s s' := by
  simp only [watch, Prod.mk.injEq] at hw
  obtain ⟨h1, h2, h3, h4, h5⟩ := hw
  unfold SameClock
  rwa [h1, h2, h3, h4, h5]

theorem Stroke.sameClock {s₁ s₂ e} (hs : Stroke s₁ e s₂) (he : e ≠ .beat) (h : SameClock s s₁) :
    SameClock s s₂ := by
  cases hs with
  | hear | edit | drain | push => exact h.of_watch rfl
  | answer => exact ⟨h.1, h.2.1, h.2.2.1, h.2.2.2.1, nofun⟩
  | beat => exact absurd rfl he
  | fatal code => exact h.of_watch (congrArg Prod.snd (raiseFatal_watch s₁ code))
  | emit f => exact h.of_watch (congrArg Prod.snd (emit_watch s₁ _ _ _ _))

theorem Session.call_sameClock {a} (ht : ∀ t, a ≠ .onTimer t) : SameClock s (s.call a) := by
  have hstart : SameClock s s := ⟨rfl, rfl, rfl, rfl, id⟩
  have hinner : a.Inner → SameClock s (s.call a) := by
    intro ha
    refine call_inv ha (fun s₁ e s₂ hi he hs => hs.sameClock ?_ hi) hstart
    rintro rfl
    cases a with
    | onTimer t => exact ht t rfl
    | _ => exact he
  cases a with
  | sendAdvance n =>
    unfold call muxSendAdvance
    dsimp only
    split <;> exact hstart
  | nextEvent =>
    unfold call muxNextEvent
    dsimp only
    split <;> exact hstart
  | _ => exact hinner trivial

/-- The timer's times do not decrease, and each finds the last PING answered or sent less than three
heartbeats ago. -/
def Timely (p : Session × UInt64) : Call → Prop
  | .onTimer t => p.2 ≤ t ∧ (p.1.pingOutstanding = true →
      t.toNat < p.1.pingSentMs.toNat + 3 * p.1.heartbeatMs.toNat)
  | _ => True

/-- Three heartbeats past the timer's time the clock has not wrapped around. -/
def ClockFits (p : Session × UInt64) : Call → Prop
  | .onTimer t => t.toNat + 3 * p.1.heartbeatMs.toNat < 2 ^ 64
  | _ => True

/-- The keepalive of a session with heartbeat `hb`, whose timer was last called at `p.2`. -/
structure Ticking (hb : ℕ) (p : Session × UInt64) : Prop where
  wf : p.1.toCore.Wf
  beats : p.1.heartbeatMs.toNat = hb
  timeout : p.1.keepaliveTimeoutMs.toNat = 3 * hb
  started : p.1.pingOutstanding = true → p.1.timerStarted = true
  sent : p.1.pingOutstanding = true → p.1.pingSentMs ≤ p.2
  due : p.1.pingOutstanding = true → p.1.pingDueMs.toNat = p.1.pingSentMs.toNat + hb
  fits : p.1.pingOutstanding = true → p.1.pingSentMs.toNat + 3 * hb < 2 ^ 64

theorem toNat_add_beats (s : Session) {t : UInt64} (ht : t.toNat + s.heartbeatMs.toNat < 2 ^ 64) :
    (t + s.heartbeatMs.toUInt64).toNat = t.toNat + s.heartbeatMs.toNat := by
  rw [UInt64.toNat_add, UInt32.toNat_toUInt64, Nat.mod_eq_of_lt ht]

/-- While the last PING is less than three heartbeats old its timeout has not passed. -/
theorem Ticking.not_expired {p : Session × UInt64} (h : Ticking hb p)
    (ht : Timely p (.onTimer t)) : ¬ Expired p.1 t := by
  rintro ⟨ho, -, hge⟩
  have hlt := ht.2 ho
  have hle := UInt64.le_trans (h.sent ho) ht.1
  rw [ge_iff_le, UInt64.le_iff_toNat_le, UInt64.toNat_sub_of_le _ _ hle, UInt32.toNat_toUInt64,
    h.timeout] at hge
  rw [UInt64.le_iff_toNat_le] at hle
  have := h.beats
  omega

/-- The timer keeps to the heartbeat, where it is called in time. -/
theorem Ticking.onTimer {p : Session × UInt64} (h : Ticking hb p) (hpos : 0 < hb)
    (ht : Timely p (.onTimer t)) (hc : ClockFits p (.onTimer t))
    (hd' : (muxOnTimer p.1 t).1.dead = false) : Ticking hb ((muxOnTimer p.1 t).1, t) := by
  have hwf' := Steps.wf (call_steps h.wf (permits_any p.1 (.onTimer t))) h.wf
  have hb' : p.1.heartbeatMs ≠ 0 := by
    intro h0
    have := h.beats
    simp [h0] at this
    omega
  have hd : p.1.dead = false := call_alive (a := .onTimer t) h.wf hd'
  have hbeats := h.beats
  have he := h.not_expired ht
  by_cases hs : p.1.timerStarted = true
  · by_cases hdue : t ≥ p.1.pingDueMs
    · obtain ⟨hw, hto, hhb, -⟩ := (muxOnTimer_beat hd hb' hs he hdue).resolve_right
        fun h => by simp [h.1] at hd'
      have hclock : t.toNat + 3 * hb < 2 ^ 64 := hbeats ▸ hc
      have hsent := hw.since
      refine ⟨hwf', by rw [hhb, hbeats], by rw [hto, h.timeout], fun _ => hw.started,
        fun _ => ?_, fun _ => ?_, fun _ => by rw [hsent]; exact hclock⟩
      · rw [hsent]
        exact UInt64.le_refl t
      · rw [hw.due, toNat_add_beats _ (by rw [hhb, hbeats]; omega), hsent, hhb, hbeats]
    · rw [muxOnTimer_early hd hb' hs he hdue]
      exact ⟨h.wf, hbeats, h.timeout, h.started, fun ho => UInt64.le_trans (h.sent ho) ht.1, h.due,
        h.fits⟩
  · have hidle : ¬ p.1.pingOutstanding = true := fun ho => hs (h.started ho)
    have heq : (muxOnTimer p.1 t).1
        = { p.1 with timerStarted := true, pingDueMs := t + p.1.heartbeatMs.toUInt64 } := by
      rw [muxOnTimer, if_neg (by simp [hd, hb']), if_pos (by simpa using hs)]
    rw [heq]
    exact ⟨h.wf, hbeats, h.timeout, fun ho => absurd ho hidle, fun ho => absurd ho hidle,
      fun ho => absurd ho hidle, fun ho => absurd ho hidle⟩

/-- Other calls leave the clock alone. -/
theorem Ticking.call {p : Session × UInt64} {a} (h : Ticking hb p) (ht : ∀ t, a ≠ .onTimer t) :
    Ticking hb (p.1.call a, p.2) := by
  obtain ⟨h1, h2, h3, h4, h5⟩ := call_sameClock (s := p.1) ht
  refine ⟨Steps.wf (call_steps h.wf (permits_any p.1 a)) h.wf,
    (congrArg UInt32.toNat (call_heartbeatMs h.wf)).trans h.beats,
    (congrArg UInt32.toNat h1).trans h.timeout, fun ho => h2.trans (h.started (h5 ho)),
    fun ho => ?_, fun ho => ?_, fun ho => ?_⟩
  · rw [h4]
    exact h.sent (h5 ho)
  · rw [h3, h4]
    exact h.due (h5 ho)
  · rw [h4]
    exact h.fits (h5 ho)

/-- Every timely call keeps the clock going. -/
theorem Ticking.step {p : Session × UInt64} {a} (hpos : 0 < hb)
    (h : p.1.dead = false → Ticking hb p) (hw : p.1.toCore.Wf) (ha : Timely p a)
    (hc : ClockFits p a) (hd : (clocked p a).1.dead = false) : Ticking hb (clocked p a) := by
  have hi := h (call_alive hw hd)
  cases a with
  | onTimer t => exact hi.onTimer hpos ha hc hd
  | _ => exact hi.call nofun

theorem muxOnTimer_snd (hd : s.dead = false) (hb : s.heartbeatMs ≠ 0)
    (hs : s.timerStarted = true) (he : ¬ Expired s t) :
    (muxOnTimer s t).2 = nextDeadline (muxOnTimer s t).1 := by
  unfold Expired at he
  unfold muxOnTimer
  rw [if_neg (by simp [hd, hb]), if_neg (by simp [hs]), if_neg he]

theorem Ticking.lt_nextDeadline {p : Session × UInt64} (h : Ticking hb p)
    (hdue : t < p.1.pingDueMs) : t < nextDeadline p.1 := by
  unfold nextDeadline
  rw [if_neg]
  · exact hdue
  · rintro ⟨ho, -, hlt⟩
    rw [UInt64.lt_iff_toNat_lt, UInt64.toNat_add, UInt32.toNat_toUInt64, h.timeout,
      Nat.mod_eq_of_lt (h.fits ho), h.due ho] at hlt
    omega

theorem lt_add_beats (hpos : 0 < s.heartbeatMs.toNat)
    (ht : t.toNat + 3 * s.heartbeatMs.toNat < 2 ^ 64) : t < t + s.heartbeatMs.toUInt64 := by
  rw [UInt64.lt_iff_toNat_lt, toNat_add_beats s (by omega)]
  omega

/-- The timer does not find the peer dead, and returns a time to come. -/
theorem Ticking.quiet {p : Session × UInt64} (h : Ticking hb p) (hpos : 0 < hb)
    (hd : p.1.dead = false) (ht : Timely p (.onTimer t)) (hc : ClockFits p (.onTimer t)) :
    ((muxOnTimer p.1 t).1.dead = true → (muxOnTimer p.1 t).1.overflow = true)
      ∧ ((muxOnTimer p.1 t).1.dead = false → t < (muxOnTimer p.1 t).2) := by
  have hpos' : 0 < p.1.heartbeatMs.toNat := h.beats ▸ hpos
  have hb' : p.1.heartbeatMs ≠ 0 := fun h0 => by simp [h0] at hpos'
  have he := h.not_expired ht
  by_cases hs : p.1.timerStarted = true
  · have hsnd := muxOnTimer_snd hd hb' hs he
    refine ⟨fun hdead => ?_, fun hd' => ?_⟩
    · by_cases hdue : t ≥ p.1.pingDueMs
      · refine ((muxOnTimer_beat hd hb' hs he hdue).resolve_left fun h => ?_).2.2.2
        rw [h.waiting.alive] at hdead
        cases hdead
      · rw [muxOnTimer_early hd hb' hs he hdue, hd] at hdead
        cases hdead
    · rw [hsnd]
      refine (h.onTimer hpos ht hc hd').lt_nextDeadline ?_
      by_cases hdue : t ≥ p.1.pingDueMs
      · obtain ⟨hw, -, hhb, -⟩ := (muxOnTimer_beat hd hb' hs he hdue).resolve_right
          fun h => by simp [h.1] at hd'
        rw [hw.due]
        exact lt_add_beats (by rw [hhb]; exact hpos') (by rw [hhb]; exact hc)
      · rw [muxOnTimer_early hd hb' hs he hdue]
        exact UInt64.not_le.1 hdue
  · rw [muxOnTimer, if_neg (by simp [hd, hb']), if_pos (by simpa using hs)]
    exact ⟨fun h => by simp [hd] at h, fun _ => lt_add_beats hpos' hc⟩

theorem ticking_start {cfg : MuxConfig} {role} (h₀ : muxSessionNew cfg role = some s)
    (hb : cfg.heartbeatMs ≠ 0) (hT : cfg.keepaliveTimeoutMs = 0)
    (hfits : 3 * cfg.heartbeatMs.toNat < 2 ^ 32) : Ticking cfg.heartbeatMs.toNat (s, 0) := by
  obtain ⟨hstart, hw, -⟩ := muxSessionNew_spec h₀
  obtain ⟨h1, -, -, -, h5⟩ : SameClock (initSession cfg role) s := by
    refine muxSessionNew_inv ⟨rfl, rfl, rfl, rfl, id⟩ (fun s₁ e s₂ hi he hs => ?_) h₀
    exact hs.sameClock (by rintro rfl; exact he) hi
  have hidle : ¬ s.pingOutstanding = true := fun ho => nomatch h5 ho
  refine ⟨hw, ?_, ?_, fun ho => absurd ho hidle, fun ho => absurd ho hidle,
    fun ho => absurd ho hidle, fun ho => absurd ho hidle⟩
  · rw [hstart]
    cases role <;> rfl
  · have hmul : (cfg.heartbeatMs * 3).toNat = 3 * cfg.heartbeatMs.toNat := by
      rw [UInt32.toNat_mul, Nat.mul_comm, Nat.mod_eq_of_lt]
      · rfl
      · exact hfits
    rw [h1, ← hmul]
    simp [initSession, hT, hb]

/-- With a timeout of three heartbeats, left to the session and of 32 bits: where the last PING is
always less than three heartbeats old, and the clock does not wrap, the timer kills the session
only where the output buffer cannot take a PING, and its deadlines are to come. -/
theorem no_false_keepalive_death {cfg : MuxConfig} {role : MuxRole} {s₀ : Session} {now : UInt64}
    (h₀ : muxSessionNew cfg role = some s₀) (hb : cfg.heartbeatMs ≠ 0)
    (hT : cfg.keepaliveTimeoutMs = 0) (hfits : 3 * cfg.heartbeatMs.toNat < 2 ^ 32)
    (h : Reach (ofFun clocked) (fun p a => Timely p a ∧ ClockFits p a) (s₀, 0) (s, now))
    (hd : s.dead = false) (ht : Timely (s, now) (.onTimer t))
    (hc : ClockFits (s, now) (.onTimer t)) :
    ((muxOnTimer s t).1.dead = true → (muxOnTimer s t).1.overflow = true)
      ∧ ((muxOnTimer s t).1.dead = false → t < (muxOnTimer s t).2) := by
  have hpos : 0 < cfg.heartbeatMs.toNat := by
    rw [Nat.pos_iff_ne_zero]
    exact fun h => hb (UInt32.toNat_inj.1 h)
  have hi := h.inv (I := fun p => p.1.toCore.Wf
      ∧ (p.1.dead = false → Ticking cfg.heartbeatMs.toNat p))
    ⟨(muxSessionNew_spec h₀).2.1, fun _ => ticking_start h₀ hb hT hfits⟩
    fun p a p' hi ha (hs : p' = clocked p a) => hs ▸
      ⟨Steps.wf (Session.call_steps hi.1 (permits_any p.1 a)) hi.1,
        Ticking.step hpos hi.2 hi.1 ha.1 ha.2⟩
  exact (hi.2 hd).quiet hpos hd ht hc

/-- A heartbeat of a day: its PING is not answered for two days, and nothing happens. -/
theorem no_false_keepalive_death_day :
    ∃ s, s.dead = false ∧ s.pingOutstanding = true ∧ s.pingSentMs = 86400000
      ∧ ((muxOnTimer s 259200000).1.dead = true → (muxOnTimer s 259200000).1.overflow = true)
      ∧ ((muxOnTimer s 259200000).1.dead = false →
        (259200000 : UInt64) < (muxOnTimer s 259200000).2) := by
  let cfg : MuxConfig := { heartbeatMs := 86400000 }
  let l : List Call := [.onTimer 0, .onTimer 86400000]
  have hnew : muxSessionNew cfg .acceptor = some (initSession cfg .acceptor) := rfl
  have hrun : Allowed clocked (fun p a => Timely p a ∧ ClockFits p a)
      (initSession cfg .acceptor, 0) l :=
    ⟨⟨⟨by decide, nofun⟩, by unfold ClockFits; decide⟩,
      ⟨⟨by decide, nofun⟩, by unfold ClockFits; decide⟩, trivial⟩
  have hd : (l.foldl clocked (initSession cfg .acceptor, 0)).1.dead = false := by decide +kernel
  have hsent : (l.foldl clocked (initSession cfg .acceptor, 0)).1.pingSentMs = 86400000 := by
    decide +kernel
  have hbeat : (l.foldl clocked (initSession cfg .acceptor, 0)).1.heartbeatMs = 86400000 := by
    decide +kernel
  refine ⟨_, hd, by decide +kernel, hsent, no_false_keepalive_death hnew (by decide) rfl
    (by decide) (.foldl l hrun) hd ⟨by decide, fun _ => ?_⟩ ?_⟩
  · dsimp only
    rw [hsent, hbeat]
    decide
  · unfold ClockFits
    dsimp only
    rw [hbeat]
    decide

/-- A heartbeat three of which are more than 32 bits hold: the timeout is 2 milliseconds, and the
timer finds the peer dead 2 milliseconds after its PING. -/
theorem false_keepalive_death : ∃ s₀ s₁ s₂ : Session,
    muxSessionNew { heartbeatMs := 0x55555556 } .acceptor = some s₀
      ∧ muxOnTimer s₀ 0 = (s₁, 0x55555556)
      ∧ muxOnTimer s₁ 0x55555556 = (s₂, 0x55555558) ∧ s₂.pingSentMs = 0x55555556
      ∧ s₂.dead = false ∧ (muxOnTimer s₂ 0x55555558).1.dead = true
      ∧ (muxOnTimer s₂ 0x55555558).1.overflow = false
      ∧ (muxOnTimer s₂ 0x55555558).1.queued = s₂.queued ++ [.fatal muxCodeInternal] := by
  refine ⟨_, _, _, rfl, Prod.ext rfl ?_, Prod.ext rfl ?_, ?_, ?_, ?_, ?_, ?_⟩
  all_goals decide +kernel

end Alarm

end MuxProtocol
