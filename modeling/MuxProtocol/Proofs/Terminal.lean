import MuxProtocol.Proofs.Calls
import MuxProtocol.Proofs.Strokes

/-!
# FATAL ends a session

`raise_fatal` marks the session dead, and every call looks at the mark first. But a frame that the
output buffer refuses raises FATAL inside a handler, and some handlers go on. Where the buffer has
room for what those handlers emit, FATAL is the last stroke on the session.
-/

namespace MuxProtocol

open Machine Session Core

variable {s s' : Session} {a : Call} {cfg : MuxConfig} {role : MuxRole}

/-- No FATAL has been queued. -/
structure Standing (s : Session) : Prop where
  alive : s.dead = false
  silent : ∀ code, .fatal code ∉ s.queued

/-- FATAL was the last that happened to the session, but for what its host took from the two
buffers. -/
def Fallen (s : Session) : Prop :=
  ∃ x b code, s.fell = some (x, b) ∧ x.dead = false ∧ (∀ code, .fatal code ∉ x.queued)
    ∧ s.snapshot = { x with dead := true, queued := x.queued ++ [.fatal code] }
    ∧ muxSendBuf s <:+ b

theorem Fallen.dead (h : Fallen s) : s.dead = true := by
  obtain ⟨x, b, code, -, -, -, h, -⟩ := h
  exact congrArg (fun x : Snapshot => x.dead) h

theorem Fallen.congr (h : Fallen s) (hf : s'.fell = s.fell) (hs : s'.snapshot = s.snapshot)
    (hb : muxSendBuf s' <:+ muxSendBuf s) : Fallen s' := by
  obtain ⟨x, b, code, h1, h2, h3, h4, h5⟩ := h
  exact ⟨x, b, code, hf.trans h1, h2, h3, hs.trans h4, hb.trans h5⟩

theorem Standing.congr (h : Standing s) (hd : s'.dead = s.dead) (hq : s'.queued = s.queued) :
    Standing s' :=
  ⟨hd.trans h.alive, hq ▸ h.silent⟩

theorem raiseFatal_fallen (hd : s.dead = false) (hq : ∀ code, .fatal code ∉ s.queued) (code) :
    Fallen (raiseFatal s code) := by
  rw [raiseFatal, if_neg (by simp [hd])]
  exact ⟨s.snapshot, muxSendBuf s, code, rfl, hd, hq, rfl, List.suffix_refl _⟩

theorem Stroke.standing {e} (hs : Stroke s e s') (h : Standing s) : Standing s' ∨ Fallen s' := by
  cases hs with
  | edit hc =>
    exact .inl (h.congr (congrArg (·.1) hc) (congrArg (·.2.2.2.2.2) hc))
  | push hev =>
    refine .inl ⟨h.alive, fun code hm => ?_⟩
    rcases List.mem_append.1 hm with hm | hm
    · exact h.silent code hm
    · exact hev code (List.mem_singleton.1 hm).symm
  | fatal code => exact .inr (raiseFatal_fallen h.alive h.silent code)
  | emit f =>
    unfold MuxProtocol.emit
    split
    · refine .inr (raiseFatal_fallen ?_ ?_ _)
      · exact h.alive
      · exact h.silent
    · split
      · exact .inl (h.congr rfl rfl)
      · exact .inl (h.congr rfl rfl)
  | _ => exact .inl (h.congr rfl rfl)

/-- A sequence of strokes on a session that is alive before each of them. -/
theorem Strokes.standing {E : Effect → Prop} (h : Strokes True E s s') (hs : Standing s) :
    Standing s' ∨ Fallen s' := by
  refine Reach.inv (I := fun s' => Standing s' ∨ Fallen s') (.inl hs) ?_ h
  rintro s₁ e s₂ h₁ ⟨hlive, -⟩ hst
  rcases h₁ with h₁ | h₁
  · exact hst.standing h₁
  · exact absurd (h₁.dead.symm.trans (hlive trivial)) (by decide)

theorem muxSendAdvance_suffix (s) (n : ℕ) : muxSendBuf (muxSendAdvance s n) <:+ muxSendBuf s := by
  unfold muxSendAdvance
  dsimp only
  split
  · exact List.nil_suffix
  · unfold muxSendBuf
    rw [← List.drop_drop]
    exact List.drop_suffix _ _

theorem muxSendAdvance_snapshot (s : Session) (n : ℕ) :
    (muxSendAdvance s n).snapshot = s.snapshot ∧ (muxSendAdvance s n).fell = s.fell := by
  unfold muxSendAdvance
  dsimp only
  split <;> exact ⟨rfl, rfl⟩

theorem muxNextEvent_snapshot (s : Session) :
    (muxNextEvent s).1.snapshot = s.snapshot ∧ (muxNextEvent s).1.fell = s.fell := by
  unfold muxNextEvent
  split <;> exact ⟨rfl, rfl⟩

/-- A call that there is room for leaves the session standing, or it falls and FATAL is the last. -/
theorem Session.call_standing (h : Standing s ∨ Fallen s) (hf : s.Fits a) :
    Standing (s.call a) ∨ Fallen (s.call a) := by
  have hinner : a.Inner → Standing (s.call a) ∨ Fallen (s.call a) := by
    intro ha
    rcases h with h | h
    · exact (call_strokes (l := True) (fun _ => h.alive) (fun _ => hf) ha).standing h
    · rw [call_of_dead h.dead ha]
      exact .inr h
  cases a with
  | sendAdvance n =>
    have hc := muxSendAdvance_toCore s n
    obtain ⟨h1, h2⟩ := muxSendAdvance_snapshot s n
    refine h.imp (fun h => ?_) fun h => h.congr h2 h1 (muxSendAdvance_suffix s n)
    exact h.congr (congrArg dead hc) (congrArg queued hc)
  | nextEvent =>
    have hc := muxNextEvent_toCore s
    obtain ⟨h1, h2⟩ := muxNextEvent_snapshot s
    refine h.imp (fun h => ?_) fun h => h.congr h2 h1 ?_
    · exact h.congr (congrArg dead hc) (congrArg queued hc)
    · change muxSendBuf (muxNextEvent s).1 <:+ muxSendBuf s
      rw [muxSendBuf, muxNextEvent_out]
      exact List.suffix_refl _
  | _ => exact hinner trivial

/-- Every call that would change the session returns `MUX_ERR_STATE` and changes nothing. -/
structure Session.Refuses (s : Session) : Prop where
  recv (buf : Bytes) : muxRecv s buf = (s, .error .state)
  «open» (metadata : Bytes) : muxOpen s metadata = (s, .error .state)
  write (sid : UInt32) (p : Bytes) : muxWrite s sid p = (s, .error .state)
  close (sid : UInt32) : muxClose s sid = (s, .error .state)
  reset (sid code : UInt32) : muxReset s sid code = (s, .error .state)
  consume (sid : UInt32) (n : ℕ) : muxConsume s sid n = (s, .error .state)
  sendCapacity (weight : UInt32) : muxSendCapacity s weight = (s, .error .state)
  goaway (reason : UInt32) : muxGoaway s reason = (s, .error .state)

theorem Session.refuses (h : s.dead = true) : s.Refuses := by
  constructor <;> intros <;>
    simp [muxRecv, muxOpen, muxWrite, muxClose, muxReset, muxConsume, muxSendCapacity, muxGoaway, h]

/-- The law of FATAL, for a state of a run: none while the session is alive; and in a dead session
it is the last event queued, nothing of the session has changed since, no byte was added to its
output, and every call is refused. -/
structure FatalIsTerminal (s : Session) : Prop where
  alive : s.dead = false → ∀ code, .fatal code ∉ s.queued
  dead : s.dead = true → Fallen s ∧ s.Refuses

theorem fatal_is_terminal {s₀ : Session} (h₀ : muxSessionNew cfg role = some s₀)
    (h : Reach (ofFun Session.call) Session.Fits s₀ s) : FatalIsTerminal s := by
  have hnew : Standing s₀ := by
    have hc := (muxSessionNew_spec h₀).1
    have hq : s₀.queued = [] := by
      rw [hc]
      cases role <;> rfl
    refine ⟨?_, fun code => by simp [hq]⟩
    rw [hc]
    cases role <;> rfl
  have hs : Standing s ∨ Fallen s := by
    refine h.inv (I := fun s => Standing s ∨ Fallen s) (.inl hnew) fun s a s' hi hf hcall => ?_
    cases hcall
    exact Session.call_standing hi hf
  refine ⟨fun hd => ?_, fun hd => ⟨?_, Session.refuses hd⟩⟩
  · rcases hs with hs | hs
    · exact hs.silent
    · exact absurd (hs.dead.symm.trans hd) (by decide)
  · exact hs.resolve_left fun hs => by simp [hs.alive] at hd

/-- A stream opened, written and reset, the peer's byte on a stream that it has closed answered with
a reset, and a keepalive timeout. -/
theorem fatal_is_terminal_timeout :
    ∃ s₀ s, muxSessionNew { heartbeatMs := 1, keepaliveTimeoutMs := 1 } .acceptor = some s₀
      ∧ Reach (ofFun Session.call) Session.Fits s₀ s ∧ s.dead = true ∧ s.sent.length = 5
      ∧ FatalIsTerminal s := by
  let l : List Call := [.recv (encode
        { type := muxTHelloAck, flags := 0, sid := 0, payload := [255, 255, 0, 0] }
      ++ encode { type := muxTData, flags := muxFSyn ||| muxFFin, sid := 1, payload := [] }
      ++ encode { type := muxTData, flags := 0, sid := 1, payload := [7] }),
    .open [1], .write 2 [3, 4], .consume 1 5, .reset 2 0, .onTimer 0, .onTimer 1, .onTimer 2]
  have hnew : muxSessionNew { heartbeatMs := 1, keepaliveTimeoutMs := 1 } .acceptor
      = some (initSession { heartbeatMs := 1, keepaliveTimeoutMs := 1 } .acceptor) := rfl
  have hl : Reach (ofFun Session.call) Session.Fits
      (initSession { heartbeatMs := 1, keepaliveTimeoutMs := 1 } .acceptor) _ :=
    Reach.foldl l (by decide +kernel)
  exact ⟨_, _, hnew, hl, by decide +kernel, by decide +kernel, fatal_is_terminal hnew hl⟩

/-- The peer's greeting, its stream 1 opened and closed in one frame, and a byte on it: the reset
for that byte is past the ceiling, so FATAL is raised, and `STREAM_RESET` is queued behind it. -/
theorem reset_after_fatal : ∃ s₀ s, muxSessionNew { maxOutBuffer := 12 } .acceptor = some s₀
    ∧ Reach (ofFun Session.call) (fun _ _ => True) s₀ s
    ∧ s.queued = [.peerHello 0 0 0 [] [] [], .opened 1 [], .closed 1, .fatal muxCodeInternal,
      .reset 1 0] := by
  let l : List Call := [.recv (encode
      { type := muxTHelloAck, flags := 0, sid := 0, payload := [255, 255, 0, 0] }
    ++ encode { type := muxTData, flags := muxFSyn ||| muxFFin, sid := 1, payload := [] }
    ++ encode { type := muxTData, flags := 0, sid := 1, payload := [7] })]
  refine ⟨_, _, rfl, Reach.foldl l (by simp [l, Allowed]), ?_⟩
  decide +kernel

end MuxProtocol
