import MuxProtocol.Proofs.Connection

/-!
# The greeting first

A dialer greets when it is made. An acceptor greets when it hears the dialer's greeting; until then
nothing holds its host back from a control frame, and an answer that it never asked for makes it
believe that the greetings are done.
-/

namespace MuxProtocol

open LinearProbe Machine

section Greeting

variable {c c' : Core} {a : Act} {f : Frame}

/-- The session's own greeting. -/
def Core.greeting (c : Core) : Frame := helloFrame c (c.role = .acceptor)

/-- A HELLO_ACK that the session takes for the peer's greeting. -/
def TakesAck (c : Core) (f : Frame) : Prop :=
  c.peerHelloSeen = false ∧ f.type = muxTHelloAck ∧ f.sid = muxSidControl
    ∧ (helloLoop (f.payload.length + 1) (c.hear f) {} f.view 0).2.2 = true

instance TakesAck.decidable (c : Core) (f : Frame) : Decidable (TakesAck c f) :=
  inferInstanceAs (Decidable (_ ∧ _))

/-- What a session that has not greeted may do. -/
def Silent (c : Core) : Act → Prop
  | .control | .credit => False
  | .hear f => c.helloSent = false → ¬ TakesAck c f
  | _ => True

structure Greets (c : Core) : Prop where
  role : c.role = .dialer → c.helloSent = true
  first : c.helloSent = true → c.sent.head? = some c.greeting
  silent : c.helloSent = false → c.sent = [] ∧ (∀ i, c.tab.get i = none)
    ∧ (c.dead = false → c.peerHelloSeen = false)

theorem Step.greeting_eq (h : Step c a c') : c'.greeting = c.greeting := by
  rw [Core.greeting, Core.greeting, helloFrame_congr h.config_eq, h.role_eq]

theorem Step.helloSent_mono (h : Step c a c') (hs : c.helloSent = true) : c'.helloSent = true := by
  cases h with
  | helloBad _ _ hl | hello _ _ _ _ hl | helloReply _ _ _ _ _ hl =>
    simp [hs]
  | _ => simpa using hs

theorem Step.greets_sent (h : Step c a c') (hi : Greets c) (hs : c.helloSent = true) :
    Greets c' := by
  have hs' := h.helloSent_mono hs
  refine ⟨fun _ => hs', fun _ => ?_, fun h => by simp [hs'] at h⟩
  obtain ⟨r, hr⟩ := h.sent_prefix
  have hhead := hi.first hs
  rw [h.greeting_eq, ← hr, List.head?_append, hhead]
  rfl

theorem Core.head_greet (hs : c.sent = []) (hr : c.role = .acceptor) :
    (c.greet true true).sent.head? = some (c.greet true true).greeting := by
  have hcfg : (c.greet true true).config = c.config := rfl
  simp [Core.greeting, helloFrame_congr hcfg, hr, hs]

/-- A session that has not greeted sends its greeting first, or nothing. -/
theorem Step.greets_silent (h : Step c a c') (hi : Greets c) (hs : c.helloSent = false)
    (ha : Silent c a) : Greets c' := by
  obtain ⟨hsent, htab, hseen⟩ := hi.silent hs
  have hrole : c.role = .acceptor := by
    cases hr : c.role with
    | acceptor => rfl
    | dialer => simp [hi.role hr] at hs
  have hno : c.dead = false → c.peerHelloSeen ≠ true := fun hd h => by simp [hseen hd] at h
  have hget : ∀ {i st}, c.tab.get i ≠ some st := fun {i st} h => by simp [htab i] at h
  have hkeep : c'.helloSent = false → c'.sent = c.sent → c'.tab = c.tab →
      (c'.dead = false → c'.peerHelloSeen = c.peerHelloSeen) → Greets c' := by
    intro h1 h2 h3 h4
    refine ⟨fun hr => ?_, fun h' => by simp [h1] at h', fun _ => ⟨h2.trans hsent, ?_, fun hd => ?_⟩⟩
    · rw [h.role_eq, hrole] at hr
      cases hr
    · rw [h3]
      exact htab
    · rw [h4 hd]
      exact hseen (h.alive hd)
  cases h with
  | opened hok | openFailed hok => exact absurd hok.seen (hno hok.alive)
  | block hg | short hg | wrote hg | closedHalf hg | closedFull hg | reset _ _ hg | useOn _ hg
  | creditOn hg | wake hg => exact absurd hg hget
  | use | drain | spill | expire | garbled | offend => exact hkeep hs rfl rfl (by simp)
  | credit | control => exact ha.elim
  | helloBad _ _ hl =>
    exact hkeep hs rfl rfl (by simp)
  | hello hd h0 ht hsid hl hgreet =>
    rcases ht with ht | ht
    · simp [hgreet ht hrole] at hs
    · exact absurd ⟨h0, ht, hsid, by rw [hl]⟩ (ha hs)
  | helloReply ok hd _ _ _ hl =>
    cases ok with
    | false => exact hkeep (by simpa using hs) (by simp) (by simp) (by simp)
    | true =>
      refine ⟨fun _ => by simp, fun _ => ?_, by simp⟩
      exact Core.head_greet hsent hrole
  | refused _ hd h | accepted hd h | acceptedFin hd h | acceptedRst hd h | stray hd h
  | resetBy _ hd h | aborted _ hd h | data hd h | fin hd h | finLast hd h | credited hd h
  | creditedOver hd h | strayCredit hd h | creditedOn hd h | woken hd h | creditedOnOver hd h =>
    exact absurd h.seen (hno hd)
  | pong hd h | ping _ hd h | notice _ hd h => exact absurd h (hno hd)

end Greeting

section Calls

variable {s s' : Session} {a : Call}

/-- A call that leaves the first frame to the greeting: of a session that has not greeted, no
control frame is asked for, no credit comes due, and no HELLO_ACK is heard. -/
def Patient (s : Session) : Call → Prop
  | .recv buf =>
    EachFrame (fun s f => s.helloSent = false → ¬ TakesAck s.toCore f) True buf.length s buf
  | .goaway _ | .sendCapacity _ => s.dead = false → s.helloSent = true
  | .onTimer t => PingDue s t → s.helloSent = true
  | .consume _ n => s.dead = false → n ≠ 0 → CreditDue s.toCore n → s.helloSent = true
  | _ => True

theorem Patient.permits (h : Patient s a) (hd : s.dead = false) (hs : s.helloSent = false) :
    Permits Silent s a := by
  have hs' : s.helloSent ≠ true := by simp [hs]
  refine ⟨fun _ => trivial, fun buf hb => ?_, fun _ _ _ => trivial, fun _ _ _ _ => trivial,
    fun _ _ _ => trivial,
    fun sid n ha hn => ⟨trivial, fun hdue => ?_, fun _ _ _ _ _ => trivial⟩, fun w ha _ => ?_,
    fun r ha _ => ?_, fun t ha hdue => ?_⟩ <;> subst_vars
  · refine EachFrame.imp (fun s f hack c _ hc => ?_) (fun _ _ => trivial) h
    rcases hc with rfl | ht
    · exact hack
    · exact fun _ htake => absurd (htake.2.1.symm.trans ht) (by decide)
  · exact absurd (h hd hn hdue) hs'
  · exact absurd (h hd) hs'
  · exact absurd (h hd) hs'
  · exact absurd (h hdue) hs'

/-- Patient calls leave the first frame to the greeting. -/
theorem Session.call_greets (hw : s.toCore.Wf) (hi : Greets s.toCore) (h : Patient s a) :
    Greets (s.call a).toCore := by
  by_cases hd : s.dead = true
  · rw [Session.call_dead hd]
    exact hi
  rw [Bool.not_eq_true] at hd
  by_cases hs : s.helloSent = true
  · refine ((Session.call_steps hw (permits_any s a)).inv
      (I := fun c => Greets c ∧ c.helloSent = true) ⟨hi, hs⟩ fun c a c' hc _ hstep => ?_).1
    exact ⟨hstep.greets_sent hc.1 hc.2, hstep.helloSent_mono hc.2⟩
  · rw [Bool.not_eq_true] at hs
    refine (Session.call_steps hw (h.permits hd hs)).inv hi fun c a c' hc ha hstep => ?_
    by_cases hsc : c.helloSent = true
    · exact hstep.greets_sent hc hsc
    · exact hstep.greets_silent hc (by simpa using hsc) ha

theorem greets_start (cfg role) : Greets (startCore cfg role) := by
  obtain ⟨-, hnone⟩ := startCore_tab cfg role
  cases role with
  | dialer => exact ⟨fun _ => rfl, fun _ => rfl, fun h => by cases h⟩
  | acceptor => exact ⟨(nomatch ·), (nomatch ·), fun _ => ⟨rfl, hnone, fun _ => rfl⟩⟩

/-- The first frame a session sends is its greeting, and it has greeted once it has seen its peer's,
in every run of calls that leave the greeting the first frame. -/
theorem greeting_first {cfg : MuxConfig} {role : MuxRole} (h₀ : muxSessionNew cfg role = some s)
    (h : Reach (ofFun Session.call) Patient s s') :
    (s'.sent = [] ∨ s'.sent.head? = some s'.toCore.greeting)
      ∧ (s'.peerHelloSeen = true → s'.dead = false → s'.toCore.greeting ∈ s'.sent) := by
  obtain ⟨hc, hw, -⟩ := muxSessionNew_spec h₀
  have hi : s'.toCore.Wf ∧ Greets s'.toCore := by
    refine h.inv (I := fun s => s.toCore.Wf ∧ Greets s.toCore) ⟨hw, hc ▸ greets_start cfg role⟩ ?_
    intro s a s' hi ha hs
    rw [show s' = s.call a from hs]
    exact ⟨Steps.wf (Session.call_steps hi.1 (permits_any s a)) hi.1,
      Session.call_greets hi.1 hi.2 ha⟩
  obtain ⟨-, -, hfirst, hsilent⟩ := hi
  by_cases hs : s'.helloSent = true
  · exact ⟨.inr (hfirst hs), fun _ _ => List.mem_of_head? (hfirst hs)⟩
  · obtain ⟨h1, -, h3⟩ := hsilent (by simpa using hs)
    exact ⟨.inl h1, fun hseen hd => by simp [h3 hd] at hseen⟩

/-- A control frame goes out before the greeting, and an acceptor that hears a HELLO_ACK never
greets. -/
theorem greeting_not_first : ∃ s₀ s₁ s₂, muxSessionNew { maxStreams := 1 } .acceptor = some s₀
    ∧ s₁ = s₀.call (.goaway 0) ∧ s₁.sent = [goawayFrame 0 0]
    ∧ s₂ = s₀.call (.recv (encode (helloFrame s₀.toCore true)))
    ∧ s₂.peerHelloSeen = true ∧ s₂.dead = false ∧ s₂.sent = [] :=
  ⟨initSession { maxStreams := 1 } .acceptor, _, _, rfl, rfl, by decide +kernel, rfl,
    by decide +kernel, by decide +kernel, by decide +kernel⟩

/-- The dialer's greeting, and then a control frame. -/
def goawayRun : List Call :=
  [.recv (encode (helloFrame (initSession {} .dialer).toCore false)), .goaway 0]

theorem greeting_first_goawayRun :
    ∃ s₀ s, muxSessionNew { maxStreams := 1 } .acceptor = some s₀
      ∧ s = goawayRun.foldl Session.call s₀ ∧ s.sent.length = 2
      ∧ s.sent.head? = some s.toCore.greeting := by
  have hnew : muxSessionNew { maxStreams := 1 } .acceptor
      = some (initSession { maxStreams := 1 } .acceptor) := rfl
  have hrecv : EachFrame (fun s f => s.helloSent = false → ¬ TakesAck s.toCore f) True
      (encode (helloFrame (initSession {} .dialer).toCore false)).length
      (initSession { maxStreams := 1 } .acceptor)
      (encode (helloFrame (initSession {} .dialer).toCore false)) := by decide +kernel
  have hsent : ((initSession { maxStreams := 1 } .acceptor).call
      (.recv (encode (helloFrame (initSession {} .dialer).toCore false)))).helloSent = true := by
    decide +kernel
  have hlen : (goawayRun.foldl Session.call (initSession { maxStreams := 1 } .acceptor)).sent.length
      = 2 := by decide +kernel
  obtain ⟨h, -⟩ := greeting_first hnew (.foldl goawayRun ⟨hrecv, fun _ => hsent, trivial⟩)
  refine ⟨_, _, hnew, rfl, hlen, h.resolve_left fun hnil => ?_⟩
  rw [hnil] at hlen
  cases hlen

end Calls

end MuxProtocol
