import MuxProtocol.Proofs.Store
import MuxProtocol.Proofs.Tlv
import MuxProtocol.Lib.Run

/-!
# The calls of a session are steps of the protocol

Each handler of a frame is one step, but for a credit that reopens the connection window, whose
wake-ups come first; each call of the host is a sequence of steps. Beside the steps, what a call
puts out is the encoding of the frames it sends (`Outgoing`).
-/

namespace MuxProtocol

open LinearProbe Machine Session Core

/-- The state a refinement starts from: the table is sound, and the blobs of the greeting fit. -/
structure Core.Wf (c : Core) : Prop where
  tab : TabWf c.tab
  peerId : c.peerId.length ≤ helloBlobMax
  auth : c.auth.length ≤ helloBlobMax
  nonce : c.nonce.length ≤ helloBlobMax

/-! ### The greeting -/

section Hello

theorem length_helloFrame {c : Core} (h : c.Wf) (ack) :
    (helloFrame c ack).payload.length ≤ 1024 := by
  have h1 := h.peerId
  have h2 := h.auth
  have h3 := h.nonce
  unfold helloBlobMax at h1 h2 h3
  unfold helloFrame helloTlvs
  split_ifs <;> simp [length_tlvBytes] <;> omega

theorem sendHello_eq {s : Session} (h : s.toCore.Wf) (ack) :
    sendHello s ack = match emit s (if ack then muxTHelloAck else muxTHello) 0 muxSidControl
        (helloFrame s.toCore ack).payload with
      | (s, .error e) => (s, .error e)
      | (s, .ok ()) => ({ s with helloSent := true }, .ok ()) := by
  have hfit : 0 + ((helloTlvs s.toCore).flatMap tlvBytes).length
      ≤ (List.replicate 1024 (0 : UInt8)).length := by
    rw [List.length_replicate, Nat.zero_add]
    exact length_helloFrame h ack
  unfold sendHello
  rw [putTlvs_eq _ _ _ hfit]
  dsimp only
  rw [take_splice hfit, List.take_zero, List.nil_append]
  rfl

theorem sendHello_spec {s : Session} (h : s.toCore.Wf) (ack) :
    ∃ ok, (sendHello s ack).1.toCore = s.toCore.greet ack ok ∧ Outgoing s (sendHello s ack).1
      ∧ ((sendHello s ack).2 = .ok () ↔ ok = true) := by
  have hp : (helloFrame s.toCore ack).payload.length ≤ muxMaxPayload :=
    Nat.le_trans (length_helloFrame h ack) (by decide)
  rw [sendHello_eq h]
  rcases he : emit s (if ack then muxTHelloAck else muxTHello) 0 muxSidControl
    (helloFrame s.toCore ack).payload with ⟨s₁, e | ⟨⟩⟩
  · refine ⟨false, ?_, emit_outgoing_of hp he, by simp⟩
    rw [emit_error hp he]
    simp [greet, spill]
  · refine ⟨true, ?_, (emit_outgoing_of hp he).congr rfl rfl, by simp⟩
    change { s₁.toCore with helloSent := true } = _
    rw [emit_ok hp he]
    simp [greet, put, helloFrame]

/-- A greeting changes what is known of the peer and the connection window, and no more. -/
theorem helloLoop_core : ∀ (n : ℕ) (c : Core) (e : HelloInfo) (p : Option Bytes) (k : ℕ),
    ∃ pm pi sw, (helloLoop n c e p k).1 = c.setPeer pm pi sw ∧ (sw = c.sessSendWin ∨ 0 ≤ sw)
  | 0, c, e, p, k => ⟨_, _, _, rfl, .inl rfl⟩
  | n + 1, c, e, p, k => by
    unfold helloLoop
    split
    · exact ⟨_, _, _, rfl, .inl rfl⟩
    · exact ⟨_, _, _, rfl, .inl rfl⟩
    · rename_i t val k' _
      have htlv : ∃ pm pi sw, (helloTlv c e t val).1 = c.setPeer pm pi sw
          ∧ (sw = c.sessSendWin ∨ 0 ≤ sw) := by
        unfold helloTlv
        repeat' split
        all_goals first
          | exact ⟨_, _, _, rfl, .inl rfl⟩
          | exact ⟨_, _, _, rfl, .inr (by omega)⟩
      obtain ⟨pm, pi, sw, h1, h2⟩ := htlv
      obtain ⟨pm', pi', sw', h1', h2'⟩ := helloLoop_core n (helloTlv c e t val).1
        (helloTlv c e t val).2 p k'
      refine ⟨pm', pi', sw', ?_, ?_⟩
      · rw [h1', h1]
        rfl
      · rw [h1] at h2'
        dsimp only [setPeer] at h2'
        omega

end Hello

/-! ### What a step keeps -/

section Keeps

variable {c c' : Core} {a : Act}

theorem helloLoop_eq {n k : ℕ} {e e' p b} (h : helloLoop n c e p k = (c', e', b)) :
    ∃ pm pi sw, c' = c.setPeer pm pi sw ∧ (sw = c.sessSendWin ∨ 0 ≤ sw) := by
  have hc := helloLoop_core n c e p k
  rwa [h] at hc

theorem Step.config_eq (h : Step c a c') : c'.config = c.config := by
  cases h <;>
    simp only [Core.config, Core.push, Core.put, Core.hear, Core.die, Core.spill, Core.tryPut,
      Core.edit, Core.drop, Core.block, Core.unblock, Core.debit, Core.deliver, Core.alloc,
      Core.seeSid, Core.setTab, Core.noteAbort, Core.raise, Core.use, Core.grant, Core.drain,
      Core.setPeer, Core.seeHello, Core.greet]

theorem Step.role_eq (h : Step c a c') : c'.role = c.role := congrArg Prod.fst h.config_eq

theorem Step.tabWf (h : Step c a c') (hw : TabWf c.tab) : TabWf c'.tab := by
  have hins : ∀ {st t i}, stInsert c.tab st = (t, some i) → TabWf t :=
    fun hi => (Inserted.of_eq hw hi).wf
  cases h with
  | opened _ hi => exact hins hi
  | openFailed _ hi => exact (hins hi).remove _
  | accepted _ _ _ _ _ hi => exact hins hi
  | acceptedFin _ _ _ _ _ hi => exact (hins hi).modify _ fun _ => rfl
  | acceptedRst _ _ _ _ hi => exact (hins hi).remove _
  | block | short | wrote | closedHalf | useOn | creditOn | wake | data | creditedOn
  | creditedOnOver => exact hw.modify _ fun _ => rfl
  | fin | woken => refine (hw.modify _ ?_).modify _ ?_ <;> exact fun _ => rfl
  | closedFull | reset | resetBy | aborted => exact hw.remove _
  | finLast => refine (hw.modify _ ?_).remove _; exact fun _ => rfl
  | _ => exact hw

theorem Step.wf (h : Step c a c') (hw : c.Wf) : c'.Wf := by
  have hc := h.config_eq
  simp only [config, Prod.mk.injEq] at hc
  obtain ⟨-, -, -, -, -, -, h1, h2, h3⟩ := hc
  exact ⟨h.tabWf hw.tab, h1 ▸ hw.peerId, h2 ▸ hw.auth, h3 ▸ hw.nonce⟩

theorem Steps.wf {ok : Core → Act → Prop} (h : Reach Step ok c c') (hw : c.Wf) : c'.Wf :=
  h.inv hw fun _ _ _ hw _ hs => hs.wf hw

theorem Step.alive (h : Step c a c') (hd : c'.dead = false) : c.dead = false := by
  cases h with
  | openFailed | spill | expire | garbled | offend | creditedOver | creditedOnOver | helloBad =>
    cases hd
  | refused _ h | reset _ _ _ h | aborted _ h | ping _ h | hello h | helloReply _ h => exact h
  | _ => simpa using hd

theorem prefix_ite {α : Type*} {p : Prop} [Decidable p] {l l₁ l₂ : List α} (h₁ : l <+: l₁)
    (h₂ : l <+: l₂) : l <+: if p then l₁ else l₂ := by
  split <;> assumption

theorem Step.queued_prefix (h : Step c a c') : c.queued <+: c'.queued := by
  have hr := List.prefix_refl c.queued
  have hone : ∀ e, c.queued <+: c.queued ++ [e] := fun e => List.prefix_append _ _
  cases h with
  | helloReply =>
    exact prefix_ite (hone _) ((hone _).trans (List.prefix_append _ _))
  | openFailed | spill | expire | garbled | offend | creditedOver | creditedOnOver | reset | refused
  | ping | data | helloBad =>
    exact prefix_ite hr (hone _)
  | aborted | fin | finLast =>
    exact (prefix_ite hr (hone _)).trans (List.prefix_append _ _)
  | _ => simp

theorem Steps.config_eq {ok : Core → Act → Prop} (h : Reach Step ok c c') :
    c'.config = c.config :=
  h.inv (I := fun c' => c'.config = c.config) rfl fun _ _ _ hi _ hs => hs.config_eq.trans hi

theorem Step.fatal_queued (h : Step c a c') (hi : c.dead = true → ∃ code, .fatal code ∈ c.queued)
    (hd : c'.dead = true) : ∃ code, .fatal code ∈ c'.queued := by
  by_cases hc : c.dead = true
  · obtain ⟨code, hm⟩ := hi hc
    exact ⟨code, h.queued_prefix.subset hm⟩
  cases h with
  | helloReply => exact ⟨muxCodeInternal, by simp_all⟩
  | _ => simp_all

end Keeps

/-! ### Frames -/

section Handlers

variable {s : Session} {f : Frame}

/-- The session with the frame in its history. -/
def Session.heard (s : Session) (f : Frame) : Session := { s with got := s.got ++ [f] }

theorem Outgoing.heard {s s' : Session} {f} (h : Outgoing (s.heard f) s') : Outgoing s s' :=
  h

/-- A handler does one step. -/
def Handles (s : Session) (f : Frame) (s' : Session) : Prop :=
  Step s.toCore (.hear f) s'.toCore ∧ Outgoing s s'

theorem raiseFatal_handles {code} (hd : s.dead = false) (h : Offends s.toCore f code) :
    Handles s f (raiseFatal (s.heard f) code) := by
  refine ⟨?_, .of_eq (by simp [heard]) (by simp [heard])⟩
  rw [raiseFatal_toCore]
  exact .offend hd h

theorem onPing_handles (hd : s.dead = false) (hseen : s.peerHelloSeen = true)
    (ht : f.type = muxTPing) : Handles s f (onPing (s.heard f) f) := by
  unfold onPing
  split_ifs with h1 h2
  · exact raiseFatal_handles hd (.ping hseen ht h1)
  · exact ⟨.pong hd hseen ht, .of_eq rfl rfl⟩
  · have h8 : f.payload.length = 8 := by
      by_contra h
      exact h1 (.inr h)
    have hp : f.payload.length ≤ muxMaxPayload := by
      rw [h8]
      decide
    refine ⟨?_, .heard (emit_outgoing hp)⟩
    rw [emit_toCore _ _ _ _ hp]
    exact .ping _ hd hseen ht h8

theorem onGoaway_handles (hd : s.dead = false) (hseen : s.peerHelloSeen = true)
    (ht : f.type = muxTGoaway) : Handles s f (onGoaway (s.heard f) f) := by
  unfold onGoaway
  split_ifs with h1 h2
  · exact raiseFatal_handles hd (.goaway hseen ht (.inl h1))
  · exact raiseFatal_handles hd (.goaway hseen ht (.inr h2))
  · exact ⟨.notice _ hd hseen (.inl ⟨rfl, ht⟩), .of_eq rfl rfl⟩

theorem onCapacity_handles (hd : s.dead = false) (hseen : s.peerHelloSeen = true)
    (ht : f.type = muxTCapacity) : Handles s f (onCapacity (s.heard f) f) := by
  unfold onCapacity
  split_ifs with h1 h2
  · exact raiseFatal_handles hd (.capacity hseen ht (.inl h1))
  · exact raiseFatal_handles hd (.capacity hseen ht (.inr h2))
  · exact ⟨.notice _ hd hseen (.inr ⟨rfl, ht⟩), .of_eq rfl rfl⟩

/-- A HELLO is taken, or is an offence. -/
theorem onHello_handles (hw : s.toCore.Wf) (hd : s.dead = false) {ack}
    (ht : f.type = if ack then muxTHelloAck else muxTHello) :
    Handles s f (onHello (s.heard f) f ack) := by
  have ht' : f.type = muxTHello ∨ f.type = muxTHelloAck := by
    cases ack <;> simp_all
  unfold onHello
  split_ifs with h1 h2
  · exact raiseFatal_handles hd (.hello ht' (.inl h1))
  · exact raiseFatal_handles hd (.hello ht' (.inr h2))
  have hseen : s.peerHelloSeen = false := by simpa [heard] using h2
  have hsid : f.sid = muxSidControl := by simpa using h1
  rw [show (s.heard f).toCore = s.toCore.hear f from rfl]
  rcases hl : helloLoop (f.payload.length + 1) (s.toCore.hear f) {} f.view 0 with ⟨c, e, b⟩
  obtain ⟨pm, pi, sw, rfl, -⟩ := helloLoop_eq hl
  cases b with
  | false =>
    refine ⟨?_, .of_eq (by simp [heard]) (by simp)⟩
    rw [raiseFatal_toCore]
    exact .helloBad hd hseen hl
  | true =>
  dsimp only
  set s₁ := evqPush
    { s.heard f with toCore := { (s.toCore.hear f).setPeer pm pi sw with peerHelloSeen := true } }
    e.event with hs₁
  have hout : Outgoing s s₁ := .of_eq rfl (by simp [hs₁])
  split_ifs with h3
  · obtain ⟨h4, h5, h6⟩ := h3
    have hw₁ : s₁.toCore.Wf := by
      simp only [hs₁, evqPush_toCore]
      exact ⟨hw.tab, hw.peerId, hw.auth, hw.nonce⟩
    obtain ⟨ok, h7, h8, -⟩ := sendHello_spec hw₁ true
    refine ⟨?_, hout.trans h8⟩
    rw [h7]
    exact .helloReply ok hd hseen (by simpa [h4] using ht) hsid hl (by simpa [hs₁] using h5)
      (by simpa [hs₁] using h6)
  · refine ⟨?_, hout⟩
    refine .hello hd hseen ht' hsid hl fun h4 h5 => ?_
    by_contra h6
    have hack : ack = false := by
      cases ack
      · rfl
      · rw [h4] at ht
        exact absurd ht (by decide)
    exact h3 ⟨by simp [hack], by simpa [hs₁] using h5, by simpa [hs₁] using h6⟩

theorem le_maxPayload_rst (code) : (bePut32 code).length ≤ muxMaxPayload := by
  simp [muxMaxPayload]

/-- A SYN opens a stream, is refused, or is an offence. -/
theorem onSyn_handles (hw : s.toCore.Wf) (hd : s.dead = false) (hseen : s.peerHelloSeen = true)
    (ht : f.type = muxTData) (hsyn : f.has muxFSyn = true) :
    Handles s f (onSyn (s.heard f) f) := by
  have hoff := fun h => raiseFatal_handles (f := f) hd (.syn hseen ht hsyn h)
  unfold onSyn
  rw [if_neg (by simpa [heard] using hseen)]
  split_ifs with h1 h2 h3 h4 h5 h6 h7 h8
  · exact hoff (.inl h1)
  · exact hoff (.inr (.inl h2))
  · exact hoff (.inr (.inr (.inl h3)))
  · exact hoff (.inr (.inr (.inr (.inl h4))))
  · exact hoff (.inr (.inr (.inr (.inr h5))))
  all_goals
    have hok : SynOk s.toCore f :=
      ⟨hseen, ht, hsyn, not_not.1 h1, h2, by simpa [heard] using h3,
        UInt32.not_le.1 h4, Nat.not_lt.1 h5⟩
  · refine ⟨?_, (Outgoing.heard (emit_outgoing (le_maxPayload_rst _))).congr rfl rfl⟩
    change Step _ _ { (emit (s.heard f) muxTData muxFRst f.sid (bePut32 muxCodeRefused)).1.toCore
      with maxRemoteSid := f.sid }
    rw [emit_toCore _ _ _ _ (le_maxPayload_rst _)]
    exact .refused _ hd hok h6
  all_goals
    have hadm : Admits s.toCore := by
      rw [not_or] at h6
      exact ⟨Nat.not_le.1 h6.1, by simpa [heard] using h6.2⟩
    obtain ⟨t, i, hi, -⟩ := stInsert_inserted hw.tab (freshStream s.toCore f.sid)
    rw [show stInsert (s.heard f).tab (freshStream (s.heard f).toCore f.sid) = _ from hi]
  · refine ⟨?_, .of_eq (by simp [heard]) (by simp [heard])⟩
    rw [stRemove_toCore]
    exact .acceptedRst hd hok hadm h7 hi
  · exact ⟨.acceptedFin hd hok hadm (by simpa using h7) h8 hi, .of_eq rfl rfl⟩
  · exact ⟨.accepted hd hok hadm (by simpa using h7) (by simpa using h8) hi, .of_eq rfl rfl⟩

theorem abortStream_handles {i : ℕ} {st code} (hd : s.dead = false) (hon : DataOn s.toCore f)
    (hf : stFind s.tab f.sid = some (i, st)) (hr : f.has muxFRst = false) (hne : f.payload ≠ [])
    (ha : Aborts s.toCore f st code) : Handles s f (abortStream (s.heard f) f.sid i code) := by
  unfold abortStream
  set s₁ : Session := { s.heard f with aborts := (s.heard f).aborts ++ [code] } with hs₁
  have h₁ : Outgoing s s₁ := .of_eq rfl rfl
  have hout : Outgoing s (emit s₁ muxTData muxFRst f.sid (bePut32 code)).1 :=
    h₁.trans (emit_outgoing (le_maxPayload_rst code))
  refine ⟨?_, hout.congr (by simp) (by simp)⟩
  rw [stRemove_toCore, evqPush_toCore, emit_toCore _ _ _ _ (le_maxPayload_rst code)]
  exact .aborted _ hd hon hf hr hne ha

/-- The payload of a frame that fits is delivered, and without a payload nothing is. -/
theorem deliver_toCore {i : ℕ} {st} (hg : s.tab.get i = some st) :
    (if f.payload.length > 0 then deliver s f i else s).toCore = s.toCore.deliver i f := by
  by_cases hne : f.payload = []
  · have : s.tab.modify i (fun st => { st with recvWin := st.recvWin - f.payload.length
                                               delivered := st.delivered + f.payload.length })
        = s.tab := Table.modify_id_of_get hg (by simp [hne])
    simp only [Core.deliver, this]
    simp [hne]
  · rw [if_pos (List.length_pos_of_ne_nil hne)]
    simp [deliver, Core.deliver, Core.push, hne]

/-- DATA on a live stream is delivered, ends it, or breaks it. -/
theorem onLive_handles {i : ℕ} {st} (hw : s.toCore.Wf) (hd : s.dead = false)
    (hon : DataOn s.toCore f) (hf : stFind s.tab f.sid = some (i, st)) :
    Handles s f (onLive (s.heard f) f i st) := by
  have hg := (stFind_some hw.tab hf).1
  have hpos : f.payload.length > 0 ↔ f.payload ≠ [] := List.length_pos_iff
  unfold onLive
  by_cases h1 : f.has muxFRst = true
  · rw [if_pos h1]
    refine ⟨?_, .of_eq (by simp [heard]) (by simp [heard])⟩
    rw [stRemove_toCore]
    exact .resetBy _ hd hon hf h1
  rw [if_neg h1]
  rw [Bool.not_eq_true] at h1
  by_cases h2 : f.payload.length > 0 ∧ st.life = .hclRemote
  · rw [if_pos h2]
    exact abortStream_handles hd hon hf h1 (hpos.1 h2.1) (.life h2.2)
  rw [if_neg h2]
  by_cases h3 : f.payload.length > 0 ∧ f.payload.length > (s.heard f).sessRecvWin
  · rw [if_pos h3]
    exact raiseFatal_handles hd
      (.overrun hon hf h1 (hpos.1 h3.1) (fun hl => h2 ⟨h3.1, hl⟩) h3.2)
  rw [if_neg h3]
  by_cases h4 : f.payload.length > 0 ∧ f.payload.length > st.recvWin
  · rw [if_pos h4]
    refine abortStream_handles hd hon hf h1 (hpos.1 h4.1)
      (.overrun (fun hl => h2 ⟨h4.1, hl⟩) ?_ h4.2)
    exact Int.not_lt.1 fun hlt => h3 ⟨h4.1, hlt⟩
  rw [if_neg h4]
  have hfit : Fits s.toCore f st :=
    ⟨fun hne hl => h2 ⟨hpos.2 hne, hl⟩, fun hne => Int.not_lt.1 fun hlt => h3 ⟨hpos.2 hne, hlt⟩,
      fun hne => Int.not_lt.1 fun hlt => h4 ⟨hpos.2 hne, hlt⟩⟩
  have hdel : _ = (s.toCore.hear f).deliver i f := deliver_toCore (s := s.heard f) hg
  set s₁ := if f.payload.length > 0 then deliver (s.heard f) f i else s.heard f with hs₁
  have hout : Outgoing s s₁ := by
    refine .of_eq ?_ ?_ <;> rw [hs₁] <;> split <;> rfl
  by_cases h5 : f.has muxFFin = true
  · rw [if_pos h5]
    unfold onFin
    by_cases hl : st.life = .hclLocal
    · rw [if_pos hl]
      refine ⟨?_, hout.congr (by simp) (by simp)⟩
      rw [stRemove_toCore, evqPush_toCore, hdel]
      exact .finLast hd hon hf h1 hfit h5 hl
    · rw [if_neg hl]
      refine ⟨?_, hout.congr rfl rfl⟩
      rw [evqPush_toCore, hdel]
      exact .fin hd hon hf h1 hfit h5 hl
  · rw [if_neg h5]
    refine ⟨?_, hout⟩
    rw [hdel]
    exact .data hd hon hf h1 hfit (by simpa using h5)

theorem onData_handles (hw : s.toCore.Wf) (hd : s.dead = false) (hseen : s.peerHelloSeen = true)
    (ht : f.type = muxTData) : Handles s f (onData (s.heard f) f) := by
  unfold onData
  by_cases hsyn : f.has muxFSyn = true
  · rw [if_pos hsyn]
    exact onSyn_handles hw hd hseen ht hsyn
  · rw [if_neg hsyn]
    rw [Bool.not_eq_true] at hsyn
    by_cases hz : f.sid = muxSidControl
    · rw [if_pos hz]
      exact raiseFatal_handles hd (.zero hseen ht hsyn hz)
    · rw [if_neg hz]
      have hon : DataOn s.toCore f := ⟨hseen, ht, hsyn, hz⟩
      rw [show (s.heard f).tab = s.tab from rfl]
      rcases hf : stFind s.tab f.sid with _ | ⟨i, st⟩
      · exact ⟨.stray hd hon hf, .of_eq rfl rfl⟩
      · exact onLive_handles hw hd hon hf

/-- The wake-up of slot `i` in the sweep. -/
def Core.wakeAt (c : Core) (i : ℕ) : Core :=
  match c.tab.get i with
  | none => c
  | some st =>
    if st.sendBlocked = true ∧ 0 < st.sendWin then (c.unblock i).push (.writable st.sid) else c

theorem wakeSlot_toCore (s : Session) (i : ℕ) : (wakeSlot s i).toCore = s.toCore.wakeAt i := by
  unfold wakeSlot wakeAt
  rcases hg : s.tab.get i with _ | st
  · rfl
  · dsimp only
    by_cases hb : st.sendBlocked = true ∧ 0 < st.sendWin
    · rw [if_pos hb, if_pos hb, evqPush_toCore, setBlocked_false s hg hb.1]
    · rw [if_neg hb, if_neg hb]

theorem wakeSlot_out (s : Session) (i : ℕ) :
    (wakeSlot s i).out = s.out ∧ (wakeSlot s i).sent = s.sent := by
  unfold wakeSlot
  split
  · exact ⟨rfl, rfl⟩
  · split
    · simp
    · exact ⟨rfl, rfl⟩

/-- The credit of a frame to the connection. -/
def Core.reopen (c : Core) (f : Frame) : Core := (c.hear f).raise (beLoad32 f.payload).toNat

theorem Core.wakeAt_reopen (c : Core) (f) (i : ℕ) :
    (c.reopen f).wakeAt i = (c.wakeAt i).reopen f := by
  unfold wakeAt
  change (match c.tab.get i with
    | none => _
    | some st => _) = _
  rcases c.tab.get i with _ | st
  · rfl
  · dsimp only
    split <;> rfl

/-- Slot `i` holds no stream that could go on but is marked as blocked. -/
def Core.Awake (c : Core) (i : ℕ) : Prop :=
  ∀ st, c.tab.get i = some st → st.sendBlocked = true → st.sendWin ≤ 0

theorem Core.awake_wakeAt (c : Core) (i : ℕ) : (c.wakeAt i).Awake i := by
  intro st hg hb
  unfold wakeAt at hg
  rcases hs : c.tab.get i with _ | st₀
  · rw [hs] at hg
    rw [hs] at hg
    cases hg
  · rw [hs] at hg
    dsimp only at hg
    split at hg
    · rw [push_tab, unblock_tab, Table.get_modify_self hs] at hg
      cases hg
      cases hb
    · rename_i hn
      rw [hs] at hg
      cases hg
      by_contra hpos
      exact hn ⟨hb, Int.not_le.1 hpos⟩

theorem Core.Awake.wakeAt {c : Core} {i : ℕ} (h : c.Awake i) (j : ℕ) : (c.wakeAt j).Awake i := by
  intro st hg hb
  unfold Core.wakeAt at hg
  split at hg
  · exact h st hg hb
  · split at hg
    · rcases Table.get_modify hg with hg | ⟨r, -, rfl⟩
      · exact h st hg hb
      · cases hb
    · exact h st hg hb

/-- What the wake-ups of a sweep leave alone. -/
structure Core.SameBut (c c' : Core) : Prop where
  got : c'.got = c.got
  dead : c'.dead = c.dead
  seen : c'.peerHelloSeen = c.peerHelloSeen
  sess : c'.sessSendWin = c.sessSendWin

theorem Core.sameBut_wakeAt (c : Core) (i : ℕ) : c.SameBut (c.wakeAt i) := by
  unfold wakeAt
  split
  · exact ⟨rfl, rfl, rfl, rfl⟩
  · split <;> exact ⟨rfl, rfl, rfl, rfl⟩

/-- The wake-ups of a credit, one stream after the other. -/
theorem sweep_steps (ok : Core → Act → Prop) (htau : ∀ c, ok c .tau) :
    ∀ (l : List ℕ) (c : Core) (s : Session), s.toCore = c.reopen f →
      ∃ c', Reach Step ok c c' ∧ (l.foldl wakeSlot s).toCore = c'.reopen f ∧ c.SameBut c'
        ∧ (∀ i, c.Awake i ∨ i ∈ l → c'.Awake i)
        ∧ (l.foldl wakeSlot s).out = s.out ∧ (l.foldl wakeSlot s).sent = s.sent
  | [], c, s, hs => ⟨c, .start, hs, ⟨rfl, rfl, rfl, rfl⟩, by simp, rfl, rfl⟩
  | j :: l, c, s, hs => by
    have hs' : (wakeSlot s j).toCore = (c.wakeAt j).reopen f := by
      rw [wakeSlot_toCore, hs, wakeAt_reopen]
    have hstep : Reach Step ok c (c.wakeAt j) := by
      unfold wakeAt
      rcases hg : c.tab.get j with _ | st
      · exact .start
      · dsimp only
        split
        · rename_i hb
          exact .single (htau c) (.wake hg hb.1 hb.2)
        · exact .start
    obtain ⟨c', h1, h2, h3, h4, h5, h6⟩ := sweep_steps ok htau l (c.wakeAt j) (wakeSlot s j) hs'
    have hsame := c.sameBut_wakeAt j
    refine ⟨c', hstep.trans h1, h2, ⟨h3.got.trans hsame.got, h3.dead.trans hsame.dead,
      h3.seen.trans hsame.seen, h3.sess.trans hsame.sess⟩, fun i hi => ?_,
      h5.trans (wakeSlot_out s j).1, h6.trans (wakeSlot_out s j).2⟩
    apply h4
    rcases hi with hi | hi
    · exact .inl (hi.wakeAt j)
    · rcases List.mem_cons.1 hi with rfl | hi
      · exact .inl (c.awake_wakeAt i)
      · exact .inr hi

/-- A frame is one step, behind the wake-ups it causes if it is a credit. -/
def HandlesFrame (s : Session) (f : Frame) (s' : Session) : Prop :=
  (∃ c, Reach Step (fun _ a => a = .tau) s.toCore c ∧ c.got = s.got
    ∧ (c = s.toCore ∨ f.type = muxTWindowUpdate) ∧ Step c (.hear f) s'.toCore) ∧ Outgoing s s'

theorem Handles.frame {s'} (h : Handles s f s') : HandlesFrame s f s' :=
  ⟨⟨s.toCore, .start, rfl, .inl rfl, h.1⟩, h.2⟩

theorem sweep_handles (hw : s.toCore.Wf) (hd : s.dead = false) (hon : CreditOn s.toCore f)
    (hz : f.sid = muxSidControl)
    (hlim : s.sessSendWin + (beLoad32 f.payload).toNat ≤ windowLimit) :
    HandlesFrame s f (sweep { s with toCore := s.toCore.reopen f }) := by
  obtain ⟨c', h1, h2, h3, h4, h5, h6⟩ := sweep_steps (fun _ a => a = .tau) (fun _ => rfl)
    (List.range s.tab.cap) s.toCore { s with toCore := s.toCore.reopen f } rfl
  refine ⟨⟨c', h1, h3.got, .inr hon.type, ?_⟩, .of_eq h5 h6⟩
  change Step c' (.hear f) ((List.range s.tab.cap).foldl wakeSlot _).toCore
  rw [h2]
  have hon' : CreditOn c' f := ⟨h3.seen.trans hon.seen, hon.type, hon.four⟩
  refine .credited (h3.dead.trans hd) hon' hz ?_ fun _ _ => .inr ?_
  · rwa [h3.sess]
  · intro i st hg
    refine h4 i ?_ st hg
    by_cases hi : i < s.tab.cap
    · exact .inr (List.mem_range.2 hi)
    · refine .inl fun st' hg' => ?_
      rw [Table.get, hw.tab.beyond i (Nat.not_lt.1 hi)] at hg'
      cases hg'

/-- A credit to the stream of slot `i`; `s₁` is the session with its window raised. -/
theorem creditOn_handles {i : ℕ} {st : MuxStream} {s₁ : Session} (hw : s.toCore.Wf)
    (hd : s.dead = false) (hon : CreditOn s.toCore f) (hz : f.sid ≠ muxSidControl)
    (hf : stFind s.tab f.sid = some (i, st))
    (hc : s₁.toCore = (s.toCore.hear f).edit i fun st =>
      { st with sendWin := st.sendWin + (beLoad32 f.payload).toNat }) (ho : s₁.out = s.out) :
    Handles s f
      (if st.sendWin + (beLoad32 f.payload).toNat > windowLimit then
        raiseFatal s₁ muxCodeFlowControl
      else if st.sendBlocked ∧ st.sendWin + (beLoad32 f.payload).toNat > 0 ∧ s₁.sessSendWin > 0 then
        evqPush (setBlocked s₁ i false) (.writable f.sid)
      else s₁) := by
  have hout : Outgoing s s₁ := .of_eq ho (by rw [hc]; rfl)
  by_cases hlim : st.sendWin + (beLoad32 f.payload).toNat > windowLimit
  · rw [if_pos hlim]
    refine ⟨?_, hout.congr (by simp) (by simp)⟩
    rw [raiseFatal_toCore, hc]
    exact .creditedOnOver hd hon hz hf hlim
  rw [if_neg hlim]
  by_cases hb : st.sendBlocked ∧ st.sendWin + (beLoad32 f.payload).toNat > 0 ∧ s₁.sessSendWin > 0
  · rw [if_pos hb]
    refine ⟨?_, hout.congr (by simp) (by simp)⟩
    have hg : s₁.tab.get i
        = some { st with sendWin := st.sendWin + (beLoad32 f.payload).toNat } := by
      rw [hc]
      exact Table.get_modify_self (stFind_some hw.tab hf).1 _
    rw [evqPush_toCore, setBlocked_false s₁ hg hb.1, hc]
    exact .woken hd hon hz hf (Int.not_lt.1 hlim) hb.1
  · rw [if_neg hb]
    refine ⟨?_, hout⟩
    have hsess : s₁.sessSendWin = s.sessSendWin := by
      rw [hc]
      rfl
    rw [hc]
    refine .creditedOn hd hon hz hf (Int.not_lt.1 hlim) fun h1 h2 => ?_
    exact Int.not_lt.1 fun h3 => hb ⟨h1, h2, hsess ▸ h3⟩

theorem onWindowUpdate_handles (hw : s.toCore.Wf) (hd : s.dead = false)
    (hseen : s.peerHelloSeen = true) (ht : f.type = muxTWindowUpdate) :
    HandlesFrame s f (onWindowUpdate (s.heard f) f) := by
  unfold onWindowUpdate
  by_cases h4 : f.payload.length ≠ 4
  · rw [if_pos h4]
    exact (raiseFatal_handles hd (.credit hseen ht h4)).frame
  rw [if_neg h4]
  have hon : CreditOn s.toCore f := ⟨hseen, ht, not_not.1 h4⟩
  by_cases hz : f.sid = muxSidControl
  · rw [if_pos hz]
    by_cases hlim : (s.heard f).sessSendWin + (beLoad32 f.payload).toNat > windowLimit
    · rw [if_pos hlim]
      refine Handles.frame ⟨?_, .of_eq (by simp [heard]) (by simp [heard])⟩
      rw [raiseFatal_toCore]
      exact .creditedOver hd hon hz hlim
    rw [if_neg hlim]
    by_cases hb : (s.heard f).sessSendWin ≤ 0
        ∧ (s.heard f).sessSendWin + (beLoad32 f.payload).toNat > 0 ∧ (s.heard f).blockedCount > 0
    · rw [if_pos hb]
      exact sweep_handles hw hd hon hz (Int.not_lt.1 hlim)
    · rw [if_neg hb]
      refine Handles.frame ⟨.credited hd hon hz (Int.not_lt.1 hlim) fun h1 h2 => .inl ?_,
        .of_eq rfl rfl⟩
      exact Nat.eq_zero_of_not_pos fun h3 => hb ⟨h1, h2, h3⟩
  · rw [if_neg hz]
    refine Handles.frame ?_
    rw [show (s.heard f).tab = s.tab from rfl]
    rcases hf : stFind s.tab f.sid with _ | ⟨i, st⟩
    · exact ⟨.strayCredit hd hon hz hf, .of_eq rfl rfl⟩
    exact creditOn_handles hw hd hon hz hf rfl rfl

/-- Every frame is one step of the protocol. -/
theorem processFrame_handles (hw : s.toCore.Wf) (hd : s.dead = false) :
    HandlesFrame s f (processFrame s f) := by
  change HandlesFrame s f (if ¬ (s.heard f).peerHelloSeen ∧ f.type ≠ muxTHello
    ∧ f.type ≠ muxTHelloAck then _ else _)
  by_cases hearly : ¬ (s.heard f).peerHelloSeen ∧ f.type ≠ muxTHello ∧ f.type ≠ muxTHelloAck
  · rw [if_pos hearly]
    obtain ⟨h1, h2, h3⟩ := hearly
    exact (raiseFatal_handles hd (.early (by simpa [heard] using h1) h2 h3)).frame
  have hseen : f.type ≠ muxTHello → f.type ≠ muxTHelloAck → s.peerHelloSeen = true := by
    intro h1 h2
    by_contra h3
    exact hearly ⟨h3, h1, h2⟩
  have hsome : ∀ {ty : UInt8}, f.type = ty → ty ≠ muxTHello → ty ≠ muxTHelloAck →
      s.peerHelloSeen = true := by
    rintro ty rfl
    exact hseen
  split_ifs with h1 h2 h3 h4 h5 h6 h7
  · exact (onData_handles hw hd (hsome h1 (by decide) (by decide)) h1).frame
  · exact onWindowUpdate_handles hw hd (hsome h2 (by decide) (by decide)) h2
  · exact (onPing_handles hd (hsome h3 (by decide) (by decide)) h3).frame
  · exact (onGoaway_handles hd (hsome h4 (by decide) (by decide)) h4).frame
  · exact (onHello_handles hw hd (by simpa using h5)).frame
  · exact (onHello_handles hw hd (by simpa using h6)).frame
  · exact (onCapacity_handles hd (hsome h7 (by decide) (by decide)) h7).frame
  · exact (raiseFatal_handles hd (.type h1 h2 h3 h4 h5 h6 h7)).frame

end Handlers

end MuxProtocol
