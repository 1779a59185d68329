import MuxProtocol.Link
import MuxProtocol.Proofs.Peers

/-!
# The bytes between two sessions

What is under way between two ends is the encodings of the frames that one has sent and the other
has not yet processed, however the transport cuts it (`Wire`). So a run of the two ends is a run of
their sessions, frame by frame (`link_steps`).
-/

namespace MuxProtocol

open LinearProbe Machine Party List Session

variable {p q : Party} {s s' : Session}

/-! ### Encodings taken off the front -/

section Front

variable {fs : List Frame} {buf : Bytes} {n : ℕ}

theorem processFrame_takes (hw : s.toCore.Wf) (hd : s.dead = false) (f) :
    (processFrame s f).got = s.got ++ [f] := by
  obtain ⟨⟨c, -, h2, -, h4⟩, -⟩ := processFrame_handles (f := f) hw hd
  rw [h4.got_eq, h2]
  rfl

theorem processFrame_wf (hw : s.toCore.Wf) (hd : s.dead = false) (f) :
    (processFrame s f).toCore.Wf := by
  obtain ⟨⟨c, h1, -, -, h4⟩, -⟩ := processFrame_handles (f := f) hw hd
  exact h4.wf (Steps.wf h1 hw)

/-- Of the front of a list of encodings, `recvLoop` processes whole frames, in order. Where the
session survives, what it counts is their bytes. -/
theorem recvLoop_encodeAll : ∀ (n : ℕ) {s : Session} {fs : List Frame} {buf : Bytes},
    s.toCore.Wf → s.dead = false → (∀ f ∈ fs, f.Sized) → buf <+: encodeAll fs →
    EachFrame (fun s' f => s'.got ++ [f] <+: s.got ++ fs) False n s buf
      ∧ ((recvLoop n s buf).1.dead = false → ∃ gs rest, fs = gs ++ rest
        ∧ (recvLoop n s buf).1.got = s.got ++ gs ∧ (recvLoop n s buf).2 = (encodeAll gs).length
        ∧ encodeAll gs <+: buf)
  | 0, s, fs, buf, _, _, _, _ => ⟨trivial, fun _ => ⟨[], fs, rfl, by simp [recvLoop]⟩⟩
  | n + 1, s, fs, buf, hw, hd, hs, hb => by
    have hstay : ∃ gs rest, fs = gs ++ rest ∧ s.got = s.got ++ gs ∧ 0 = (encodeAll gs).length
        ∧ encodeAll gs <+: buf := ⟨[], fs, rfl, by simp⟩
    unfold EachFrame recvLoop
    by_cases h1 : buf = []
    · rw [if_pos (.inl h1), if_pos h1]
      exact ⟨trivial, fun _ => hstay⟩
    by_cases h2 : s.q.count ≥ muxEventQueueSoftCap
    · rw [if_pos (.inr h2), if_neg h1, if_pos h2]
      exact ⟨trivial, fun _ => hstay⟩
    rw [if_neg (by simp [h1, h2]), if_neg h1, if_neg h2]
    rcases fs with _ | ⟨f, fs⟩
    · exact absurd (prefix_nil.1 hb) h1
    have hf := hs f (by simp)
    rw [encodeAll_cons] at hb
    by_cases hlt : buf.length < (encode f).length
    · have hpre : buf <+: encode f :=
        prefix_of_prefix_length_le hb (prefix_append _ _) (by omega)
      rw [muxParse_short hf hpre hlt]
      exact ⟨trivial, fun _ => hstay⟩
    obtain ⟨rest, rfl⟩ : encode f <+: buf :=
      prefix_of_prefix_length_le (prefix_append _ _) hb (by omega)
    rw [muxParse_encode hf]
    simp only [drop_left]
    have hgot := processFrame_takes hw hd f
    have hpre : s.got ++ [f] <+: s.got ++ f :: fs := by simp
    have ih := fun hd' => recvLoop_encodeAll n (processFrame_wf hw hd f) hd'
      (fun g hg => hs g (by simp [hg])) ((prefix_append_right_inj _).1 hb)
    by_cases hdead : (processFrame s f).dead = true
    · rw [if_pos hdead]
      exact ⟨⟨hpre, by simp [hdead]⟩, by simp [hdead]⟩
    rw [if_neg hdead]
    rw [Bool.not_eq_true] at hdead
    obtain ⟨ih1, ih2⟩ := ih hdead
    refine ⟨⟨hpre, fun _ => ?_⟩, fun hlive => ?_⟩
    · rwa [hgot, append_assoc] at ih1
    · obtain ⟨gs, rest', h3, h4, h5, h6⟩ := ih2 hlive
      refine ⟨f :: gs, rest', by rw [h3]; rfl, by simp [h4, hgot], by simp [h5], ?_⟩
      rw [encodeAll_cons]
      exact (prefix_append_right_inj _).2 h6

theorem framesIn_encodeAll (hs : ∀ f ∈ fs, f.Sized) :
    ∀ {n : ℕ}, (encodeAll fs).length ≤ n → framesIn n (encodeAll fs) = fs := by
  induction fs with
  | nil =>
    rintro (_ | n) -
    · rfl
    · rfl
  | cons f fs ih =>
    intro n hn
    have hpos := length_pos_of_ne_nil (encode_ne_nil f)
    rw [encodeAll_cons, length_append] at hn
    obtain ⟨n, rfl⟩ : ∃ m, n = m + 1 := ⟨n - 1, by omega⟩
    rw [encodeAll_cons, framesIn, muxParse_encode (hs f (by simp))]
    dsimp only
    rw [drop_left, ih (fun g hg => hs g (by simp [hg])) (by omega)]

end Front

/-! ### One end -/

section End

theorem permits_of_host {ok : Core → Act → Prop} {a : Call} (ha : a.OfHost)
    (hok : ∀ c b, b.heard = [] → b ≠ .garble → ok c b) : Permits ok s a := by
  refine ⟨fun c => hok c _ rfl (by simp), fun buf hb => ?_, fun _ _ c => hok c _ rfl (by simp),
    fun _ _ _ c => hok c _ rfl (by simp), fun _ _ c => hok c _ rfl (by simp), fun _ _ _ _ =>
      ⟨hok _ _ rfl (by simp),
      fun _ c => hok c _ rfl (by simp), fun c _ _ _ _ => hok c _ rfl (by simp)⟩,
    fun _ _ _ => hok _ _ rfl (by simp), fun _ _ _ => hok _ _ rfl (by simp),
    fun _ _ _ => hok _ _ rfl (by simp)⟩
  subst hb
  exact ha.elim

theorem Session.call_got {a : Call} (hw : s.toCore.Wf) (ha : a.OfHost) :
    (s.call a).got = s.got := by
  have hp : Permits (fun _ b => b.heard = []) s a := permits_of_host ha fun _ _ h _ => h
  refine (call_steps hw hp).inv (I := fun c => c.got = s.got) rfl fun c b c' hc hb hs => ?_
  rw [hs.got_eq, hb, append_nil, hc]

theorem Call.OfHost.outgoing {a : Call} (ha : a.OfHost) (hw : s.toCore.Wf) :
    Outgoing s (s.call a) :=
  (call_handles hw (permits_any s a) fun n hn => by subst hn; exact ha.elim).2

theorem muxRecv_outgoing (hw : s.toCore.Wf) (buf) : Outgoing s (muxRecv s buf).1 :=
  (call_handles (a := .recv buf) hw (permits_any s _) fun _ h => by cases h).2

theorem muxSendBuf_advance (h : s.out.spos ≤ s.out.data.length) (n : ℕ) :
    (muxSendBuf s).take n ++ muxSendBuf (muxSendAdvance s n) = muxSendBuf s := by
  have hlen : (muxSendBuf s).length = s.out.data.length - s.out.spos := length_drop ..
  unfold muxSendAdvance
  dsimp only
  split
  · rw [take_of_length_le (by omega)]
    exact append_nil _
  · rename_i hne
    have hn : min n (s.out.data.length - s.out.spos) = n := by omega
    rw [hn, muxSendBuf, muxSendBuf, ← drop_drop]
    exact take_append_drop ..

theorem muxSendAdvance_spos (h : s.out.spos ≤ s.out.data.length) (n : ℕ) :
    (muxSendAdvance s n).out.spos ≤ (muxSendAdvance s n).out.data.length := by
  unfold muxSendAdvance
  dsimp only
  split
  · exact Nat.zero_le _
  · dsimp only
    omega

theorem move_session (p q : Party) (m : Party.Move) :
    (p.move q m).1.session = p.session.call (m.toCall p) ∧ (p.move q m).2.session = q.session := by
  cases m with
  | call a h => exact ⟨rfl, rfl⟩
  | transmit n => exact ⟨rfl, rfl⟩
  | receive n =>
    unfold Party.move Move.toCall call
    dsimp only
    split <;> rename_i h <;> rw [h] <;> exact ⟨rfl, rfl⟩

theorem move_receive_dead (hd : p.session.dead = true) (n : ℕ) :
    p.move q (.receive n) = (p, q) := by
  rw [Party.move, muxRecv, if_pos hd]

theorem move_receive (hd : p.session.dead = false) (n : ℕ) :
    p.move q (.receive n) = ({ p with
      session := (recvLoop (p.inbox.take n).length p.session (p.inbox.take n)).1
      inbox := p.inbox.drop (recvLoop (p.inbox.take n).length p.session (p.inbox.take n)).2 },
      q) := by
  rw [Party.move, muxRecv, if_neg (by simp [hd])]

end End

/-! ### The wire -/

section Wire

/-- The frames of `p` on their way to `q`. -/
structure Wire (p q : Party) : Prop where
  wf : p.session.toCore.Wf
  spos : p.session.out.spos ≤ p.session.out.data.length
  sized : ∀ f ∈ p.session.sent, f.Sized
  got : q.session.got <+: p.session.sent
  bytes : q.session.dead = false →
    ∃ fs, p.session.sent = q.session.got ++ fs ∧ p.underWay q = encodeAll fs

theorem Wire.congr {p' q' : Party} (h : Wire p q) (hp : p'.session.toCore = p.session.toCore)
    (hq : q'.session.toCore = q.session.toCore)
    (hs : p'.session.out.spos ≤ p'.session.out.data.length)
    (hb : p'.underWay q' = p.underWay q) : Wire p' q' :=
  ⟨hp ▸ h.wf, hs, hp ▸ h.sized, hp ▸ hq ▸ h.got, by rw [hp, hq, hb]; exact h.bytes⟩

theorem Wire.put {p' q' : Party} (h : Wire p q) (hw : p'.session.toCore.Wf)
    (hout : Outgoing p.session p'.session) (hbox : q'.inbox = q.inbox)
    (hq : q'.session = q.session) : Wire p' q' := by
  obtain ⟨h1, fs, h2, h3, h4⟩ := hout h.spos
  refine ⟨hw, h1, fun f hf => ?_, ?_, fun hd => ?_⟩
  · rw [h2] at hf
    exact (mem_append.1 hf).elim (h.sized f) (h3 f)
  · rw [hq, h2]
    exact h.got.trans (prefix_append _ _)
  · obtain ⟨gs, h5, h6⟩ := h.bytes (hq ▸ hd)
    refine ⟨gs ++ fs, by rw [h2, h5, hq, append_assoc], ?_⟩
    rw [underWay, hbox, muxSendBuf_eq, h4, ← append_assoc, ← muxSendBuf_eq, ← underWay, h6,
      encodeAll_append]

theorem Wire.permits (h : Wire p q) (hw : q.session.toCore.Wf) (hd : q.session.dead = false)
    (m : Party.Move) : Permits (FromPeer · p.session.toCore ·) q.session (m.toCall q) := by
  cases m with
  | call a ha =>
    refine permits_of_host ha fun c b hb hg => ?_
    cases b <;> simp_all [FromPeer, Act.heard]
  | transmit n =>
    rw [show (Party.Move.transmit n).toCall q = .sendAdvance n from rfl]
    exact ⟨fun _ => trivial, by simp, by simp, by simp, by simp, by simp, by simp, by simp, by simp⟩
  | receive n =>
    rw [show (Party.Move.receive n).toCall q = .recv (q.inbox.take n) from rfl]
    refine ⟨fun _ => trivial, fun buf hb => ?_, by simp, by simp, by simp, by simp, by simp,
      by simp, by simp⟩
    obtain ⟨fs, h1, h2⟩ := h.bytes hd
    cases hb
    have hpre : q.inbox.take n <+: encodeAll fs :=
      (List.take_prefix _ _).trans ⟨muxSendBuf p.session, h2⟩
    have hsized : ∀ f ∈ fs, f.Sized := fun f hf => h.sized f (by rw [h1]; simp [hf])
    refine (recvLoop_encodeAll _ hw hd hsized hpre).1.imp (fun s' f hf c hc _ => ?_) (·.elim)
    rw [← h1] at hf
    rwa [FromPeer, hc]

/-- A move is steps of the session that moves, which hears the frames of its peer. -/
theorem Wire.steps (h : Wire p q) (hw : q.session.toCore.Wf) {ok : Core → Act → Prop}
    {m : Party.Move} (hok : q.session.dead = false → Permits ok q.session (m.toCall q)) :
    Reach Step (fun c a => FromPeer c p.session.toCore a ∧ ok c a) q.session.toCore
      (q.move p m).1.session.toCore := by
  rw [(move_session q p m).1]
  by_cases hd : q.session.dead = true
  · rw [call_dead hd]
    exact .start
  · rw [Bool.not_eq_true] at hd
    exact call_steps hw ((h.permits hw hd m).and (hok hd))

/-- What one party sends is on its way to the other, whatever either does. -/
theorem Wire.move (h : Wire p q) (h' : Wire q p) (m) :
    Wire (p.move q m).1 (p.move q m).2 ∧ Wire (p.move q m).2 (p.move q m).1 := by
  have hany : Permits (fun _ _ => True) p.session (m.toCall p) := permits_any _ _
  have hsteps := h'.steps h.wf (fun _ => hany)
  have hw := Steps.wf hsteps h.wf
  have hgot : (p.move q m).1.session.got <+: q.session.sent :=
    hsteps.inv (I := fun c => c.got <+: q.session.sent) h'.got fun c a c' hc ha hs => by
      rw [hs.got_eq]
      cases a with
      | hear f => exact ha.1
      | _ => simpa [Act.heard] using hc
  cases m with
  | call a ha =>
    refine ⟨h.put hw (ha.outgoing h.wf) rfl rfl, h'.wf, h'.spos, h'.sized, hgot, fun hd => ?_⟩
    obtain ⟨fs, h1, h2⟩ := h'.bytes (call_alive h.wf hd)
    refine ⟨fs, ?_, h2⟩
    rwa [show ((p.move q (.call a ha)).1.session.got) = p.session.got from call_got h.wf ha]
  | transmit n =>
    have hcore : (muxSendAdvance p.session n).toCore = p.session.toCore :=
      muxSendAdvance_toCore p.session n
    refine ⟨h.congr hcore rfl (muxSendAdvance_spos h.spos n) ?_, h'.congr rfl hcore h'.spos rfl⟩
    rw [underWay, Party.move]
    dsimp only
    rw [append_assoc, muxSendBuf_advance h.spos]
    rfl
  | receive n =>
    by_cases hd : p.session.dead = true
    · rw [move_receive_dead hd]
      exact ⟨h, h'⟩
    · rw [Bool.not_eq_true] at hd
      rw [move_receive hd] at hw hgot ⊢
      refine ⟨h.put hw ?_ rfl rfl, h'.wf, h'.spos, h'.sized, hgot, fun hlive => ?_⟩
      · have := muxRecv_outgoing h.wf (p.inbox.take n)
        rwa [muxRecv, if_neg (by simp [hd])] at this
      · obtain ⟨fs, h1, h2⟩ := h'.bytes hd
        have hpre : p.inbox.take n <+: encodeAll fs :=
          (List.take_prefix _ _).trans ⟨muxSendBuf q.session, h2⟩
        have hsized : ∀ f ∈ fs, f.Sized := fun f hf => h'.sized f (by rw [h1]; simp [hf])
        obtain ⟨gs, rest, rfl, h3, h4, h5⟩ := (recvLoop_encodeAll _ h.wf hd hsized hpre).2 hlive
        refine ⟨rest, by rw [h1, h3, append_assoc], ?_⟩
        have hle : (encodeAll gs).length ≤ p.inbox.length :=
          (h5.trans (List.take_prefix _ _)).length_le
        rw [underWay]
        dsimp only
        rw [h4, ← drop_append_of_le_length hle]
        change (q.underWay p).drop _ = _
        rw [h2, encodeAll_append, drop_left]

theorem wire_connect {cfg cfg' r r' a b} (ha : muxSessionNew cfg r = some a)
    (hb : muxSessionNew cfg' r' = some b) : Wire ⟨a, [], []⟩ ⟨b, [], []⟩ := by
  obtain ⟨-, hw, hout⟩ := muxSessionNew_spec ha
  obtain ⟨hc, -, -⟩ := muxSessionNew_spec hb
  have hgot : b.got = [] := by rw [hc, startCore_got]
  obtain ⟨h1, fs, h2, h3, h4⟩ := hout (Nat.zero_le _)
  refine ⟨hw, h1, fun f hf => h3 f ?_, ?_, fun _ => ⟨fs, ?_, ?_⟩⟩
  · rw [h2] at hf
    simpa [initSession] using hf
  · simp [hgot]
  · rw [h2, hgot]
    rfl
  · rw [underWay, muxSendBuf_eq, h4]
    rfl

end Wire

/-! ### Runs -/

section Runs

variable {l₀ l : Party × Party}

/-- The two sessions, without their buffers. -/
def cores (l : Party × Party) : Core × Core := (l.1.session.toCore, l.2.session.toCore)

/-- The calls of both ends meet the condition `okc`. -/
def Both (okc : Session → Call → Prop) : Party × Party → Bool × Party.Move → Prop :=
  Beside fun p _ m => okc p.session (m.toCall p)

instance Both.decidable (okc : Session → Call → Prop) [∀ s a, Decidable (okc s a)] :
    ∀ l m, Decidable (Both okc l m)
  | (p, _), (false, m) => inferInstanceAs (Decidable (okc p.session (m.toCall p)))
  | (_, q), (true, m) => inferInstanceAs (Decidable (okc q.session (m.toCall q)))

theorem link_wire {ok : Party × Party → Bool × Party.Move → Prop}
    (h : Reach (ofFun link) ok l₀ l) (h₀ : Wire l₀.1 l₀.2 ∧ Wire l₀.2 l₀.1) :
    Wire l.1 l.2 ∧ Wire l.2 l.1 := by
  refine h.inv (I := fun l => Wire l.1 l.2 ∧ Wire l.2 l.1) h₀ fun l m l' hl _ hs => ?_
  rw [show l' = link l m from hs]
  obtain ⟨_ | _, m⟩ := m
  · exact hl.1.move hl.2 m
  · exact (hl.2.move hl.1 m).symm

/-- A run of a link is a run of the pair of sessions. -/
theorem link_steps {okc : Session → Call → Prop} {ok : Core → Act → Prop}
    (h : Reach (ofFun link) (Both okc) l₀ l) (h₀ : Wire l₀.1 l₀.2 ∧ Wire l₀.2 l₀.1)
    (hok : ∀ s a, s.toCore.Wf → s.dead = false → okc s a → Permits ok s a) :
    Reach (Pair Step) (Beside fun x y a => FromPeer x y a ∧ ok x a) (cores l₀) (cores l) := by
  induction h with
  | start => exact .start
  | @step l l' m hr ha hs ih =>
    obtain ⟨h1, h2⟩ := link_wire hr h₀
    rw [show l' = link l m from hs]
    refine ih.trans ?_
    obtain ⟨_ | _, m⟩ := m
    · have hq : cores (link l (false, m))
          = ((l.1.move l.2 m).1.session.toCore, l.2.session.toCore) :=
        Prod.ext rfl (congrArg toCore (move_session l.1 l.2 m).2)
      rw [hq]
      exact (h2.steps h1.wf fun hd => hok _ _ h1.wf hd ha).left
        (fun x y a => FromPeer x y a ∧ ok x a)
    · have hq : cores (link l (true, m))
          = (l.1.session.toCore, (l.2.move l.1 m).1.session.toCore) :=
        Prod.ext (congrArg toCore (move_session l.2 l.1 m).2) rfl
      rw [hq]
      exact (h1.steps h2.wf fun hd => hok _ _ h2.wf hd ha).right
        (fun x y a => FromPeer x y a ∧ ok x a)

theorem link_sessions {okc : Session → Call → Prop} {I : Session → Prop}
    (h : Reach (ofFun link) (Both okc) l₀ l) (h₀ : Wire l₀.1 l₀.2 ∧ Wire l₀.2 l₀.1)
    (hI : I l₀.1.session ∧ I l₀.2.session)
    (hstep : ∀ s a, s.toCore.Wf → okc s a → I s → I (s.call a)) :
    I l.1.session ∧ I l.2.session := by
  induction h with
  | start => exact hI
  | @step l l' m hr ha hs ih =>
    obtain ⟨h1, h2⟩ := link_wire hr h₀
    rw [show l' = link l m from hs]
    obtain ⟨_ | _, m⟩ := m
    · obtain ⟨e1, e2⟩ := move_session l.1 l.2 m
      exact ⟨e1 ▸ hstep _ _ h1.wf ha ih.1, e2 ▸ ih.2⟩
    · obtain ⟨e1, e2⟩ := move_session l.2 l.1 m
      exact ⟨e2 ▸ ih.1, e1 ▸ hstep _ _ h2.wf ha ih.2⟩

theorem both_any (l m) : Both (fun _ _ => True) l m := by
  obtain ⟨_ | _, m⟩ := m <;> trivial

/-- Two new sessions of opposite roles, that have opened fewer than `2 ^ 31` streams each. -/
theorem link_peers {cfg cfg' r r'} (hr : r ≠ r') {a b} (ha : muxSessionNew cfg r = some a)
    (hb : muxSessionNew cfg' r' = some b) {ok : Party × Party → Bool × Party.Move → Prop}
    (h : Reach (ofFun link) ok (connect a b) l) (hf : Few l.1.session.toCore)
    (hf' : Few l.2.session.toCore) :
    Peers l.1.session.toCore l.2.session.toCore ∧ Peers l.2.session.toCore l.1.session.toCore := by
  obtain ⟨hca, hwa, -⟩ := muxSessionNew_spec ha
  obtain ⟨hcb, hwb, -⟩ := muxSessionNew_spec hb
  have hsteps := link_steps (h.mono fun l m _ => both_any l m)
    ⟨wire_connect ha hb, wire_connect hb ha⟩ fun s a _ _ _ => permits_any s a
  refine Steps.peers hsteps (fun _ _ _ h => h.1) ⟨?_, ?_⟩ hf hf'
  · change Peers a.toCore b.toCore
    rw [hca] at hwa ⊢
    rw [hcb]
    exact peers_start hr hwa
  · change Peers b.toCore a.toCore
    rw [hcb] at hwb ⊢
    rw [hca]
    exact peers_start hr.symm hwb

end Runs

/-! ### The bytes accepted -/

section Accepted

variable {c c' : Core} {a : Act} {sid : UInt32}

theorem bytesOf_msgs_singleton {f : Frame} (h : ∀ m ∈ f.msg sid, m.bytes = []) :
    bytesOf (msgs sid [f]) = [] := by
  rw [msgs_singleton]
  rcases hm : f.msg sid with _ | m
  · rfl
  · simpa using h m hm

theorem Step.bytes_sent (h : Step c a c') (ha : a ≠ .write) :
    bytesOf (msgs sid c'.sent) = bytesOf (msgs sid c.sent) := by
  have hsyn : ∀ id p, bytesOf (msgs sid [synFrame id p]) = [] := fun id p =>
    bytesOf_msgs_singleton (by simp [Msg.bytes])
  have hfin : ∀ id, bytesOf (msgs sid [finFrame id]) = [] := fun id =>
    bytesOf_msgs_singleton (by simp [Msg.bytes])
  have hrst : ∀ id k, bytesOf (msgs sid [rstFrame id k]) = [] := fun id k =>
    bytesOf_msgs_singleton (by simp [Msg.bytes])
  have hcredit : ∀ id k, bytesOf (msgs sid [creditFrame id k]) = [] := fun id k =>
    bytesOf_msgs_singleton (by simp [Msg.bytes])
  have hmute : ∀ {f : Frame}, f.Mute → bytesOf (msgs sid [f]) = [] := fun h =>
    bytesOf_msgs_singleton (by simp [h.msg])
  cases h with
  | wrote => exact absurd rfl ha
  | opened => simp [hsyn]
  | closedHalf | closedFull => simp [hfin]
  | credit | creditOn => simp [hcredit]
  | control _ hc => simp [hmute hc.mute]
  | reset ok | refused ok | aborted ok => cases ok <;> simp [hrst]
  | ping ok => cases ok <;> simp [hmute (mute_pingFrame _ _)]
  | helloReply ok _ _ _ _ hl =>
    cases ok <;> simp [hmute (mute_helloFrame _ _)]
  | _ => simp

theorem Session.call_bytes {a} (hw : s.toCore.Wf) (ha : ∀ sid p, a ≠ .write sid p) :
    bytesOf (msgs sid (s.call a).sent) = bytesOf (msgs sid s.sent) := by
  have hp : Permits (fun _ b => b ≠ .write) s a := by
    refine ⟨by simp, fun _ _ => eachFrame_of_forall (by simp [Hears]) (by simp) _ _ _, by simp,
      fun sid p h => absurd h (ha sid p), by simp, by simp, by simp, by simp, by simp⟩
  exact (call_steps hw hp).inv
    (I := fun c => bytesOf (msgs sid c.sent) = bytesOf (msgs sid s.sent)) rfl
    fun c b c' hc hb hs => (hs.bytes_sent hb).trans hc

theorem bytesOf_dataFrames (id) (ps : List Bytes) :
    bytesOf (msgs sid (ps.map (dataFrame id))) = if id = sid then ps.flatten else [] := by
  induction ps with
  | nil => simp
  | cons p ps ih =>
    rw [map_cons, ← singleton_append, msgs_append, bytesOf_append, ih, msgs_singleton,
      msg_dataFrame]
    split <;> simp [Msg.bytes]

@[simp] theorem noteShort_sent (i : ℕ) (b) : (noteShort s i b).sent = s.sent := by
  unfold noteShort
  split <;> rfl

theorem muxWrite_bytes (hw : s.toCore.Wf) (id p) : bytesOf (msgs sid (muxWrite s id p).1.sent)
      = bytesOf (msgs sid s.sent)
        ++ ((acceptedBy s (.write id p)).filter (·.1 = sid)).flatMap Prod.snd := by
  rw [acceptedBy]
  rcases @muxWrite_cases s (fun _ _ => True) (fun _ => trivial) (fun _ => trivial) hw id p with
    ⟨e, h⟩ | ⟨i, st, hg, -, -, h⟩ | ⟨i, st, s', k, -, rfl, -, h⟩
  · rw [h]
    simp
  · rw [h]
    by_cases hs : id = sid <;> simp [hs]
  · obtain ⟨ps, h1, h2, -⟩ := h.sent
    have hsent : (muxWrite s st.sid p).1.sent = s'.sent := by
      rw [h.eq, noteShort_sent]
      split
      · rw [setBlocked_sent]
      · rfl
    rw [hsent, h1, msgs_append, bytesOf_append, bytesOf_dataFrames, h2, h.eq]
    by_cases hs : st.sid = sid <;> simp [hs]

/-- The bytes accepted on the stream are the bytes sent on it. -/
def Tallies (sid : UInt32) (p : Party) : Prop :=
  p.acceptedOn sid = bytesOf (msgs sid p.session.sent)

/-- A move accepts the bytes that it sends. -/
theorem Tallies.move (h : Tallies sid p) (hw : p.session.toCore.Wf) (m) :
    Tallies sid (p.move q m).1 := by
  unfold Tallies at h ⊢
  rw [(move_session p q m).1]
  cases m with
  | call a ha =>
    have hacc : (p.move q (.call a ha)).1.acceptedOn sid
        = p.acceptedOn sid ++ ((acceptedBy p.session a).filter (·.1 = sid)).flatMap Prod.snd := by
      simp [Party.move, acceptedOn]
    rw [hacc, h]
    by_cases hwr : ∃ id b, a = .write id b
    · obtain ⟨id, b, rfl⟩ := hwr
      exact (muxWrite_bytes hw id b).symm
    · have hnil : acceptedBy p.session a = [] := by
        cases a with
        | write id b => exact absurd ⟨id, b, rfl⟩ hwr
        | _ => rfl
      rw [hnil]
      exact (append_nil _).trans
        (call_bytes hw fun id b h => hwr ⟨id, b, h⟩).symm
  | transmit n => exact h.trans (call_bytes hw (by simp [Move.toCall])).symm
  | receive n =>
    have hacc : (p.move q (.receive n)).1.acceptedOn sid = p.acceptedOn sid := by
      by_cases hd : p.session.dead = true
      · rw [move_receive_dead hd]
      · rw [move_receive (by simpa using hd)]
        rfl
    exact hacc.trans (h.trans (call_bytes hw (by simp [Move.toCall])).symm)

theorem Tallies.peer (h : Tallies sid q) (m) : Tallies sid (p.move q m).2 := by
  have hacc : (p.move q m).2.accepted = q.accepted := by
    cases m with
    | call a ha => rfl
    | transmit n => rfl
    | receive n =>
      unfold Party.move
      dsimp only
      split <;> rfl
  unfold Tallies acceptedOn at h ⊢
  rw [(move_session p q m).2, hacc]
  exact h

theorem link_tallies {l₀ l : Party × Party} {ok : Party × Party → Bool × Party.Move → Prop}
    (h : Reach (ofFun link) ok l₀ l) (h₀ : Wire l₀.1 l₀.2 ∧ Wire l₀.2 l₀.1)
    (ht : Tallies sid l₀.1 ∧ Tallies sid l₀.2) : Tallies sid l.1 ∧ Tallies sid l.2 := by
  induction h with
  | start => exact ht
  | @step l l' m hr _ hs ih =>
    obtain ⟨h1, h2⟩ := link_wire hr h₀
    rw [show l' = link l m from hs]
    obtain ⟨_ | _, m⟩ := m
    · exact ⟨ih.1.move h1.wf m, ih.2.peer m⟩
    · exact ⟨ih.1.peer m, ih.2.move h2.wf m⟩

theorem tallies_new {cfg r} (h : muxSessionNew cfg r = some s) : Tallies sid ⟨s, [], []⟩ := by
  obtain ⟨hc, -⟩ := muxSessionNew_spec h
  have hv := congrArg View.out (view_start cfg r sid)
  rw [← hc] at hv
  exact (congrArg bytesOf hv).symm

/-- Every byte told on a stream was accepted on it at the other end, in order and once; and when
CLOSED is told, all were. Any two sessions of opposite roles, any hosts and any transport of the
bytes, as long as each side opens fewer than `2 ^ 31` streams. -/
theorem stream_fidelity {cfg cfg' : MuxConfig} {a b : Session} {l : Party × Party}
    (ha : muxSessionNew cfg .dialer = some a) (hb : muxSessionNew cfg' .acceptor = some b)
    (h : Reach (ofFun link) (fun _ _ => True) (connect a b) l)
    (hf : Few l.1.session.toCore) (hf' : Few l.2.session.toCore) (sid : UInt32) :
    (streamBytes sid l.2.session.queued <+: l.1.acceptedOn sid
      ∧ (.closed sid ∈ l.2.session.queued →
        streamBytes sid l.2.session.queued = l.1.acceptedOn sid))
    ∧ streamBytes sid l.1.session.queued <+: l.2.acceptedOn sid
      ∧ (.closed sid ∈ l.1.session.queued →
        streamBytes sid l.1.session.queued = l.2.acceptedOn sid) := by
  obtain ⟨h1, h2⟩ := link_peers (by decide) ha hb h hf hf'
  obtain ⟨t1, t2⟩ : Tallies sid l.1 ∧ Tallies sid l.2 :=
    link_tallies h ⟨wire_connect ha hb, wire_connect hb ha⟩ ⟨tallies_new ha, tallies_new hb⟩
  rw [t1, t2]
  by_cases h0 : sid = muxSidControl
  · subst h0
    have hnone : ∀ {x y : Core}, Peers x y → streamBytes muxSidControl x.queued = []
        ∧ .closed muxSidControl ∉ x.queued := fun hx => by
      refine ⟨by simp [streamBytes, hx.control], fun hc => ?_⟩
      have := mem_notices hc (if_pos rfl)
      simp [hx.control] at this
    obtain ⟨n1, n1'⟩ := hnone h1
    obtain ⟨n2, n2'⟩ := hnone h2
    rw [n1, n2]
    exact ⟨⟨List.nil_prefix, fun h => absurd h n2'⟩, List.nil_prefix, fun h => absurd h n1'⟩
  · exact ⟨h2.fidelity h1 h0, h1.fidelity h2 h0⟩

/-- An acceptor just made. -/
def newAcceptor : Session := initSession { maxStreams := 1 } .acceptor

theorem muxSessionNew_newAcceptor :
    muxSessionNew { maxStreams := 1 } .acceptor = some newAcceptor := rfl

/-- The greetings. -/
def greetLink : List (Bool × Party.Move) :=
  [(false, .transmit 200), (true, .receive 200), (true, .transmit 200), (false, .receive 200)]

/-- A stream that the dialer opens, writes to and closes; the frames arrive in pieces. -/
def closedLink : List (Bool × Party.Move) :=
  greetLink ++ [(false, .call (.open []) trivial), (false, .call (.write 1 [7, 8]) trivial),
    (false, .call (.close 1) trivial), (false, .transmit 20), (true, .receive 15),
    (false, .transmit 200), (true, .receive 200)]

theorem stream_fidelity_closedLink :
    ∃ l, l = closedLink.foldl link (connect newDialer newAcceptor)
      ∧ .closed 1 ∈ l.2.session.queued ∧ l.1.acceptedOn 1 = [7, 8]
      ∧ streamBytes 1 l.2.session.queued = [7, 8] := by
  have hrun : Reach (ofFun link) (fun _ _ => True) (connect newDialer newAcceptor)
      (closedLink.foldl link (connect newDialer newAcceptor)) :=
    .foldl closedLink (by simp [closedLink, greetLink, Allowed])
  have hf : (synIds (closedLink.foldl link (connect newDialer newAcceptor)).1.session.sent).length
      < 2 ^ 31 := by decide +kernel
  have hf' : (synIds (closedLink.foldl link (connect newDialer newAcceptor)).2.session.sent).length
      < 2 ^ 31 := by decide +kernel
  have hc : .closed 1
    ∈ (closedLink.foldl link (connect newDialer newAcceptor)).2.session.queued := by
    decide +kernel
  have hacc : (closedLink.foldl link (connect newDialer newAcceptor)).1.acceptedOn 1 = [7, 8] := by
    decide +kernel
  generalize closedLink.foldl link (connect newDialer newAcceptor) = l at hrun hf hf' hc hacc ⊢
  have := stream_fidelity muxSessionNew_newDialer muxSessionNew_newAcceptor hrun hf hf' 1
  exact ⟨l, rfl, hc, hacc, (this.1.2 hc).trans hacc⟩

end Accepted

end MuxProtocol
