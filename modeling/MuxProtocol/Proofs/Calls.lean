import MuxProtocol.Proofs.Refine

/-!
# The calls of the host

What `processFrame_handles` says of one frame, for every call: the loop of `mux_recv`, the loop of
`mux_write` over the chunks, and the crediting of `mux_consume`. `Session.call_steps` puts them
together.
-/

namespace MuxProtocol

open LinearProbe Machine List Table Session Core

variable {s s' s'' : Session} {ok : Core → Act → Prop}

/-- A call does steps, and puts out the frames they send. -/
def HandlesBy (ok : Core → Act → Prop) (s s' : Session) : Prop :=
  Reach Step ok s.toCore s'.toCore ∧ Outgoing s s'

namespace HandlesBy

theorem refl (s) : HandlesBy ok s s := ⟨.start, .refl s⟩

theorem trans (h : HandlesBy ok s s') (h' : HandlesBy ok s' s'') : HandlesBy ok s s'' :=
  ⟨h.1.trans h'.1, h.2.trans h'.2⟩

theorem of_eq (hc : s'.toCore = s.toCore) (ho : s'.out = s.out) : HandlesBy ok s s' :=
  ⟨hc ▸ .start, .of_eq ho (by rw [hc])⟩

theorem wf (h : HandlesBy ok s s') (hw : s.toCore.Wf) : s'.toCore.Wf := Steps.wf h.1 hw

end HandlesBy

section Recv

variable {f : Frame}

/-- What `ok` has to allow for a frame. -/
def Hears (ok : Core → Act → Prop) (s : Session) (f : Frame) : Prop :=
  ∀ c : Core, c.got = s.got → c = s.toCore ∨ f.type = muxTWindowUpdate → ok c (.hear f)

theorem HandlesFrame.by (h : HandlesFrame s f s') (htau : ∀ c, ok c .tau) (hear : Hears ok s f) :
    HandlesBy ok s s' := by
  obtain ⟨⟨c, h1, h2, h3, h4⟩, h5⟩ := h
  have h1' : Reach Step ok s.toCore c := h1.mono fun c a (ha : a = .tau) => ha ▸ htau c
  exact ⟨.step h1' (hear c h2 h3) h4, h5⟩

/-- The loop of `mux_recv` hears the frames one after the other. -/
theorem recvLoop_handles (htau : ∀ c, ok c .tau) : ∀ (n : ℕ) {s : Session} (buf : Bytes),
    EachFrame (Hears ok) (∀ c, ok c .garble) n s buf → s.toCore.Wf → s.dead = false →
    HandlesBy ok s (recvLoop n s buf).1
  | 0, s, _, _, _, _ => .refl s
  | n + 1, s, buf, hear, hw, hd => by
    unfold EachFrame at hear
    unfold recvLoop
    by_cases h1 : buf = []
    · rw [if_pos h1]
      exact .refl s
    rw [if_neg h1]
    by_cases h2 : s.q.count ≥ muxEventQueueSoftCap
    · rw [if_pos h2]
      exact .refl s
    rw [if_neg h2]
    rw [if_neg (by simp [h1, h2])] at hear
    rcases hp : muxParse buf with e | ⟨f, used⟩
    · rw [hp] at hear
      cases e with
      | short => exact .refl s
      | _ =>
        refine ⟨?_, .of_eq (by simp) (by simp)⟩
        dsimp only
        rw [raiseFatal_toCore]
        exact .single (hear _) (.garbled hd)
    · rw [hp] at hear
      have hf := (processFrame_handles hw hd).by htau hear.1
      dsimp only
      split
      · exact hf
      · rename_i hlive
        rw [Bool.not_eq_true] at hlive
        exact hf.trans (recvLoop_handles htau n _ (hear.2 hlive) (hf.wf hw) hlive)

theorem muxRecv_handles (htau : ∀ c, ok c .tau) (hw : s.toCore.Wf) (buf : Bytes)
    (hear : EachFrame (Hears ok) (∀ c, ok c .garble) buf.length s buf) :
    HandlesBy ok s (muxRecv s buf).1 := by
  unfold muxRecv
  split
  · exact .refl s
  · rename_i hlive
    exact recvLoop_handles htau _ _ hear hw (by simpa using hlive)

end Recv

section Open

theorem muxOpen_ok {metadata} (hok : OpenOk s.toCore metadata) {t} {i : ℕ}
    (hi : stInsert s.tab (freshStream s.toCore s.nextLocalSid) = (t, some i))
    (he : emit { s with nextLocalSid := s.nextLocalSid + 2, tab := t } muxTData muxFSyn
      s.nextLocalSid metadata = (s', .ok ())) :
    muxOpen s metadata = (s', .ok s.nextLocalSid) := by
  have hi' : stInsert s.tab (freshStream { s.toCore with nextLocalSid := s.nextLocalSid + 2 }
      s.nextLocalSid) = (t, some i) := hi
  unfold muxOpen
  rw [if_neg (by simp [hok.alive]), if_neg (by simp [hok.seen]), if_neg (by simp [hok.staying]),
    if_neg (Nat.not_lt.2 hok.bounded), if_neg (Nat.not_le.2 hok.room)]
  dsimp only
  rw [if_neg hok.sid_ne]
  simp only [hi', he]

/-- The outcomes of `mux_open`: a check fails and nothing has happened, or a record is made and its
SYN is sent, or the output buffer refuses the SYN. -/
theorem muxOpen_cases (hw : s.toCore.Wf) (metadata) :
    (¬ OpenOk s.toCore metadata ∧ ∃ e, muxOpen s metadata = (s, .error e))
    ∨ OpenOk s.toCore metadata ∧ ∃ t i s',
        stInsert s.tab (freshStream s.toCore s.nextLocalSid) = (t, some i) ∧ Outgoing s s'
        ∧ (muxOpen s metadata = (s', .ok s.nextLocalSid)
            ∧ s'.toCore = (s.toCore.alloc t).put (synFrame s.nextLocalSid metadata)
          ∨ muxOpen s metadata = (s', .error .nomem)
            ∧ s'.toCore = (s.toCore.alloc t).spill.drop i) := by
  unfold muxOpen
  by_cases h1 : s.dead = true
  · exact .inl ⟨fun h => by simp [h.alive] at h1, _, if_pos h1⟩
  rw [if_neg h1]
  by_cases h2 : ¬ s.peerHelloSeen = true
  · exact .inl ⟨fun h => h2 h.seen, _, if_pos h2⟩
  rw [if_neg h2]
  by_cases h3 : s.localGoaway = true
  · exact .inl ⟨fun h => by simp [h.staying] at h3, _, if_pos h3⟩
  rw [if_neg h3]
  by_cases h4 : metadata.length > muxMaxMeta
  · exact .inl ⟨fun h => absurd h.bounded (Nat.not_le.2 h4), _, if_pos h4⟩
  rw [if_neg h4]
  by_cases h5 : s.tab.count ≥ s.peerMaxStreams.toNat
  · exact .inl ⟨fun h => absurd h.room (Nat.not_lt.2 h5), _, if_pos h5⟩
  rw [if_neg h5]
  dsimp only
  by_cases h6 : s.nextLocalSid = muxSidControl
  · exact .inl ⟨fun h => h.sid_ne h6, _, if_pos h6⟩
  rw [if_neg h6]
  have hok : OpenOk s.toCore metadata :=
    ⟨by simpa using h1, not_not.1 h2, by simpa using h3, Nat.not_lt.1 h4, Nat.not_le.1 h5, h6⟩
  have hp : metadata.length ≤ muxMaxPayload := Nat.le_trans hok.bounded (by decide)
  obtain ⟨t, i, hi, -⟩ := stInsert_inserted hw.tab (freshStream s.toCore s.nextLocalSid)
  set s₁ : Session := { s with nextLocalSid := s.nextLocalSid + 2, tab := t } with hs₁
  have hout : Outgoing s s₁ := .of_eq rfl rfl
  refine .inr ⟨hok, t, i, ?_⟩
  have hi' : stInsert s.tab (freshStream { s.toCore with nextLocalSid := s.nextLocalSid + 2 }
      s.nextLocalSid) = (t, some i) := hi
  simp only [hi']
  rw [← hs₁]
  rcases he : emit s₁ muxTData muxFSyn s.nextLocalSid metadata with ⟨s₂, e | ⟨⟩⟩
  · refine ⟨stRemove s₂ i, hi, (hout.trans (emit_outgoing_of hp he)).congr (by simp) (by simp),
      .inr ⟨rfl, ?_⟩⟩
    rw [stRemove_toCore, emit_error hp he]
    rfl
  · refine ⟨s₂, hi, hout.trans (emit_outgoing_of hp he), .inl ⟨rfl, ?_⟩⟩
    rw [emit_ok hp he]
    rfl

theorem muxOpen_handles (hopen : ∀ c, ok c .open) (hw : s.toCore.Wf) (metadata) :
    HandlesBy ok s (muxOpen s metadata).1 := by
  rcases muxOpen_cases hw metadata with ⟨-, e, he⟩ | ⟨hok, t, i, s', hi, hout, ⟨he, hc⟩ | ⟨he, hc⟩⟩
  · rw [he]
    exact .refl s
  · rw [he]
    exact ⟨hc ▸ .single (hopen _) (.opened hok hi), hout⟩
  · rw [he]
    exact ⟨hc ▸ .single (hopen _) (.openFailed hok hi), hout⟩

end Open

section Write

theorem Core.debit_debit (c : Core) (i m n : ℕ) :
    (c.debit i m).debit i n = c.debit i (m + n) := by
  simp only [debit, modify_modify]
  congr 1
  · omega
  · congr 1
    funext st
    simp only [Function.comp_apply, MuxStream.mk.injEq, true_and, and_true]
    omega

theorem take_append_take_drop (p : Bytes) (m k : ℕ) :
    p.take m ++ (p.drop m).take k = p.take ((p.take m).length + k) := by
  rcases Nat.le_total m p.length with h | h
  · rw [length_take, Nat.min_eq_left h, take_add]
  · rw [drop_eq_nil_of_le h, take_of_length_le h, take_nil, append_nil,
      take_of_length_le (by omega)]

/-- The frames that carry the first `k` bytes of `p`. -/
def Chunked (s s' : Session) (sid : UInt32) (p : Bytes) (k : ℕ) : Prop :=
  ∃ ps : List Bytes, s'.sent = s.sent ++ ps.map (dataFrame sid) ∧ ps.flatten = p.take k
    ∧ ∀ q ∈ ps, 0 < q.length ∧ q.length ≤ muxMaxDataFrame

/-- What the loop of `mux_write` does to the session, beside its steps. -/
structure Wrote (s s' : Session) (sid : UInt32) (p : Bytes) (k : ℕ) : Prop where
  tab : s'.tab = s.tab
  sess : s'.sessSendWin = s.sessSendWin
  le : k ≤ p.length
  sent : Chunked s s' sid p k
  full : s'.dead = false → k = p.length

/-- The loop, seen with the windows debited as it goes; `d` bytes were placed before. -/
theorem writeLoop_handles (htau : ∀ c, ok c .tau) (hwr : ∀ c, ok c .write) {i : ℕ}
    {st : MuxStream} :
    ∀ (n : ℕ) {s : Session} (p : Bytes) (d : ℕ), p.length ≤ n → s.dead = false →
      s.tab.get i = some st → st.life ≠ .hclLocal → (d : ℤ) + p.length ≤ st.sendWin →
      (d : ℤ) + p.length ≤ s.sessSendWin →
      Reach Step ok (s.toCore.debit i d)
          ((writeLoop n s st.sid p).1.toCore.debit i (d + (writeLoop n s st.sid p).2))
        ∧ Outgoing s (writeLoop n s st.sid p).1
        ∧ Wrote s (writeLoop n s st.sid p).1 st.sid p (writeLoop n s st.sid p).2
  | 0, s, p, d, hn, _, _, _, _, _ => by
    obtain rfl : p = [] := length_eq_zero_iff.1 (by omega)
    exact ⟨.start, .refl s, rfl, rfl, Nat.le_refl _, ⟨[], by simp [writeLoop]⟩, fun _ => rfl⟩
  | n + 1, s, p, d, hn, hd, hg, hlife, hwin, hsess => by
    unfold writeLoop
    by_cases hp : p = []
    · subst hp
      exact ⟨.start, .refl s, rfl, rfl, Nat.le_refl _, ⟨[], by simp⟩, fun _ => rfl⟩
    rw [if_neg hp]
    set chunk := p.take muxMaxDataFrame with hchunk
    have hpos : 0 < p.length := length_pos_of_ne_nil hp
    have hlen : chunk.length = min muxMaxDataFrame p.length := by rw [hchunk, length_take]
    have hframe : muxMaxDataFrame = 65536 := rfl
    have hmax : chunk.length ≤ muxMaxPayload := by
      rw [hlen]
      exact Nat.le_trans (Nat.min_le_left _ _) (by decide)
    rcases he : emit s muxTData 0 st.sid chunk with ⟨s₁, e | ⟨⟩⟩
    · have hcore := emit_error hmax he
      refine ⟨?_, emit_outgoing_of hmax he, ?_, ?_, Nat.zero_le _, ⟨[], ?_⟩, fun h => ?_⟩
      · dsimp only
        rw [hcore, Nat.add_zero]
        exact .single (htau _) .spill
      · simp [hcore]
      · simp [hcore]
      · simp [hcore]
      · simp [hcore] at h
    · have hcore := emit_ok hmax he
      have hdrop : (p.drop muxMaxDataFrame).length = p.length - chunk.length := by
        rw [length_drop]
        omega
      obtain ⟨h1, h2, h3⟩ := writeLoop_handles htau hwr n (s := s₁) (p.drop muxMaxDataFrame)
        (d + chunk.length) (by omega) (by rw [hcore]; exact hd) (by rw [hcore]; exact hg) hlife
        (by omega) (by rw [hcore, put_sessSendWin]; omega)
      dsimp only
      refine ⟨.trans ?_ (Nat.add_assoc d _ _ ▸ h1), (emit_outgoing_of hmax he).trans h2, ?_, ?_, ?_,
        ?_, fun h => ?_⟩
      · refine .single (hwr _) ?_
        have hg' := get_modify_self hg fun st => { st with sendWin := st.sendWin - d }
        have := Step.wrote (c := s.toCore.debit i d) (p := chunk) hg' hd hlife
          (ne_nil_of_length_pos (by omega)) (by omega) (by dsimp only; omega)
          (by dsimp only [debit]; omega)
        rw [debit_debit] at this
        rw [hcore]
        exact this
      · simp [h3.tab, hcore]
      · simp [h3.sess, hcore]
      · have := h3.le
        omega
      · obtain ⟨ps, h4, h5, h6⟩ := h3.sent
        refine ⟨chunk :: ps, by simp [h4, hcore, dataFrame], ?_, ?_⟩
        · rw [flatten_cons, h5]
          exact take_append_take_drop p _ _
        · rw [forall_mem_cons]
          exact ⟨by omega, h6⟩
      · have := h3.full h
        omega

theorem setBlocked_handles (htau : ∀ c, ok c .tau) {i : ℕ} {st : MuxStream}
    (hg : s.tab.get i = some st) (hwin : st.sendWin ≤ 0 ∨ s.sessSendWin ≤ 0) :
    HandlesBy ok s (setBlocked s i true) := by
  rcases hb : st.sendBlocked with _ | _
  · refine ⟨?_, .of_eq (by simp) (by simp)⟩
    rw [setBlocked_true s hg hb]
    exact .single (htau _) (.block hg hb hwin)
  · rw [setBlocked_true_of_blocked s hg hb]
    exact .refl s

theorem noteShort_handles (htau : ∀ c, ok c .tau) {i : ℕ} {st : MuxStream}
    (hg : s.tab.get i = some st) {short}
    (h : short = true → st.sendBlocked = true ∨ s.dead = true) :
    HandlesBy ok s (noteShort s i short) := by
  unfold noteShort
  split
  · exact ⟨.single (htau _) (.short hg (h ‹_›)), .of_eq rfl rfl⟩
  · exact .refl s

theorem get_setBlocked {i : ℕ} {st : MuxStream} (hg : s.tab.get i = some st) :
    ∃ st', (setBlocked s i true).tab.get i = some st' ∧ st'.sendBlocked = true
      ∧ st'.sid = st.sid := by
  rcases hb : st.sendBlocked with _ | _
  · rw [setBlocked_true s hg hb]
    exact ⟨_, get_modify_self hg _, rfl, rfl⟩
  · rw [setBlocked_true_of_blocked s hg hb]
    exact ⟨st, hg, hb, rfl⟩

theorem placeable_le (s : Session) (st : MuxStream) (p : Bytes)
    (h : 0 < min st.sendWin s.sessSendWin) :
    placeable s st p ≤ p.length ∧ (placeable s st p : ℤ) ≤ st.sendWin
      ∧ (placeable s st p : ℤ) ≤ s.sessSendWin
      ∧ (placeable s st p < p.length →
        (placeable s st p : ℤ) = min st.sendWin s.sessSendWin) := by
  unfold placeable
  split <;> omega

/-- `mux_write` has placed `k` bytes of `p` on the stream `st` of slot `i`, and `s'` is the session
before the stream is marked. -/
structure Placed (ok : Core → Act → Prop) (s s' : Session) (i : ℕ) (st : MuxStream) (p : Bytes)
    (k : ℕ) : Prop where
  handles : HandlesBy ok s s'
  get : s'.tab.get i = some { st with sendWin := st.sendWin - k }
  sess : s'.sessSendWin = s.sessSendWin - k
  tab : s'.tab = s.tab.modify i fun st => { st with sendWin := st.sendWin - k }
  sent : Chunked s s' st.sid p k
  le : k ≤ placeable s st p
  full : s'.dead = false → k = placeable s st p
  eq : muxWrite s st.sid p
    = (noteShort (if k < p.length ∧ (st.sendWin - k ≤ 0 ∨ s'.sessSendWin ≤ 0)
        then setBlocked s' i true else s') i (k < p.length), .ok k)

theorem Core.debit_zero {c : Core} {i : ℕ} {st} (hg : c.tab.get i = some st) : c.debit i 0 = c := by
  have : c.tab.modify i (fun st => { st with sendWin := st.sendWin - (0 : ℕ) }) = c.tab :=
    modify_id_of_get hg (by simp)
  simp only [debit, this]
  simp

theorem muxWrite_placed (htau : ∀ c, ok c .tau) (hwr : ∀ c, ok c .write) {i : ℕ} {st : MuxStream}
    (hd : s.dead = false) (hg : s.tab.get i = some st) (hf : stFind s.tab st.sid = some (i, st))
    (hl : st.life ≠ .hclLocal) (p) (hroom : 0 < min st.sendWin s.sessSendWin) :
    ∃ s' k, Placed ok s s' i st p k := by
  obtain ⟨hle, hwin, hsess, -⟩ := placeable_le s st p hroom
  have hlen : (p.take (placeable s st p)).length = placeable s st p := by
    rw [length_take]
    omega
  obtain ⟨h1, h2, h3⟩ := writeLoop_handles htau hwr (placeable s st p) (p.take (placeable s st p)) 0
    (by omega) hd hg hl (by omega) (by omega)
  rw [debit_zero hg, Nat.zero_add] at h1
  set r := writeLoop (placeable s st p) s st.sid (p.take (placeable s st p)) with hr
  refine ⟨{ r.1 with toCore := r.1.toCore.debit i r.2 }, r.2, ⟨h1, h2.congr rfl rfl⟩,
    get_modify_self (h3.tab ▸ hg) _, ?_, ?_, ?_, h3.le.trans_eq hlen,
    fun hlive => (h3.full hlive).trans hlen, ?_⟩
  · rw [← h3.sess]
    rfl
  · rw [← h3.tab]
    rfl
  · obtain ⟨ps, h4, h5, h6⟩ := h3.sent
    have := h3.le
    refine ⟨ps, h4, h5.trans ?_, h6⟩
    rw [take_take, Nat.min_eq_left (by omega)]
  · unfold muxWrite
    rw [if_neg (by simp [hd]), hf]
    dsimp only
    rw [if_neg hl, if_neg (Int.not_le.2 hroom), ← placeable, ← hr]
    rfl

/-- The ways `mux_write` ends: it refuses, it finds a window closed, or it places bytes. -/
theorem muxWrite_cases (htau : ∀ c, ok c .tau) (hwr : ∀ c, ok c .write) (hw : s.toCore.Wf) (sid)
    (p : Bytes) : (∃ e, muxWrite s sid p = (s, .error e))
      ∨ (∃ i st, s.tab.get i = some st ∧ st.sid = sid ∧ (st.sendWin ≤ 0 ∨ s.sessSendWin ≤ 0)
        ∧ muxWrite s sid p = (noteShort (setBlocked s i true) i (0 < p.length), .ok 0))
      ∨ ∃ i st s' k, s.dead = false ∧ st.sid = sid ∧ 0 < min st.sendWin s.sessSendWin
        ∧ Placed ok s s' i st p k := by
  by_cases hd : s.dead = true
  · exact .inl ⟨.state, by rw [muxWrite, if_pos hd]⟩
  rcases hf : stFind s.tab sid with _ | ⟨i, st⟩
  · exact .inl ⟨.nostream, by rw [muxWrite, if_neg hd, hf]⟩
  obtain ⟨hg, rfl⟩ := stFind_some hw.tab hf
  by_cases hl : st.life = .hclLocal
  · refine .inl ⟨.state, ?_⟩
    rw [muxWrite, if_neg hd, hf]
    dsimp only
    rw [if_pos hl]
  by_cases hroom : min st.sendWin s.sessSendWin ≤ 0
  · refine .inr (.inl ⟨i, st, hg, rfl, by omega, ?_⟩)
    rw [muxWrite, if_neg hd, hf]
    dsimp only
    rw [if_neg hl, if_pos hroom]
  · rw [Bool.not_eq_true] at hd
    rw [Int.not_le] at hroom
    obtain ⟨s', k, h⟩ := muxWrite_placed htau hwr hd hg hf hl p hroom
    exact .inr (.inr ⟨i, st, s', k, hd, rfl, hroom, h⟩)

/-- `mux_write` sends DATA and marks the stream. -/
theorem muxWrite_handles (htau : ∀ c, ok c .tau) (hwr : ∀ c, ok c .write) (hw : s.toCore.Wf)
    (sid p) : HandlesBy ok s (muxWrite s sid p).1 := by
  rcases muxWrite_cases htau hwr hw sid p with ⟨e, h⟩ | ⟨i, st, hg, -, hwin, h⟩
    | ⟨i, st, s', k, -, rfl, hroom, h⟩
  · rw [h]
    exact .refl s
  · rw [h]
    obtain ⟨st', hg', hb, -⟩ := get_setBlocked hg
    exact (setBlocked_handles htau hg hwin).trans (noteShort_handles htau hg' fun _ => .inl hb)
  · rw [h.eq]
    dsimp only
    split_ifs with hb
    · obtain ⟨st', hg', hb', -⟩ := get_setBlocked h.get
      exact (h.handles.trans (setBlocked_handles htau h.get hb.2)).trans
        (noteShort_handles htau hg' fun _ => .inl hb')
    · -- a short write that leaves both windows open was cut by the output buffer
      refine h.handles.trans (noteShort_handles htau h.get fun hshort => .inr ?_)
      by_contra hlive
      have hk := h.full (by simpa using hlive)
      have hk' : k < p.length := by simpa using hshort
      have hsess := h.sess
      obtain ⟨-, -, -, hmin⟩ := placeable_le s st p hroom
      exact hb ⟨hk', by omega⟩

end Write

section Close

theorem muxClose_handles (htau : ∀ c, ok c .tau) {sid} (hcl : ∀ c, ok c (.close sid))
    (hw : s.toCore.Wf) : HandlesBy ok s (muxClose s sid).1 := by
  unfold muxClose
  by_cases hd : s.dead = true
  · rw [if_pos hd]
    exact .refl s
  rw [if_neg hd]
  rw [Bool.not_eq_true] at hd
  rcases hf : stFind s.tab sid with _ | ⟨i, st⟩
  · exact .refl s
  obtain ⟨hg, rfl⟩ := stFind_some hw.tab hf
  dsimp only
  by_cases hl : st.life = .hclLocal
  · rw [if_pos hl]
    exact .refl s
  rw [if_neg hl]
  have hp : ([] : Bytes).length ≤ muxMaxPayload := Nat.zero_le _
  rcases he : emit s muxTData muxFFin st.sid [] with ⟨s₁, e | ⟨⟩⟩
  · dsimp only
    refine ⟨?_, emit_outgoing_of hp he⟩
    rw [emit_error hp he]
    exact .single (htau _) .spill
  · dsimp only
    by_cases hr : st.life = .hclRemote
    · rw [if_pos hr]
      refine ⟨?_, (emit_outgoing_of hp he).congr (by simp) (by simp)⟩
      rw [stRemove_toCore, emit_ok hp he]
      exact .single (hcl _) (.closedFull hg hd hr)
    · rw [if_neg hr]
      refine ⟨?_, (emit_outgoing_of hp he).congr rfl rfl⟩
      change Reach Step ok _ (s₁.toCore.edit i _)
      rw [emit_ok hp he]
      refine .single (hcl _) (.closedHalf hg hd ?_)
      cases hst : st.life <;> simp_all

theorem muxReset_handles (htau : ∀ c, ok c .tau) (hw : s.toCore.Wf) (sid code) :
    HandlesBy ok s (muxReset s sid code).1 := by
  unfold muxReset
  by_cases hd : s.dead = true
  · rw [if_pos hd]
    exact .refl s
  rw [if_neg hd]
  rw [Bool.not_eq_true] at hd
  rcases hf : stFind s.tab sid with _ | ⟨i, st⟩
  · exact .refl s
  obtain ⟨hg, rfl⟩ := stFind_some hw.tab hf
  have hout : Outgoing s (emit s muxTData muxFRst st.sid (bePut32 code)).1 :=
    emit_outgoing (le_maxPayload_rst code)
  refine ⟨?_, hout.congr (by simp) (by simp)⟩
  dsimp only
  rw [stRemove_toCore, emit_toCore _ _ _ _ (le_maxPayload_rst code)]
  exact .single (htau _) (.reset _ code hg hd)

end Close

section Consume

theorem chunk_spec {pending : ℤ} (h : 0 < pending) :
    0 < (if pending > 0xFFFFFFFF then (0xFFFFFFFF : UInt32) else .ofNat pending.toNat).toNat
      ∧ ((if pending > 0xFFFFFFFF then (0xFFFFFFFF : UInt32)
        else .ofNat pending.toNat).toNat : ℤ) ≤ pending := by
  split
  · have : (0xFFFFFFFF : UInt32).toNat = 4294967295 := rfl
    omega
  · rw [UInt32.toNat_ofNat']
    omega

/-- `credit_emit`, seen through a view `A` of the core with the window and what is pending: if a
credit is a step of the view, the loop is steps of the view. -/
theorem creditEmit_handles (htau : ∀ c, ok c .tau) (sid) {A : Core → ℤ → ℤ → Core} {a : Act}
    (ha : ∀ c, ok c a) (hspill : ∀ c win pending, A c.spill win pending = (A c win pending).spill)
    (hstep : ∀ (c : Core) (win pending : ℤ) (k : UInt32), c.tab = s.tab → 0 < k.toNat →
      (k.toNat : ℤ) ≤ pending →
      Step (A c win pending) a
        (A (c.put (creditFrame sid k)) (win + k.toNat) (pending - k.toNat))) :
    ∀ (n : ℕ) (s₁ : Session) (win pending : ℤ), s₁.tab = s.tab →
      Reach Step ok (A s₁.toCore win pending)
          (A (creditEmit n s₁ sid win pending).1.toCore (creditEmit n s₁ sid win pending).2.1
            (creditEmit n s₁ sid win pending).2.2)
        ∧ Outgoing s₁ (creditEmit n s₁ sid win pending).1
        ∧ (creditEmit n s₁ sid win pending).1.tab = s.tab
  | 0, s₁, win, pending, ht => ⟨.start, .refl _, ht⟩
  | n + 1, s₁, win, pending, ht => by
    unfold creditEmit
    by_cases hpos : 0 < pending
    · rw [if_pos hpos]
      obtain ⟨h1, h2⟩ := chunk_spec hpos
      dsimp only
      generalize (if pending > 0xFFFFFFFF then (0xFFFFFFFF : UInt32)
        else .ofNat pending.toNat) = k at h1 h2
      have hp := le_maxPayload_rst k
      rcases he : emit s₁ muxTWindowUpdate 0 sid (bePut32 k) with ⟨s₂, e | ⟨⟩⟩
      · have hcore := emit_error hp he
        refine ⟨?_, emit_outgoing_of hp he, by rw [hcore]; exact ht⟩
        dsimp only
        rw [hcore, hspill]
        exact .single (htau _) .spill
      · have hcore := emit_ok hp he
        obtain ⟨h3, h4, h5⟩ := creditEmit_handles htau sid ha hspill hstep n s₂ (win + k.toNat)
          (pending - k.toNat) (by rw [hcore]; exact ht)
        refine ⟨.trans (.single (ha _) ?_) h3, (emit_outgoing_of hp he).trans h4, h5⟩
        rw [hcore]
        exact hstep _ _ _ _ ht h1 h2
    · rw [if_neg hpos]
      exact ⟨.start, .refl _, ht⟩

theorem creditSession_handles (htau : ∀ c, ok c .tau) (s : Session)
    (hcr : 0 < s.sessRecvPending → s.sessionWindow.toNat ≤ s.sessRecvPending * 2 →
      ∀ c, ok c .credit) :
    HandlesBy ok s (creditSession s) ∧ (creditSession s).tab = s.tab := by
  unfold creditSession
  split_ifs with h1 h2
  · exact ⟨.refl s, rfl⟩
  · exact ⟨.refl s, rfl⟩
  · have hcr := hcr (Int.not_le.1 h1) (Int.not_lt.1 h2)
    obtain ⟨h1, h2, h3⟩ := creditEmit_handles (s := s)
      (A := fun c win pending => { c with sessRecvWin := win, sessRecvPending := pending }) htau
      muxSidControl hcr (fun _ _ _ => rfl) (fun c win pending k _ h1 h2 => .credit h1 h2)
      (creditRounds s.sessRecvPending) s s.sessRecvWin s.sessRecvPending rfl
    exact ⟨⟨h1, h2.congr rfl rfl⟩, h3⟩

theorem creditStream_handles (htau : ∀ c, ok c .tau) (s) (i : ℕ) :
    HandlesBy ok s (creditStream s i) := by
  unfold creditStream
  rcases hg : s.tab.get i with _ | st
  · exact .refl s
  dsimp only
  split_ifs
  · exact .refl s
  · exact .refl s
  · have hstep : ∀ (c : Core) (win pending : ℤ) (k : UInt32), c.tab = s.tab → 0 < k.toNat →
        (k.toNat : ℤ) ≤ pending →
        Step (c.edit i fun st => { st with recvWin := win, recvPending := pending }) .tau
          ((c.put (creditFrame st.sid k)).edit i fun st =>
            { st with recvWin := win + k.toNat, recvPending := pending - k.toNat }) := by
      intro c win pending k hc h1 h2
      have hg' : (c.edit i fun st => { st with recvWin := win, recvPending := pending }).tab.get i
          = some { st with recvWin := win, recvPending := pending } := by
        rw [edit_tab, hc]
        exact get_modify_self hg _
      have := Step.creditOn hg' h1 h2
      simpa only [edit, put, modify_modify, Function.comp_def] using this
    obtain ⟨h1, h2, -⟩ := creditEmit_handles htau st.sid htau (fun _ _ _ => rfl) hstep
      (creditRounds st.recvPending) s st.recvWin st.recvPending rfl
    have hself : (s.toCore.edit i fun r =>
        { r with recvWin := st.recvWin, recvPending := st.recvPending }) = s.toCore := by
      have : s.tab.modify i (fun r =>
          { r with recvWin := st.recvWin, recvPending := st.recvPending }) = s.tab :=
        modify_id_of_get hg rfl
      simp only [edit, this]
    rw [hself] at h1
    exact ⟨h1, h2.congr rfl rfl⟩

/-- The bytes consumed bring the connection's credit to half its window. -/
def CreditDue (c : Core) (n : ℕ) : Prop :=
  0 < c.sessRecvPending + toInt64 n
    ∧ c.sessionWindow.toNat ≤ (c.sessRecvPending + toInt64 n) * 2

/-- `mux_consume` counts the bytes, and sends credit where it is due. -/
theorem muxConsume_handles (htau : ∀ c, ok c .tau) (hw : s.toCore.Wf) (sid) (n : ℕ)
    (huse : n ≠ 0 → ok s.toCore (.use n)) (hcr : n ≠ 0 → CreditDue s.toCore n → ∀ c, ok c .credit)
    (huseOn : ∀ c i st, c.tab = s.tab → stFind s.tab sid = some (i, st) → n ≠ 0 →
      ok c (.useOn i n)) : HandlesBy ok s (muxConsume s sid n).1 := by
  unfold muxConsume
  by_cases hd : s.dead = true
  · rw [if_pos hd]
    exact .refl s
  rw [if_neg hd]
  by_cases hn : n = 0
  · rw [if_pos hn]
    exact .refl s
  rw [if_neg hn]
  dsimp only
  set s₁ : Session :=
    { s with sessRecvPending := s.sessRecvPending + toInt64 n, consumed := s.consumed + n } with hs₁
  have h₁ : HandlesBy ok s s₁ :=
    ⟨.single (huse hn) (.use n (by simpa using hd)), .of_eq rfl rfl⟩
  obtain ⟨h₂, htab⟩ := creditSession_handles htau s₁ fun h1 h2 => hcr hn ⟨h1, h2⟩
  have htab' : (creditSession s₁).tab = s.tab := htab
  rw [show stFind (creditSession s₁).tab sid = stFind s.tab sid by rw [htab']]
  rcases hf : stFind s.tab sid with _ | ⟨i, st⟩
  · exact h₁.trans h₂
  · obtain ⟨hg, -⟩ := stFind_some hw.tab hf
    set s₂ := creditSession s₁
    have h₃ := Step.useOn (c := s₂.toCore) n (htab'.symm ▸ hg)
    have h₄ : HandlesBy ok s₂ { s₂ with toCore := s₂.toCore.edit i fun st =>
        { st with recvPending := st.recvPending + toInt64 n, consumed := st.consumed + n } } :=
      ⟨.single (huseOn _ i st htab' hf hn) h₃, .of_eq rfl rfl⟩
    exact (h₁.trans h₂).trans (h₄.trans (creditStream_handles htau _ i))

end Consume

section Control

theorem emit_control_handles (htau : ∀ c, ok c .tau) (hctl : ok s.toCore .control)
    (hd : s.dead = false) {type} {payload : Bytes} (hp : payload.length ≤ muxMaxPayload)
    (hf : Control { type, flags := 0, sid := muxSidControl, payload }) :
    HandlesBy ok s (emit s type 0 muxSidControl payload).1 := by
  refine ⟨?_, emit_outgoing hp⟩
  rcases he : emit s type 0 muxSidControl payload with ⟨s₁, e | ⟨⟩⟩
  · dsimp only
    rw [emit_error hp he]
    exact .single (htau _) .spill
  · dsimp only
    rw [emit_ok hp he]
    exact .single hctl (.control hd hf)

theorem muxSendCapacity_handles (htau : ∀ c, ok c .tau)
    (hctl : s.dead = false → ok s.toCore .control) (weight) :
    HandlesBy ok s (muxSendCapacity s weight).1 := by
  unfold muxSendCapacity
  by_cases hd : s.dead = true
  · rw [if_pos hd]
    exact .refl s
  rw [if_neg hd]
  rw [Bool.not_eq_true] at hd
  exact emit_control_handles htau (hctl hd) hd (le_maxPayload_rst weight) (.capacity _)

theorem muxGoaway_handles (htau : ∀ c, ok c .tau)
    (hctl : s.dead = false → ok { s.toCore with localGoaway := true } .control) (reason) :
    HandlesBy ok s (muxGoaway s reason).1 := by
  unfold muxGoaway
  by_cases hd : s.dead = true
  · rw [if_pos hd]
    exact .refl s
  rw [if_neg hd]
  have h₁ : HandlesBy ok s { s with localGoaway := true } :=
    ⟨.single (htau _) .drain, .of_eq rfl rfl⟩
  rw [Bool.not_eq_true] at hd
  exact h₁.trans (emit_control_handles (s := { s with localGoaway := true }) htau (hctl hd) hd
    (by simp [muxMaxPayload]) (.goaway reason s.maxRemoteSid))

/-- `mux_on_timer` sends a PING. -/
structure PingDue (s : Session) (nowMs : UInt64) : Prop where
  alive : s.dead = false
  beats : s.heartbeatMs ≠ 0
  started : s.timerStarted = true
  due : s.pingDueMs ≤ nowMs
  waits : ¬ (s.pingOutstanding = true ∧ s.keepaliveTimeoutMs ≠ 0
    ∧ nowMs - s.pingSentMs ≥ s.keepaliveTimeoutMs.toUInt64)

theorem muxOnTimer_handles (htau : ∀ c, ok c .tau) {nowMs}
    (hctl : PingDue s nowMs → ok s.toCore .control) : HandlesBy ok s (muxOnTimer s nowMs).1 := by
  unfold muxOnTimer
  by_cases h1 : s.dead = true ∨ s.heartbeatMs = 0
  · rw [if_pos h1]
    exact .refl s
  rw [if_neg h1]
  have hd : s.dead = false := by
    by_contra h
    exact h1 (.inl (by simpa using h))
  by_cases h2 : ¬ s.timerStarted = true
  · rw [if_pos h2]
    exact .of_eq rfl rfl
  rw [if_neg h2]
  split_ifs with h3 h4
  · refine ⟨?_, .of_eq (by simp) (by simp)⟩
    rw [raiseFatal_toCore]
    exact .single (htau _) (.expire hd)
  · dsimp only
    set nonce := bePut32 (s.pingNonce >>> 32).toUInt32 ++ bePut32 s.pingNonce.toUInt32
    have hdue : PingDue s nowMs := ⟨hd, fun h => h1 (.inr h), not_not.1 h2, h4, h3⟩
    have hem : HandlesBy ok s (emit s muxTPing 0 muxSidControl nonce).1 :=
      emit_control_handles htau (hctl hdue) hd (by simp [nonce, muxMaxPayload]) (.ping nonce rfl)
    rcases he : emit s muxTPing 0 muxSidControl nonce with ⟨s₁, e | ⟨⟩⟩
    · rw [he] at hem
      exact hem
    · rw [he] at hem
      exact hem.trans (.of_eq rfl rfl)
  · exact .refl s

end Control

/-- What `ok` has to allow for a call: everything the session does of its own accord, and of what
its environment decides, what the call asks for. -/
structure Permits (ok : Core → Act → Prop) (s : Session) (a : Call) : Prop where
  tau : ∀ c, ok c .tau
  recv : ∀ buf, a = .recv buf → EachFrame (Hears ok) (∀ c, ok c .garble) buf.length s buf
  opens : ∀ m, a = .open m → ∀ c, ok c .open
  write : ∀ sid p, a = .write sid p → ∀ c, ok c .write
  close : ∀ sid, a = .close sid → ∀ c, ok c (.close sid)
  consume : ∀ sid n, a = .consume sid n → n ≠ 0 → ok s.toCore (.use n)
    ∧ (CreditDue s.toCore n → ∀ c, ok c .credit)
    ∧ ∀ c i st, c.tab = s.tab → stFind s.tab sid = some (i, st) → ok c (.useOn i n)
  capacity : ∀ w, a = .sendCapacity w → s.dead = false → ok s.toCore .control
  goaway : ∀ r, a = .goaway r → s.dead = false → ok { s.toCore with localGoaway := true } .control
  timer : ∀ t, a = .onTimer t → PingDue s t → ok s.toCore .control

theorem eachFrame_of_forall {P : Session → Frame → Prop} {g : Prop} (hP : ∀ s f, P s f) (hg : g) :
    ∀ (n : ℕ) (s : Session) (buf : Bytes), EachFrame P g n s buf
  | 0, _, _ => trivial
  | n + 1, s, buf => by
    unfold EachFrame
    split
    · trivial
    · split
      · trivial
      · exact hg
      · exact ⟨hP _ _, fun _ => eachFrame_of_forall hP hg n _ _⟩

theorem EachFrame.imp {P Q : Session → Frame → Prop} {g g' : Prop} (hP : ∀ s f, P s f → Q s f)
    (hg : g → g') : ∀ {n : ℕ} {s : Session} {buf : Bytes}, EachFrame P g n s buf →
      EachFrame Q g' n s buf
  | 0, _, _, _ => trivial
  | n + 1, s, buf, h => by
    unfold EachFrame at h ⊢
    split
    · trivial
    · rename_i hstop
      rw [if_neg hstop] at h
      rcases hp : muxParse buf with e | ⟨f, used⟩
      · rw [hp] at h
        cases e with
        | short => trivial
        | _ => exact hg h
      · rw [hp] at h
        exact ⟨hP _ _ h.1, fun hlive => (h.2 hlive).imp hP hg⟩

theorem EachFrame.and {P Q : Session → Frame → Prop} {g g' : Prop} :
    ∀ {n : ℕ} {s : Session} {buf : Bytes}, EachFrame P g n s buf → EachFrame Q g' n s buf →
      EachFrame (fun s f => P s f ∧ Q s f) (g ∧ g') n s buf
  | 0, _, _, _, _ => trivial
  | n + 1, s, buf, h, h' => by
    unfold EachFrame at h h' ⊢
    split
    · trivial
    · rename_i hstop
      rw [if_neg hstop] at h h'
      rcases hp : muxParse buf with e | ⟨f, used⟩
      · rw [hp] at h h'
        cases e with
        | short => trivial
        | _ => exact ⟨h, h'⟩
      · rw [hp] at h h'
        exact ⟨⟨h.1, h'.1⟩, fun hlive => (h.2 hlive).and (h'.2 hlive)⟩

theorem Permits.and {ok' : Core → Act → Prop} {a} (h : Permits ok s a) (h' : Permits ok' s a) :
    Permits (fun c a => ok c a ∧ ok' c a) s a where
  tau c := ⟨h.tau c, h'.tau c⟩
  recv buf hb := ((h.recv buf hb).and (h'.recv buf hb)).imp
    (fun _ _ hP c h1 h2 => ⟨hP.1 c h1 h2, hP.2 c h1 h2⟩) fun hg c => ⟨hg.1 c, hg.2 c⟩
  opens m hm c := ⟨h.opens m hm c, h'.opens m hm c⟩
  write sid p hp c := ⟨h.write sid p hp c, h'.write sid p hp c⟩
  close sid hc c := ⟨h.close sid hc c, h'.close sid hc c⟩
  consume sid n hn h0 :=
    ⟨⟨(h.consume sid n hn h0).1, (h'.consume sid n hn h0).1⟩,
      fun hdue c => ⟨(h.consume sid n hn h0).2.1 hdue c, (h'.consume sid n hn h0).2.1 hdue c⟩,
      fun c i st hc hf => ⟨(h.consume sid n hn h0).2.2 c i st hc hf,
        (h'.consume sid n hn h0).2.2 c i st hc hf⟩⟩
  capacity w hw hd := ⟨h.capacity w hw hd, h'.capacity w hw hd⟩
  goaway r hr hd := ⟨h.goaway r hr hd, h'.goaway r hr hd⟩
  timer t ht hdue := ⟨h.timer t ht hdue, h'.timer t ht hdue⟩

theorem permits_unless {P : Core → Frame → Prop} {a} (hP : ∀ c f, P c f → f.type ≠ muxTWindowUpdate)
    (h : ∀ buf, a = .recv buf → EachFrame (fun s f => ¬ P s.toCore f) True buf.length s buf) :
    Permits (fun c a => ∀ f, a = .hear f → ¬ P c f) s a := by
  refine ⟨by simp, fun buf hbuf => ?_, by simp, by simp, by simp, by simp, by simp, by simp,
    by simp⟩
  refine EachFrame.imp (fun s f hnot c _ hc f' hf' hp => ?_) (by simp) (h buf hbuf)
  cases hf'
  rcases hc with rfl | ht
  · exact hnot hp
  · exact hP c f hp ht

theorem permits_any (s a) : Permits (fun _ _ => True) s a :=
  ⟨fun _ => trivial,
    fun _ _ => eachFrame_of_forall (fun _ _ _ _ _ => trivial) (fun _ => trivial) _ _ _,
    fun _ _ _ => trivial, fun _ _ _ _ => trivial, fun _ _ _ => trivial,
    fun _ _ _ _ => ⟨trivial, fun _ _ => trivial, fun _ _ _ _ _ => trivial⟩, fun _ _ _ => trivial,
    fun _ _ _ => trivial, fun _ _ _ => trivial⟩

theorem muxNextEvent_toCore (s : Session) : (muxNextEvent s).1.toCore = s.toCore := by
  unfold muxNextEvent
  split <;> rfl

theorem muxNextEvent_out (s : Session) : (muxNextEvent s).1.out = s.out := by
  unfold muxNextEvent
  split <;> rfl

/-- The output buffer with everything sent: nothing waits in it, and it keeps its room. -/
theorem muxSendAdvance_all (h : s.out.spos ≤ s.out.data.length) :
    muxSendAdvance s s.out.data.length
      = { s with out := { s.out with data := [], spos := 0 } } := by
  unfold muxSendAdvance
  have hend : s.out.spos + min s.out.data.length (s.out.data.length - s.out.spos)
      = s.out.data.length := by omega
  dsimp only
  rw [if_pos hend]

theorem muxSendAdvance_toCore (s : Session) (n : ℕ) : (muxSendAdvance s n).toCore = s.toCore := by
  unfold muxSendAdvance
  dsimp only
  split <;> rfl

/-- Every call but that of the transport does steps that `ok` permits. -/
theorem Session.call_handles {a} (hw : s.toCore.Wf) (h : Permits ok s a)
    (ha : ∀ n, a ≠ .sendAdvance n) : HandlesBy ok s (s.call a) := by
  cases a with
  | recv buf => exact muxRecv_handles h.tau hw buf (h.recv buf rfl)
  | «open» metadata => exact muxOpen_handles (h.opens metadata rfl) hw metadata
  | write sid p => exact muxWrite_handles h.tau (h.write sid p rfl) hw sid p
  | close sid => exact muxClose_handles h.tau (h.close sid rfl) hw
  | reset sid code => exact muxReset_handles h.tau hw sid code
  | consume sid n =>
    exact muxConsume_handles h.tau hw sid n (fun hn => (h.consume sid n rfl hn).1)
      (fun hn => (h.consume sid n rfl hn).2.1)
      fun c i st hc hf hn => (h.consume sid n rfl hn).2.2 c i st hc hf
  | sendCapacity weight => exact muxSendCapacity_handles h.tau (h.capacity weight rfl) weight
  | goaway reason => exact muxGoaway_handles h.tau (h.goaway reason rfl) reason
  | onTimer nowMs => exact muxOnTimer_handles h.tau (h.timer nowMs rfl)
  | sendAdvance n => exact absurd rfl (ha n)
  | nextEvent => exact .of_eq (muxNextEvent_toCore s) (muxNextEvent_out s)

/-- The same of the states only, for every call. -/
theorem Session.call_steps {a} (hw : s.toCore.Wf) (h : Permits ok s a) :
    Reach Step ok s.toCore (s.call a).toCore := by
  by_cases ha : ∃ n, a = .sendAdvance n
  · obtain ⟨n, rfl⟩ := ha
    rw [call, muxSendAdvance_toCore]
    exact .start
  · exact (call_handles hw h fun n hn => ha ⟨n, hn⟩).1

theorem Session.call_alive {a} (hw : s.toCore.Wf) (h : (s.call a).dead = false) :
    s.dead = false := by
  by_contra hd
  have hkeep := (call_steps hw (permits_any s a)).inv (I := fun c => c.dead = true)
    (by simpa using hd) fun c _ c' hc _ hs => by
      by_contra hc'
      simp [hs.alive (by simpa using hc')] at hc
  simp [h] at hkeep

/-- A dead session stays as it is. -/
theorem Session.call_dead {a} (hd : s.dead = true) : (s.call a).toCore = s.toCore := by
  cases a with
  | recv buf => rw [call, muxRecv, if_pos hd]
  | «open» metadata => rw [call, muxOpen, if_pos hd]
  | write sid p => rw [call, muxWrite, if_pos hd]
  | close sid => rw [call, muxClose, if_pos hd]
  | reset sid code => rw [call, muxReset, if_pos hd]
  | consume sid n => rw [call, muxConsume, if_pos hd]
  | sendCapacity weight => rw [call, muxSendCapacity, if_pos hd]
  | goaway reason => rw [call, muxGoaway, if_pos hd]
  | onTimer nowMs => rw [call, muxOnTimer, if_pos (.inl hd)]
  | sendAdvance n => exact muxSendAdvance_toCore s n
  | nextEvent => exact muxNextEvent_toCore s

/-! ### The start -/

section Start

variable {cfg : MuxConfig} {role : MuxRole}

/-- The core of a new session. -/
def startCore (cfg : MuxConfig) : MuxRole → Core
  | .acceptor => (initSession cfg .acceptor).toCore
  | .dialer => (initSession cfg .dialer).toCore.greet false true

theorem stGrow_empty_wf (want : ℕ) :
    TabWf (stGrow { slots := fun _ => .empty, cap := 0, count := 0, tombs := 0 } want) := by
  have hp : ∃ m, growTo want want 64 = 2 ^ m := growTo_pow ⟨6, rfl⟩
  refine Table.Wf.rehashed (by simp [countIf, tally]) hp ?_
  exact Nat.lt_of_lt_of_le (by decide) (le_growTo (c := 64))

theorem startCore_tab (cfg role) :
    TabWf (startCore cfg role).tab ∧ ∀ i, (startCore cfg role).tab.get i = none := by
  have h : (startCore cfg role).tab = (initSession cfg role).tab := by cases role <;> rfl
  rw [h]
  exact ⟨stGrow_empty_wf _, fun i => rfl⟩

theorem muxSessionNew_spec (h : muxSessionNew cfg role = some s) :
    s.toCore = startCore cfg role ∧ s.toCore.Wf ∧ Outgoing (initSession cfg role) s := by
  unfold muxSessionNew at h
  split at h
  · cases h
  rename_i hlen
  simp only [not_or, Nat.not_lt] at hlen
  obtain ⟨h1, h2, h3⟩ := hlen
  have hw : (initSession cfg role).toCore.Wf := ⟨stGrow_empty_wf _, h1, h2, h3⟩
  cases role with
  | acceptor =>
    cases h
    exact ⟨rfl, hw, .refl _⟩
  | dialer =>
    obtain ⟨ok, h4, h5, h6⟩ := sendHello_spec hw false
    rcases he : sendHello (initSession cfg .dialer) false with ⟨s₁, e | ⟨⟩⟩
    · rw [he] at h
      cases h
    · rw [he] at h h4 h5 h6
      cases h
      rw [h6.1 rfl] at h4
      exact ⟨h4, h4 ▸ ⟨hw.tab, hw.peerId, hw.auth, hw.nonce⟩, h5⟩

/-- A run of calls is a run of steps. -/
theorem Session.reach_steps {okc : Session → Call → Prop}
    (h : Reach (ofFun call) okc s s') (hw : s.toCore.Wf)
    (hok : ∀ s a, s.toCore.Wf → okc s a → Permits ok s a) : Reach Step ok s.toCore s'.toCore := by
  induction h with
  | start => exact .start
  | step _ ha hs ih =>
    rw [hs]
    exact ih.trans (call_steps (Steps.wf ih hw) (hok _ _ (Steps.wf ih hw) ha))

theorem Session.call_spos {a} (hw : s.toCore.Wf) (h : s.out.spos ≤ s.out.data.length) :
    (s.call a).out.spos ≤ (s.call a).out.data.length := by
  by_cases ha : ∃ n, a = .sendAdvance n
  · obtain ⟨n, rfl⟩ := ha
    unfold call muxSendAdvance
    dsimp only
    split
    · exact Nat.zero_le _
    · dsimp only
      omega
  · exact ((call_handles hw (permits_any s a) fun n hn => ha ⟨n, hn⟩).2 h).1

/-- What a new session reaches: its steps, its table and its output buffer are sound. -/
theorem Session.reach_wf {okc : Session → Call → Prop} (h₀ : muxSessionNew cfg role = some s)
    (h : Reach (ofFun call) okc s s') :
    s'.toCore.Wf ∧ s'.out.spos ≤ s'.out.data.length := by
  obtain ⟨-, hw, hout⟩ := muxSessionNew_spec h₀
  refine h.inv (I := fun s' => s'.toCore.Wf ∧ s'.out.spos ≤ s'.out.data.length)
    ⟨hw, (hout (Nat.zero_le _)).1⟩ fun s a s' hi _ hs => ?_
  rw [show s' = s.call a from hs]
  exact ⟨Steps.wf (call_steps hi.1 (permits_any s a)) hi.1, call_spos hi.1 hi.2⟩

end Start

end MuxProtocol
