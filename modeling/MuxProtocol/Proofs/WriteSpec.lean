import MuxProtocol.Proofs.Strokes
import MuxProtocol.Proofs.Connection

/-!
# What `mux_write` takes

The bytes taken are those both windows allow, they leave in DATA frames of bounded size, and both
windows are debited by them. Where the output buffer is full midway the three accounts agree on
the frames that were written.
-/

namespace MuxProtocol

open LinearProbe Machine

/-- The bytes are these frames, one after the other. -/
inductive Decodes : Bytes → List Frame → Prop
  | nil : Decodes [] []
  | cons {buf : Bytes} {f : Frame} {n : ℕ} {fs : List Frame} : muxParse buf = .ok (f, n) →
    Decodes (buf.drop n) fs → Decodes buf (f :: fs)

theorem decodes_encodeAll : ∀ {fs : List Frame}, (∀ f ∈ fs, f.Sized) → Decodes (encodeAll fs) fs
  | [], _ => .nil
  | f :: fs, h => by
    rw [List.forall_mem_cons] at h
    rw [encodeAll_cons]
    refine .cons (muxParse_encode h.1 (encodeAll fs)) ?_
    rw [List.drop_left]
    exact decodes_encodeAll h.2

/-- What a write of `p` on the stream `st` does, of which it takes the first `r` bytes. -/
structure WriteSpec (s s' : Session) (st : MuxStream) (p : Bytes) (r : ℕ) : Prop where
  le : r ≤ p.length
  output : ∃ (b : Bytes) (chunks : List Bytes), muxSendBuf s' = muxSendBuf s ++ b
    ∧ Decodes b (chunks.map fun q => { type := muxTData, flags := 0, sid := st.sid, payload := q })
    ∧ (∀ q ∈ chunks, 1 ≤ q.length ∧ q.length ≤ 65536) ∧ chunks.flatten = p.take r
  conn : s'.sessSendWin = s.sessSendWin - r ∧ 0 ≤ s'.sessSendWin
  stream : ∃ i st', stFind s.tab st.sid = some (i, st) ∧ stFind s'.tab st.sid = some (i, st')
    ∧ st' = { st with
        sendWin := st.sendWin - r
        sendBlocked := st'.sendBlocked
        shortAt := st'.shortAt }
    ∧ 0 ≤ st'.sendWin ∧ (s'.overflow = false → r < p.length → st'.sendBlocked = true)
    ∧ ∀ j, j ≠ i → s'.tab.get j = s.tab.get j
  others : ∀ sid, sid ≠ st.sid → stFind s'.tab sid = stFind s.tab sid
  full : s'.overflow = false → (r : ℤ) = min (p.length : ℤ) (min st.sendWin s.sessSendWin)

/-! ### No window is ever negative -/

section Room

variable {c c' : Core} {a : Act}

/-- A stream is never sent beyond its window. -/
theorem Step.stream_room (h : Step c a c') (hw : TabWf c.tab)
    (hr : Every c.tab fun st => 0 ≤ st.sendWin) : Every c'.tab fun st => 0 ≤ st.sendWin := by
  have hfresh : ∀ sid, 0 ≤ (freshStream c sid).sendWin := fun sid => by simp [freshStream]
  cases h with
  | opened _ h | accepted _ _ _ _ _ h => simpa using hr.insert hw h (hfresh _)
  | openFailed _ h | acceptedRst _ _ _ _ h => simpa using (hr.insert hw h (hfresh _)).remove
  | acceptedFin _ _ _ _ _ h =>
    simp only [Core.push_tab, Core.edit_tab, Core.seeSid_tab, Core.setTab_tab]
    exact (hr.insert hw h (hfresh _)).modify fun _ h => h
  | wrote hg _ _ _ _ hle =>
    simp only [Core.put_tab, Core.debit_tab]
    refine hr.modify_at hg ?_
    dsimp only
    omega
  | block | short | closedHalf | useOn | creditOn | wake | data =>
    simp only [Core.block_tab, Core.edit_tab, Core.put_tab, Core.push_tab, Core.unblock_tab,
      Core.deliver_tab, Core.hear_tab]
    exact hr.modify fun _ h => h
  | fin =>
    simp only [Core.push_tab, Core.edit_tab, Core.hear_tab, Core.deliver_tab, Table.modify_modify]
    exact hr.modify fun _ h => h
  | creditedOn | creditedOnOver =>
    simp only [Core.edit_tab, Core.die_tab, Core.hear_tab]
    refine hr.modify fun st h => ?_
    dsimp only
    omega
  | woken =>
    simp only [Core.push_tab, Core.unblock_tab, Core.edit_tab, Core.hear_tab, Table.modify_modify]
    refine hr.modify fun st h => ?_
    dsimp only [Function.comp_apply]
    omega
  | closedFull | reset | resetBy | aborted => simpa using hr.remove
  | finLast =>
    simp only [Core.push_tab, Core.drop_tab, Core.deliver_tab, Core.hear_tab]
    refine (hr.modify ?_).remove
    exact fun _ h => h
  | _ => simpa using hr

/-- The windows a session may send in. -/
structure Core.Roomy (c : Core) : Prop where
  wf : c.Wf
  stream : Every c.tab fun st => 0 ≤ st.sendWin
  conn : 0 ≤ c.sessSendWin

theorem Session.reach_roomy {cfg role} {okc : Session → Call → Prop} {s s' : Session}
    (h₀ : muxSessionNew cfg role = some s) (h : Reach (ofFun Session.call) okc s s') :
    s'.toCore.Roomy := by
  obtain ⟨hstart, hw, -⟩ := muxSessionNew_spec h₀
  have hsteps : Reach Step (fun _ _ => True) s.toCore s'.toCore :=
    Session.reach_steps h hw fun s a _ _ => permits_any s a
  refine hsteps.inv (I := Core.Roomy) ⟨hw, fun i st hg => ?_, ?_⟩ fun c a c' hi _ hs =>
    ⟨hs.wf hi.wf, hs.stream_room hi.wf.tab hi.stream, hs.conn_room hi.conn⟩
  · rw [hstart, (startCore_tab cfg role).2 i] at hg
    cases hg
  · rw [hstart]
    cases role <;> simp [startCore, initSession]

end Room

/-! ### The call -/

section Write

variable {s s' : Session} {i : ℕ} {st : MuxStream}

theorem marked_tab (hg : s.tab.get i = some st) (b : Prop) [Decidable b] (short) :
    (noteShort (if b then setBlocked s i true else s) i short).tab
      = s.tab.modify i fun st => { st with
        sendBlocked := st.sendBlocked || b
        shortAt := if short then some s.queued.length else st.shortAt } := by
  have hblock : (if b then setBlocked s i true else s).tab
      = s.tab.modify i fun st => { st with sendBlocked := st.sendBlocked || b } := by
    split
    · rename_i hb
      rcases hsb : st.sendBlocked with _ | _
      · rw [setBlocked_true s hg hsb]
        simp [hb, Core.block]
      · rw [setBlocked_true_of_blocked s hg hsb]
        exact (Table.modify_id_of_get hg (by simp [← hsb, hb])).symm
    · rename_i hb
      exact (Table.modify_id_of_get hg (by simp [hb])).symm
  have hqueued : (if b then setBlocked s i true else s).queued = s.queued := by
    split <;> simp
  unfold noteShort
  rw [hqueued]
  split
  · dsimp only
    rw [hblock, Table.modify_modify]
    rfl
  · exact hblock

theorem stFind_modify_of_ne {t : Table MuxStream} (hw : TabWf t) (hg : t.get i = some st) {g}
    (hk : ∀ st, (g st).sid = st.sid) {sid} (hne : sid ≠ st.sid) :
    stFind (t.modify i g) sid = stFind t sid := by
  unfold stFind
  rw [Table.find_modify i hk]
  rcases hf : t.find mixSid MuxStream.sid sid with _ | j
  · rfl
  · obtain ⟨-, r, hr, rfl⟩ := Table.find_some hw hf
    have hj : j ≠ i := by
      rintro rfl
      rw [Table.get_eq_some, hr] at hg
      cases hg
      exact hne rfl
    simp only [Option.bind_some, Table.get_modify_of_ne hj]

theorem stFind_modify_self {t : Table MuxStream} (hf : stFind t st.sid = some (i, st)) {g}
    (hk : ∀ st, (g st).sid = st.sid) : stFind (t.modify i g) st.sid = some (i, g st) := by
  unfold stFind at hf ⊢
  rw [Table.find_modify i hk]
  rcases hj : t.find mixSid MuxStream.sid st.sid with _ | j
  · rw [hj] at hf
    cases hf
  · rw [hj, Option.bind_some, Option.map_eq_some_iff] at hf
    obtain ⟨r, hr, he⟩ := hf
    cases he
    rw [Option.bind_some, Table.get_modify_self hr, Option.map_some]

theorem marked_out (s : Session) (i : ℕ) (b : Prop) [Decidable b] (short) :
    (noteShort (if b then setBlocked s i true else s) i short).out = s.out
      ∧ (noteShort (if b then setBlocked s i true else s) i short).sent = s.sent
      ∧ (noteShort (if b then setBlocked s i true else s) i short).sessSendWin = s.sessSendWin := by
  have h : ∀ s' : Session, (noteShort s' i short).out = s'.out
      ∧ (noteShort s' i short).sent = s'.sent
      ∧ (noteShort s' i short).sessSendWin = s'.sessSendWin := by
    intro s'
    unfold noteShort
    split <;> exact ⟨rfl, rfl, rfl⟩
  obtain ⟨h1, h2, h3⟩ := h (if b then setBlocked s i true else s)
  rw [h1, h2, h3]
  split
  · refine ⟨by simp, by simp, ?_⟩
    unfold setBlocked
    split
    · rfl
    · split_ifs <;> rfl
  · exact ⟨rfl, rfl, rfl⟩

theorem WriteSpec.of_marked {s₁ : Session} {p : Bytes} {r : ℕ} {b : Prop} [Decidable b] {short}
    (hw : s.toCore.Wf) (hpos : s.out.spos ≤ s.out.data.length)
    (hf : stFind s.tab st.sid = some (i, st))
    (htab : s₁.tab = s.tab.modify i fun st => { st with sendWin := st.sendWin - r })
    (hconn : s₁.sessSendWin = s.sessSendWin - r) (hout : Outgoing s s₁)
    (hsent : Chunked s s₁ st.sid p r) (hle : r ≤ p.length) (hwin : (r : ℤ) ≤ st.sendWin)
    (hsess : (r : ℤ) ≤ s.sessSendWin)
    (hs' : s' = noteShort (if b then setBlocked s₁ i true else s₁) i short)
    (hb : s'.overflow = false → r < p.length → b)
    (hfull : s'.overflow = false → (r : ℤ) = min (p.length : ℤ) (min st.sendWin s.sessSendWin)) :
    WriteSpec s s' st p r := by
  obtain ⟨hg, -⟩ := stFind_some hw.tab hf
  have hg₁ : s₁.tab.get i = some { st with sendWin := st.sendWin - r } := by
    rw [htab]
    exact Table.get_modify_self hg _
  obtain ⟨hmout, hmsent, hmconn⟩ := marked_out s₁ i b short
  have hmtab := marked_tab hg₁ b short
  rw [htab, Table.modify_modify] at hmtab
  rw [← hs'] at hmout hmsent hmconn hmtab
  have hself := stFind_modify_self hf (g := (fun st => { st with
      sendBlocked := st.sendBlocked || b
      shortAt := if short then some s₁.queued.length else st.shortAt })
    ∘ fun st => { st with sendWin := st.sendWin - r }) fun _ => rfl
  refine ⟨hle, ?_, ?_, ⟨i, _, hf, hmtab ▸ hself, rfl, ?_, fun ho hr => ?_, fun j hj => ?_⟩,
    fun sid hne => ?_, hfull⟩
  · obtain ⟨ps, h1, h2, h3⟩ := hsent
    obtain ⟨-, fs, h4, h5, h6⟩ := hout hpos
    obtain rfl : ps.map (dataFrame st.sid) = fs := List.append_cancel_left (h1.symm.trans h4)
    refine ⟨_, ps, ?_, decodes_encodeAll h5, fun q hq => ⟨(h3 q hq).1, (h3 q hq).2⟩, h2⟩
    rw [muxSendBuf_eq, muxSendBuf_eq, hmout]
    exact h6
  · rw [hmconn, hconn]
    exact ⟨rfl, by omega⟩
  · dsimp only [Function.comp_apply]
    omega
  · simp [hb ho hr]
  · rw [hmtab, Table.get_modify_of_ne hj]
  · rw [hmtab]
    refine stFind_modify_of_ne hw.tab hg ?_ hne
    exact fun _ => rfl

end Write

/-- On a session that is not dead, a write on a stream it has not closed takes what both windows
allow. -/
theorem mux_write_takes {cfg : MuxConfig} {role : MuxRole} {s₀ s : Session}
    (h₀ : muxSessionNew cfg role = some s₀)
    (h : Reach (ofFun Session.call) (fun _ _ => True) s₀ s) (hd : s.dead = false) {sid : UInt32}
    {i : ℕ} {st : MuxStream} (hf : stFind s.tab sid = some (i, st)) (hl : st.life ≠ .hclLocal)
    (p : Bytes) (_hp : p.length < 2 ^ 63) :
    ∃ r, (muxWrite s sid p).2 = .ok r ∧ st.sid = sid ∧ WriteSpec s (muxWrite s sid p).1 st p r := by
  obtain ⟨hw, hpos⟩ := Session.reach_wf h₀ h
  obtain ⟨-, hstream, hconn⟩ := Session.reach_roomy h₀ h
  obtain ⟨hg, rfl⟩ := stFind_some hw.tab hf
  have hst := hstream i st hg
  have hlive : (muxWrite s st.sid p).1.overflow = false →
      (muxWrite s st.sid p).1.dead = false := fun ho =>
    (muxWrite_strokes (l := False) nofun st.sid p nofun).alive (fun _ h => h) ho hd
  by_cases hroom : min st.sendWin s.sessSendWin ≤ 0
  · have heq : muxWrite s st.sid p
        = (noteShort (if True then setBlocked s i true else s) i (0 < p.length), .ok 0) := by
      rw [muxWrite, if_neg (by simp [hd]), hf]
      dsimp only
      rw [if_neg hl, if_pos hroom, if_pos trivial]
    refine ⟨0, by rw [heq], rfl, .of_marked hw hpos hf ?_ (by simp) (.refl s) ⟨[], by simp⟩
      (Nat.zero_le _) (by simpa using hst) (by simpa using hconn) (congrArg Prod.fst heq)
      (fun _ _ => trivial) fun _ => ?_⟩
    · exact (Table.modify_id_of_get hg (by simp)).symm
    · push_cast
      omega
  · rw [Int.not_le] at hroom
    obtain ⟨s₁, k, hk⟩ : ∃ s₁ k, Placed (fun _ _ => True) s s₁ i st p k :=
      muxWrite_placed (fun _ => trivial) (fun _ => trivial) hd hg hf hl p hroom
    obtain ⟨h1, h2, h3, h4⟩ := placeable_le s st p hroom
    have hle := hk.le
    have hdead : (muxWrite s st.sid p).1.dead = s₁.dead := by
      rw [hk.eq]
      refine (congrArg (·.1) (noteShort_log _ i _)).trans ?_
      split
      · exact setBlocked_dead s₁ i true
      · rfl
    have hfull : (muxWrite s st.sid p).1.overflow = false → k = placeable s st p := fun ho =>
      hk.full (hdead.symm.trans (hlive ho))
    have hsess := hk.sess
    refine ⟨k, by rw [hk.eq], rfl, .of_marked hw hpos hf hk.tab hk.sess hk.handles.2 hk.sent
      (by omega) (by omega) (by omega) (congrArg Prod.fst hk.eq) (fun ho hlt => ⟨hlt, ?_⟩)
      fun ho => ?_⟩
    · have := hfull ho
      omega
    · have := hfull ho
      unfold placeable at this h4
      split at this <;> omega

/-- A dialer grants one byte a stream, and the acceptor writes two: one is taken. -/
theorem mux_write_takes_one :
    ∃ s st, s.dead = false ∧ stFind s.tab 1 = some (mixSid 1 % 64, st)
      ∧ WriteSpec s (muxWrite s 1 [7, 7]).1 st [7, 7] 1 := by
  let cfg : MuxConfig := { maxStreams := 1 }
  let l : List Call := [.recv (encode
    { type := muxTHello, flags := 0, sid := muxSidControl
      payload := tlvBytes (muxTlvInitWindow, bePut32 1) }), .recv (encode (synFrame 1 []))]
  let st : MuxStream :=
    { sid := 1, life := .open, sendBlocked := false, sendWin := 1, recvWin := 262144
      recvPending := 0, delivered := 0, consumed := 0, shortAt := none }
  have hnew : muxSessionNew cfg .acceptor = some (initSession cfg .acceptor) := rfl
  have hf : stFind (l.foldl Session.call (initSession cfg .acceptor)).tab 1
      = some (mixSid 1 % 64, st) := by decide +kernel
  have hd : (l.foldl Session.call (initSession cfg .acceptor)).dead = false := by decide +kernel
  obtain ⟨r, hr, -, h⟩ := mux_write_takes hnew (.foldl l (by simp [l, Allowed])) hd hf (by decide)
    [7, 7] (by decide)
  have hone : (muxWrite (l.foldl Session.call (initSession cfg .acceptor)) 1 [7, 7]).2 = .ok 1 := by
    decide +kernel
  cases hr.symm.trans hone
  exact ⟨_, st, hd, hf, h⟩

end MuxProtocol
