import MuxProtocol.Proofs.Lifetime

/-!
# What the application reads

The bytes of a stream that the application has read and those in its buffer are those that came, in
order; and the end of a stream is told from its loss, but for a `lp_read` during the shutdown.
-/

namespace MuxProtocol

open Machine Intrusive

/-- The buffers and the flags of a stream fit what has happened to it. -/
structure LpStream.Sane (st : LpStream) : Prop where
  read : st.surfaced = st.returned ++ st.rbuf
  wrote : st.written = st.sent ++ st.wbuf
  fin : st.finSent = true → st.appClosed = true ∧ st.wbuf = []
  eof : st.eof = true ↔ st.told = true ∨ st.reset = true
  reset : st.reset = true → st.protoDone = true
  done : st.protoDone = true → st.reset = true ∨ (st.finSent = true ∧ st.eof = true)

namespace LpStream.Sane

variable {st : LpStream}

theorem news (h : st.Sane) (on bits) : (st.news on bits).Sane := by
  unfold LpStream.news
  split
  · exact ⟨h.read, h.wrote, h.fin, h.eof, h.reset, h.done⟩
  · exact h

theorem pend (h : st.Sane) : st.pend.Sane :=
  ⟨h.read, h.wrote, h.fin, h.eof, h.reset, h.done⟩

theorem arrive (h : st.Sane) (data) : (st.arrive data).Sane :=
  ⟨by simp [LpStream.arrive, h.read], h.wrote, h.fin, h.eof, h.reset, h.done⟩

theorem closed (h : st.Sane) : st.closed.Sane := by
  refine ⟨h.read, h.wrote, h.fin, by simp [LpStream.closed], fun hr => ?_, fun hd => ?_⟩
  · simp [LpStream.closed, h.reset hr]
  · rcases Bool.or_eq_true_iff.1 hd with hd | hf
    · exact (h.done hd).imp_right fun h => ⟨h.1, rfl⟩
    · exact .inr ⟨hf, rfl⟩

theorem aborted (h : st.Sane) : st.aborted.Sane :=
  ⟨h.read, h.wrote, h.fin, by simp [LpStream.aborted], fun _ => rfl, fun _ => .inl rfl⟩

theorem readBytes (h : st.Sane) (n : ℕ) : (st.read n).Sane :=
  ⟨by simp [LpStream.read, h.read], h.wrote, h.fin, h.eof, h.reset, h.done⟩

theorem write (h : st.Sane) (hc : st.appClosed = false) (b) : (st.write b).Sane := by
  refine ⟨h.read, by simp [LpStream.write, h.wrote], fun hf => ?_, h.eof, h.reset, h.done⟩
  have := (h.fin hf).1
  simp [hc] at this

theorem send (h : st.Sane) (w : ℕ) : (st.send w).Sane := by
  refine ⟨h.read, by simp [LpStream.send, h.wrote], fun hf => ?_, h.eof, h.reset, h.done⟩
  exact ⟨(h.fin hf).1, by simp [LpStream.send, (h.fin hf).2]⟩

theorem finish (h : st.Sane) (hc : st.appClosed = true) (hw : st.wbuf = []) : st.finish.Sane := by
  refine ⟨h.read, h.wrote, fun _ => ⟨hc, hw⟩, h.eof, fun hr => ?_, fun hd => ?_⟩
  · simp [LpStream.finish, h.reset hr]
  · rcases Bool.or_eq_true_iff.1 hd with hd | he
    · exact (h.done hd).imp_right fun h => ⟨rfl, h.2⟩
    · exact .inr ⟨rfl, he⟩

theorem fresh (sid m) (epoch : ℕ) (reg) :
    ({ sid := sid, metadata := m, born := epoch, inReg := reg } : LpStream).Sane :=
  ⟨rfl, rfl, by simp, by simp, by simp, by simp⟩

end LpStream.Sane

namespace LpClient

variable {c c' : LpClient} {p n : ℕ} {st : LpStream} {hmac : Hmac}

/-- Each kind of change fits the flags of its stream. -/
theorem StreamStep.sane {on a} {st' : LpStream} (h : StreamStep on a st st') (hs : st.Sane) :
    st'.Sane := by
  cases h with
  | arrive _ b => exact (hs.arrive b).news _ _
  | closed => exact hs.closed.news _ _
  | reset => exact hs.aborted.news _ _
  | send _ w => exact hs.send w
  | finish _ hc hw => exact hs.finish hc hw
  | lose =>
    refine .news ?_ _ _
    split
    · exact hs
    · exact hs.aborted
  | read n => exact (hs.readBytes n).pend
  | write b hc => exact (hs.write hc b).pend
  | close =>
    exact ⟨hs.read, hs.wrote, fun hf => ⟨rfl, (hs.fin hf).2⟩, hs.eof, hs.reset, hs.done⟩
  | sated =>
    refine .news ?_ _ _
    exact ⟨hs.read, hs.wrote, hs.fin, hs.eof, hs.reset, hs.done⟩
  | pend | credited | retire | stall | accept | again | want | unmark =>
    exact ⟨hs.read, hs.wrote, hs.fin, hs.eof, hs.reset, hs.done⟩

theorem Deed.sane {a} (h : Deed c a c') (hi : Links c) (hs : Each (fun _ => LpStream.Sane) c.heap) :
    Each (fun _ => LpStream.Sane) c'.heap :=
  (h.outcome hi).each hs (fun _ _ _ h => h) (fun _ _ _ _ => .fresh _ _ _ _)
    (fun _ _ _ _ h hs => hs.sane h)
    fun _ _ _ _ h => ⟨h.read, h.wrote, h.fin, h.eof, h.reset, h.done⟩

/-! ### Streams of lost sessions -/

/-- The session of the stream is there. -/
def Current (c : LpClient) (st : LpStream) : Prop := st.born = c.epoch ∧ c.mux.isSome = true

instance Current.decidable (c : LpClient) (st : LpStream) : Decidable (c.Current st) :=
  inferInstanceAs (Decidable (_ ∧ _))

/-- Where a stream stands to the present session. -/
structure Moored (c : LpClient) (st : LpStream) : Prop where
  reg : st.inReg = true ↔ c.Current st
  born : st.born ≤ c.epoch
  done : st.protoDone = false → c.Current st

theorem StreamStep.inReg {on a} {st' : LpStream} (h : StreamStep on a st st') :
    st'.inReg = st.inReg := by
  cases h with
  | arrive | closed | reset | sated => exact LpStream.news_inReg _ _ _
  | lose =>
    rw [LpStream.news_inReg]
    split <;> rfl
  | _ => rfl

theorem StreamStep.born {on a} {st' : LpStream} (h : StreamStep on a st st') :
    st'.born = st.born := by
  cases h with
  | arrive | closed | reset | sated => exact LpStream.news_born _ _ _
  | lose =>
    rw [LpStream.news_born]
    split <;> rfl
  | _ => rfl

theorem StreamStep.protoDone {on a} {st' : LpStream} (h : StreamStep on a st st')
    (hd : st.protoDone = true) : st'.protoDone = true := by
  cases h with
  | arrive | sated => exact (LpStream.news_protoDone _ _ _).trans hd
  | closed => simp [LpStream.closed, hd]
  | reset => simp [LpStream.aborted]
  | finish => simp [LpStream.finish, hd]
  | lose => simp [hd]
  | _ => exact hd

theorem Deed.current {a} (h : Deed c a c') (hi : Links c) (hup : a ≠ .up) (hdown : a ≠ .hangUp) :
    c'.Current = c.Current := by
  have hcall := h.called hi hup hdown
  funext st
  rw [Current, Current, hcall.epoch, hcall.isSome]

/-- A deed keeps where every stream stands to the session. -/
theorem Deed.moored {a} (h : Deed c a c') (hi : Links c) (hm : Each (fun _ => Moored c) c.heap) :
    Each (fun _ => Moored c') c'.heap := by
  have hout := h.outcome hi
  by_cases hup : a = .up
  · subst hup
    cases h with
    | up hfd hn =>
      have hnone : ∀ st, ¬ c.Current st := fun st hc => by
        have := hi.fd.symm.trans hfd
        simp [hc.2] at this
      refine hout.each hm (fun _ _ st hst => ⟨?_, Nat.le_succ_of_le hst.born, fun hd => ?_⟩)
        (fun _ _ _ h => by cases h) (fun _ _ _ _ _ hs => by cases hs) (fun h => by cases h)
      · refine ⟨fun hr => absurd (hst.reg.1 hr) (hnone st), fun hc => ?_⟩
        have hb := hst.born
        have := hc.1
        dsimp only at this
        omega
      · exact absurd (hst.done hd) (hnone st)
  by_cases hdown : a = .hangUp
  · subst hdown
    cases h with
    | hangUp hall =>
      refine hout.each hm (fun h => absurd rfl h) (fun _ _ _ h => by cases h)
        (fun _ _ _ _ _ hs => by cases hs) fun _ p st hp hst => ⟨?_, ?_, fun hd => ?_⟩
      · rw [hi.hangUp_eq]
        simp [LpStream.bereave, Current]
      · rw [hi.hangUp_eq]
        exact hst.born
      · exact absurd (hall p st hp) (by simpa [LpStream.bereave] using hd)
  have hcur := h.current hi hup hdown
  have hepoch := (h.called hi hup hdown).epoch
  refine hout.each hm (fun _ _ st hst => ⟨hcur ▸ hst.reg, hepoch ▸ hst.born, hcur ▸ hst.done⟩)
    (fun hs sid m _ => ?_) (fun _ st st' _ hst hs => ⟨?_, ?_, fun hd => ?_⟩)
      (fun h => absurd h hdown)
  · have hnew : c.Current { sid := sid, metadata := m, born := c.epoch, inReg := true } := ⟨rfl, hs⟩
    exact ⟨by simp [hcur, hnew], hepoch.ge, fun _ => hcur ▸ hnew⟩
  · rw [hs.inReg, hcur, Current, hs.born]
    exact hst.reg
  · rw [hs.born, hepoch]
    exact hst.born
  · rw [hcur, Current, hs.born]
    refine hst.done ?_
    by_contra hno
    simp [hs.protoDone (by simpa using hno)] at hd

/-! ### Runs -/

structure Sound (c : LpClient) : Prop where
  links : Links c
  sane : Each (fun _ => LpStream.Sane) c.heap
  moored : Each (fun _ => Moored c) c.heap

theorem Deed.sound {a} (h : Deed c a c') (hi : Sound c) : Sound c' :=
  ⟨h.links hi.links, h.sane hi.links hi.sane, h.moored hi.links hi.moored⟩

theorem Deeds.sound {m} (h : Deeds m c c') (hi : Sound c) : Sound c' :=
  h.inv hi fun _ _ _ h _ hs => hs.sound h

theorem sound_start (cfg) : Sound (lpConnect cfg) :=
  ⟨links_start cfg, fun p st hp => by simp [lpConnect] at hp,
    fun p st hp => by simp [lpConnect] at hp⟩

theorem move_sound (hi : Sound c) (m) : Sound (c.move hmac m) :=
  (move_deeds hmac hi.links m).sound hi

/-- The shutdown has begun, and nothing has come that a reader could have. -/
def CutShort (c : LpClient) (st : LpStream) : Prop :=
  c.stopping = true ∧ st.rbuf = [] ∧ st.eof = false ∧ st.reset = false

instance CutShort.decidable (c : LpClient) (st : LpStream) : Decidable (c.CutShort st) :=
  inferInstanceAs (Decidable (_ ∧ _))

theorem CutShort.lpRead (h : c.CutShort st) (hn : n ≠ 0) :
    (c.lpRead p st n).2 = some (0, []) := by
  obtain ⟨hs, hb, he, hr⟩ := h
  unfold LpClient.lpRead
  rw [if_neg hn, if_neg (by simp [hs]), if_neg (by simp [hr]), if_pos hb]

end LpClient

end MuxProtocol
