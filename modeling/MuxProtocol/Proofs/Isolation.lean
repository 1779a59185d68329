import MuxProtocol.Proofs.ReadPath

/-!
# Streams of earlier sessions

Stream ids start again with every session, while a stream of a lost session lives on until the
application closes it. What the thread of the library does for a stream, it does in the session of
the stream, as long as the application closes a stream before its tunnel is lost: one that is closed
afterwards is put on the pending list, and worked on in the next session.
-/

namespace MuxProtocol

open Machine Intrusive

/-- The stream that a call is about. -/
def Call.target : Call → Option UInt32
  | .write sid _ | .close sid | .reset sid _ | .consume sid _ => some sid
  | _ => none

namespace LpClient

variable {c c' : LpClient} {p : ℕ} {st st' : LpStream} {s : Session} {a : Act}
  {hmac : Hmac}

/-- Streams are closed in their session only. -/
def Prompt (c : LpClient) : Move → Prop
  | .app (.close p) => ∀ st ∈ c.handle p, c.Current st
  | _ => True

instance Prompt.decidable (c : LpClient) : ∀ m, Decidable (c.Prompt m)
  | .app (.close _) => inferInstanceAs (Decidable (∀ st ∈ c.handle _, c.Current st))
  | .app .accept | .app (.read ..) | .app (.readNb ..) | .app (.write ..) | .app (.writeNb ..)
  | .app .fileno | .app (.poll _) | .app .disconnect | .up _ | .work | .stash _ | .recv | .event
  | .timer _ | .advance _ | .down => inferInstanceAs (Decidable True)

/-- The streams with work are those of the present session, and so were those that calls were made
for. -/
structure Apart (c : LpClient) : Prop where
  pends : Each (fun _ st => st.inPending = true → c.Current st) c.heap
  own : ∀ x ∈ c.issued, x.1 = c.epoch
    ∧ ∃ s sid, c.mux = some s ∧ x.2.target = some sid ∧ sid ∈ openedIds s.popped

theorem StreamStep.inPending {on} (h : StreamStep on a st st') (hin : st'.inPending = true) :
    st.inPending = true ∨ st.inReg = true ∨ (st.appClosed = false ∧ st.reset = false)
      ∨ ∃ p, a = .app (.close p) := by
  cases h with
  | arrive | closed | reset | sated =>
    rw [LpStream.news_inPending] at hin
    exact .inl hin
  | lose =>
    rw [LpStream.news_inPending] at hin
    refine .inl ?_
    split at hin
    · exact hin
    · exact hin
  | pend hr => exact .inr (.inl hr)
  | read n hc hr | write b hc hr => exact .inr (.inr (.inl ⟨hc, hr⟩))
  | close => exact .inr (.inr (.inr ⟨_, rfl⟩))
  | retire | stall => simp [LpStream.unpend] at hin
  | credited | send | finish | accept | again | want | unmark => exact .inl hin

/-- A stream that can be read and written is of the present session. -/
theorem Moored.of_open (h : Moored c st) (hs : st.Sane) (hc : st.appClosed = false)
    (hr : st.reset = false) : c.Current st := by
  refine h.done ?_
  by_contra hno
  rcases hs.done (by simpa using hno) with hreset | ⟨hf, -⟩
  · simp [hr] at hreset
  · simp [(hs.fin hf).1] at hc

theorem Sound.opened_of_current (h : Sound c) (hp : c.heap p = some st) (hc : c.Current st) :
    ∃ s, c.mux = some s ∧ st.sid ∈ openedIds s.popped :=
  h.links.ids st.sid p ((h.links.reg st.sid p).2 ⟨st, hp, (h.moored p st hp).reg.2 hc, rfl⟩)

/-- The events that a deed takes from the queue. -/
def Act.events : Act → List Event
  | .event ev => [ev]
  | _ => []

/-- The session after a deed: the library opens no stream, and takes events one by one. -/
theorem Called.popped (h : Called c a c') (hi : Links c) (hs : c.mux = some s) :
    ∃ s', c'.mux = some s' ∧ s'.popped = s.popped ++ a.events
      ∧ synIds s'.sent = synIds s.sent := by
  have hserved := hi.served s hs
  have hmux : ∀ b : Call, (c.call b).mux = some (s.call b) := fun b =>
    Option.map_eq_some_iff.2 ⟨s, hs, rfl⟩
  have hquiet : ∀ b : Call, (∀ m, b ≠ .open m) → synIds (s.call b).sent = synIds s.sent := by
    intro b hb
    rw [Session.call_synIds hserved.wf]
    cases b with
    | «open» m => exact absurd rfl (hb m)
    | _ => exact List.append_nil _
  have hcalled : ∀ b : Call, b ≠ .nextEvent → (∀ m, b ≠ .open m) → c'.mux = (c.call b).mux →
      ∃ s', c'.mux = some s' ∧ s'.popped = s.popped ++ [] ∧ synIds s'.sent = synIds s.sent :=
    fun b hne hno h => ⟨s.call b, h.trans (hmux b),
      by rw [(Session.call_pushes hne s).popped, List.append_nil], hquiet b hno⟩
  cases h with
  | none h hev hiss =>
    have hnil : a.events = [] := by
      cases a with
      | event ev => exact absurd rfl (hev ev)
      | _ => rfl
    exact ⟨s, h.mux.trans hs, by rw [hnil, List.append_nil], rfl⟩
  | idle hb h => exact hcalled _ hb.ne_nextEvent hb.ne_open h.mux
  | event hs' hf h =>
    obtain rfl := Option.some.inj (hs.symm.trans hs')
    exact ⟨_, h.mux.trans (hmux _), hserved.popped_front hf, hquiet _ (by simp)⟩
  | issue hp hin hb h =>
    refine hcalled _ ?_ ?_ h.mux
    · rcases hb with rfl | rfl | rfl <;> simp
    · rcases hb with rfl | rfl | rfl <;> simp

/-- But for a close, a stream gets work only while its session lasts. -/
theorem Deed.pends (h : Deed c a c') (hi : Sound c) (hclose : ∀ p, a ≠ .app (.close p))
    (hp : Each (fun _ st => st.inPending = true → c.Current st) c.heap) :
    Each (fun _ st => st.inPending = true → c'.Current st) c'.heap := by
  have hout := h.outcome hi.links
  by_cases hup : a = .up
  · subst hup
    cases h with
    | up hfd hn =>
      refine hout.each hp (fun _ _ st hst hin => ?_) (fun _ _ _ h => by cases h)
        (fun _ _ _ _ _ hs => by cases hs) (fun h => by cases h)
      have := hi.links.fd.symm.trans hfd
      simp [(hst hin).2] at this
  by_cases hdown : a = .hangUp
  · exact hout.each hp (fun h => absurd hdown h) (fun _ _ _ h => by simp [hdown] at h)
      (fun _ _ _ _ _ hs => by subst hdown; cases hs) fun _ _ _ _ _ hin => by
        simp [LpStream.bereave] at hin
  have hcur := h.current hi.links hup hdown
  have hall : Each (fun _ st => st.Sane ∧ Moored c st ∧ (st.inPending = true → c.Current st))
      c.heap := fun q st hq => ⟨hi.sane q st hq, hi.moored q st hq, hp q st hq⟩
  rw [hcur]
  refine hout.each hall (fun _ _ _ hst => hst.2.2) (fun _ _ _ _ h => by simp at h)
    (fun _ st st' _ hst hs hin => ?_) (fun h => absurd h hdown)
  obtain ⟨hsane, hmoored, hst⟩ := hst
  rw [Current, hs.born]
  rcases hs.inPending hin with hin | hreg | ⟨hc, hr⟩ | ⟨q, rfl⟩
  · exact hst hin
  · exact hmoored.reg.1 hreg
  · exact hmoored.of_open hsane hc hr
  · exact absurd rfl (hclose q)

/-- Calls are made for streams of the present session only. -/
theorem Deed.own (h : Deed c a c') (hi : Sound c) (ha : Apart c) :
    ∀ x ∈ c'.issued, x.1 = c'.epoch
      ∧ ∃ s sid, c'.mux = some s ∧ x.2.target = some sid ∧ sid ∈ openedIds s.popped := by
  by_cases hup : a = .up
  · subst hup
    cases h with
    | up hfd hn =>
      intro x hx
      obtain ⟨-, s, -, hs, -⟩ := ha.own x hx
      have := hi.links.fd.symm.trans hfd
      simp [hs] at this
  by_cases hdown : a = .hangUp
  · subst hdown
    cases h with
    | hangUp =>
      rw [hi.links.hangUp_eq]
      simp
  have hcall := h.called hi.links hup hdown
  have hold : ∀ x : ℕ × Call, (x.1 = c.epoch
      ∧ ∃ s sid, c.mux = some s ∧ x.2.target = some sid ∧ sid ∈ openedIds s.popped) →
      x.1 = c'.epoch
        ∧ ∃ s sid, c'.mux = some s ∧ x.2.target = some sid ∧ sid ∈ openedIds s.popped := by
    rintro x ⟨he, s, sid, hs, ht, hid⟩
    obtain ⟨s', hs', hpop, -⟩ := hcall.popped hi.links hs
    exact ⟨he.trans hcall.epoch.symm, s', sid, hs', ht, openedIds_mono ⟨_, hpop.symm⟩ hid⟩
  intro x hx
  refine hold x ?_
  cases hcall with
  | none h | idle _ h | event _ _ h => exact ha.own x (h.issued ▸ hx)
  | issue hp hin hb h =>
    rw [h.issued] at hx
    rcases List.mem_append.1 hx with hx | hx
    · exact ha.own x hx
    -- the stream was pending, so it is of this session
    · have hcur := ha.pends _ _ hp hin
      obtain ⟨s, hs, hid⟩ := hi.opened_of_current hp hcur
      rw [List.mem_singleton.1 hx]
      refine ⟨hcur.1, s, _, hs, ?_, hid⟩
      rcases hb with rfl | rfl | rfl <;> rfl

theorem close_apart (hi : Sound c) (ha : Apart c) (hok : c.Prompt (.app (.close p))) :
    Apart (c.app (.close p)) := by
  simp only [app]
  rcases hh : c.handle p with _ | st
  · exact ha
  · rw [Option.map_some, Option.getD_some]
    have hp := (handle_some hh).1
    have hd : Deed c (.app (.close p)) (c.lpClose p) := .close hh
    have hcur : (c.lpClose p).Current = c.Current := hd.current hi.links (by simp) (by simp)
    refine ⟨?_, hd.own hi ha⟩
    have hheap : (c.lpClose p).heap = Function.update c.heap p
        (some ({ st with appClosed := true } : LpStream).pend) := modify_pendingPush_heap hp _
    rw [hheap, hcur]
    exact ha.pends.set fun _ => hok st hh

/-- Prompt moves keep the sessions apart. -/
theorem move_apart (hi : Sound c) (ha : Apart c) {m} (hok : c.Prompt m) :
    Apart (c.move hmac m) := by
  by_cases hm : ∃ p, m = .app (.close p)
  · obtain ⟨p, rfl⟩ := hm
    exact close_apart hi ha hok
  · have hnot : ∀ a : Act, a.Of m → ∀ p, a ≠ .app (.close p) := by
      rintro a hof p rfl
      exact hm ⟨p, hof⟩
    have := Reach.inv (I := fun c => Sound c ∧ Apart c) ⟨hi, ha⟩
      (fun _ a _ h hof hd =>
        ⟨hd.sound h.1, hd.pends h.1 (hnot a hof) h.2.pends, hd.own h.1 h.2⟩)
      (move_deeds hmac hi.links m)
    exact this.2

theorem apart_start (cfg) : Apart (lpConnect cfg) :=
  ⟨fun p st hp => by simp [lpConnect] at hp, fun x hx => by simp [lpConnect] at hx⟩

/-- The sessions are apart in every state that is reached. -/
theorem reach_apart {cfg} (hr : Reach (ofFun (move hmac)) Prompt (lpConnect cfg) c) :
    Sound c ∧ Apart c :=
  hr.inv (I := fun c => Sound c ∧ Apart c) ⟨sound_start cfg, apart_start cfg⟩
    fun _ m _ h hok hs => by
    rw [hs]
    exact ⟨move_sound h.1 m, move_apart h.1 h.2 hok⟩

/-- Every call for a stream is made in the session in which the stream was opened, in every run in
which no stream is closed after its session is lost. -/
theorem calls_in_own_session {cfg : LpConfig}
    (hr : Reach (ofFun (move hmac)) Prompt (lpConnect cfg) c) :
    ∀ x ∈ c.issued, x.1 = c.epoch
      ∧ ∃ s sid, c.mux = some s ∧ x.2.target = some sid ∧ sid ∈ openedIds s.popped :=
  (reach_apart hr).2.own

/-- A stream is closed in its session, which ends; in the next one another stream is read. -/
def promptRun : List Move :=
  plugIn ++ hears (synFrame 1 []) ++ [.app .accept, .app (.close 0), .work, .down] ++ plugIn
    ++ hears (synFrame 1 []) ++ [.app .accept] ++ hears (dataFrame 1 [7])
      ++ [.app (.read 1 1), .work]

theorem calls_in_own_session_promptRun :
    ∃ c, c = promptRun.foldl (move nullHmac) (lpConnect { listens := true })
      ∧ c.issued.map Prod.fst = [2] ∧ c.epoch = 2
      ∧ ∀ x ∈ c.issued, ∃ s sid, c.mux = some s ∧ x.2.target = some sid
        ∧ sid ∈ openedIds s.popped := by
  have hr : Reach (ofFun (move nullHmac)) Prompt (lpConnect { listens := true })
      (promptRun.foldl (move nullHmac) (lpConnect { listens := true })) :=
        .foldl _ (by decide +kernel)
  exact ⟨_, rfl, by decide +kernel, by decide +kernel,
    fun x hx => (calls_in_own_session hr x hx).2⟩

/-- The application writes to a stream, the tunnel is lost, and in the next session there is a
stream with the same id; then the first one is closed. -/
def staleRun : List Move :=
  plugIn ++ hears (synFrame 1 []) ++ [.app .accept, .app (.write 0 [7]), .down] ++ plugIn
    ++ hears (synFrame 1 []) ++ [.app .accept, .app (.close 0), .work]

/-- What the first was written goes out on the second, and so does its FIN. -/
theorem stale_close_writes :
    ∃ c s, Reach (ofFun (move nullHmac)) (fun _ _ => True) (lpConnect { listens := true }) c
      ∧ c.epoch = 2 ∧ c.issued.map (fun x => (x.1, x.2.target)) = [(1, some 1), (1, some 1)]
      ∧ (c.heap 1).map (fun st => (st.born, st.sid, st.written, st.appClosed))
        = some (2, 1, [], false)
      ∧ c.mux = some s ∧ bytesOf (msgs 1 s.sent) = [7] := by
  have hr : Reach (ofFun (move nullHmac)) (fun _ _ => True) (lpConnect { listens := true })
      (staleRun.foldl (move nullHmac) (lpConnect { listens := true })) :=
        .foldl _ (by decide +kernel)
  have hmux : (staleRun.foldl (move nullHmac) (lpConnect { listens := true })).mux.any
      fun s => bytesOf (msgs 1 s.sent) == [7] := by decide +kernel
  obtain ⟨s, hs, hb⟩ := (Option.any_eq_true _ _).1 hmux
  exact ⟨_, s, hr, by decide +kernel, by decide +kernel, by decide +kernel, hs, beq_iff_eq.1 hb⟩

end LpClient

end MuxProtocol
