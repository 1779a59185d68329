import MuxProtocol.Proofs.Credit
import MuxProtocol.Proofs.LocalClose
import MuxProtocol.Proofs.Readiness

/-!
# What the application writes

The bytes of a stream wait in its buffer until the session accepts them, in order, and the FIN waits
for the last of them. While there are any, somebody has to see to them: the stream is on the pending
list, or the session owes it a WRITABLE. All this is of one session: a stream of a lost one that is
still worked on writes to whatever stream has its id now. A writer that was refused is told when
there is room again if the client is in poll mode by then, and otherwise never.
-/

namespace MuxProtocol

open LinearProbe Machine Intrusive LpStream List Option

/-- A writer that was refused waits for the backlog to shrink. -/
def LpStream.Backlogged (st : LpStream) : Prop :=
  st.reset = false → st.wantWritable = true → lpWbufHigh / 2 < st.wbuf.length

/-- LP_WRITABLE is among the news of the stream for `lp_poll`. -/
def LpStream.Raised (st : LpStream) : Prop := st.inReady = true ∧ st.evPending.writable = true

namespace LpClient

variable {c c' : LpClient} {p q : ℕ} {st st' : LpStream} {s s' : Session} {a : Act} {b : Call}
  {sid : UInt32} {hmac : Hmac}

/-- The calls made on the present session so far are for streams of this session. -/
def Unmixed (c : LpClient) : Prop := ∀ x ∈ c.issued, x.1 = c.epoch

/-! ### Calls for a stream -/

/-- What becomes of a stream with a call for it. -/
inductive Worked (c : LpClient) (st : LpStream) : Call → LpStream → Prop
  | credited (hin : st.inPending = true) :
      Worked c st (.consume st.sid st.consumePending) st.credited
  | sent (hin : st.inPending = true) :
      Worked c st (.write st.sid st.wbuf) (st.send (c.accepts st.sid st.wbuf))
  | finished (hc : st.appClosed = true) (hw : st.wbuf = []) : Worked c st (.close st.sid) st.finish
  | stalled (hne : st.wbuf ≠ []) (hz : c.accepts st.sid st.wbuf = 0) :
      Worked c st (.write st.sid st.wbuf) st.unpend

theorem Worked.target (h : Worked c st b st') : b.target = some st.sid := by
  cases h <;> rfl

theorem Deed.worked (h : Deed c (.issue b) c') : ∃ p st st', c.heap p = some st
    ∧ Worked c st b st' ∧ Kin (c.issue st b) c'
    ∧ (c'.heap = Function.update c.heap p (some st') ∧ c'.freed = c.freed
      ∨ c'.heap = Function.update c.heap p none ∧ c'.freed = c.freed ++ [(p, st')]) := by
  cases h with
  | credit hp hin =>
    rw [modify_eq (by exact hp)]
    exact ⟨_, _, _, hp, .credited hin, ⟨rfl, rfl, rfl, rfl⟩, .inl ⟨rfl, rfl⟩⟩
  | write hp hin =>
    rw [modify_eq (by exact hp)]
    exact ⟨_, _, _, hp, .sent hin, ⟨rfl, rfl, rfl, rfl⟩, .inl ⟨rfl, rfl⟩⟩
  | fin hp _ hc hw =>
    rw [modify_eq (by exact hp)]
    exact ⟨_, _, _, hp, .finished hc hw, ⟨rfl, rfl, rfl, rfl⟩, .inl ⟨rfl, rfl⟩⟩
  | @stall p ps st hl hp hk hne hz =>
    refine ⟨p, st, st.unpend, hp, .stalled hne hz, Kin.streamTryFree ⟨rfl, rfl, rfl, rfl⟩, ?_⟩
    have hheap : ((c.issue st (.write st.sid st.wbuf)).retire p ps).heap
        = Function.update c.heap p (some st.unpend) := by
      rw [LpClient.retire, modify_eq (by exact hp)]
      rfl
    have hst : ((c.issue st (.write st.sid st.wbuf)).retire p ps).heap p = some st.unpend := by
      rw [hheap, Function.update_self]
    rcases streamTryFree_cases ((c.issue st (.write st.sid st.wbuf)).retire p ps) p with
      heq | ⟨st', hst', hd, hc, hpen, hrdy⟩
    · rw [heq]
      exact .inl ⟨hheap, rfl⟩
    · rw [hst, some_inj] at hst'
      subst hst'
      rw [streamTryFree_eq hst hd hc hpen hrdy]
      refine .inr ⟨?_, rfl⟩
      rw [hheap, Function.update_idem]

theorem Sound.sid_inj (h : Sound c) (hp : c.heap p = some st) (hq : c.heap q = some st')
    (hc : c.Current st) (hc' : c.Current st') (hsid : st'.sid = st.sid) : q = p := by
  have h1 := (h.links.reg st.sid p).2 ⟨st, hp, (h.moored p st hp).reg.2 hc, rfl⟩
  have h2 := (h.links.reg st.sid q).2 ⟨st', hq, (h.moored q st' hq).reg.2 hc', hsid⟩
  exact some.inj (h2.symm.trans h1)

/-! ### One session -/

/-- The stream `st` and the session `s` agree on what was written. -/
structure Flow (c : LpClient) (s : Session) (st : LpStream) : Prop where
  unfinished : st.finSent = false → ∀ n, (n, Call.close st.sid) ∉ c.issued
  bytes : bytesOf (msgs st.sid s.sent) = st.sent
  marked : st.wbuf ≠ [] → st.reset = false → st.inPending = false → s.dead = false →
    Every s.tab (Marked s.popped st.sid)

structure Flows (c : LpClient) (s : Session) : Prop where
  closed : ∀ n sid, (n, Call.close sid) ∈ c.issued → sid ∈ openedIds s.popped
  unclosed : ∀ sid, (∀ n, (n, Call.close sid) ∉ c.issued) → s.Unclosed sid
  silent : ∀ sid, sid ∉ openedIds s.popped → bytesOf (msgs sid s.sent) = []
  streams : Each (fun _ st => st.born = c.epoch → Flow c s st) c.heap

theorem call_bytes_of_ne (hw : s.toCore.Wf) (hne : ∀ x, b ≠ .write sid x) :
    bytesOf (msgs sid (s.call b).sent) = bytesOf (msgs sid s.sent) := by
  by_cases hb : ∃ id x, b = .write id x
  · obtain ⟨id, x, rfl⟩ := hb
    have hid : id ≠ sid := fun h => hne x (h ▸ rfl)
    rw [Session.write_bytes hw, if_neg hid, append_nil]
  · exact Session.call_bytes hw fun id x h => hb ⟨id, x, h⟩

/-- What a call for another stream, or for none, leaves of a stream. -/
theorem Flow.call (h : Flow c s st) (hsv : Served s) (hk : s.Knows st.sid)
    (hopen : ∀ m, b ≠ .open m) (hwrite : ∀ x, b ≠ .write st.sid x)
    (hpop : b = .nextEvent → ∃ ev, s.front = some ev
      ∧ (st.wbuf ≠ [] → st.inPending = false → ev ≠ .writable st.sid))
    (hiss : ∀ n, (n, Call.close st.sid) ∈ c'.issued → (n, Call.close st.sid) ∈ c.issued) :
    Flow c' (s.call b) st := by
  refine ⟨fun hf n hn => h.unfinished hf n (hiss n hn), ?_, fun hw hr hp hd => ?_⟩
  · rw [call_bytes_of_ne hsv.wf hwrite]
    exact h.bytes
  · have hm := h.marked hw hr hp (Session.call_alive hsv.wf hd)
    by_cases hb : b = .nextEvent
    · obtain ⟨ev, hfr, hev⟩ := hpop hb
      rw [hb]
      exact hsv.marked_pop hfr (hev hw hp) hm
    · exact hsv.marked_next hk hb (Session.call_few hsv.wf hsv.few hopen) hd hm

/-- A stream that waits after a step without a call has waited before. -/
theorem StreamStep.waits {on} (h : StreamStep on a st st') (ha : ∀ b, a ≠ .issue b)
    (hw : st'.wbuf ≠ []) (hr : st'.reset = false) (hp : st'.inPending = false) :
    st.wbuf ≠ [] ∧ st.reset = false ∧ st.inPending = false := by
  cases h with
  | arrive | closed | sated =>
    rw [news_wbuf] at hw
    rw [news_reset] at hr
    rw [news_inPending] at hp
    exact ⟨hw, hr, hp⟩
  | reset =>
    rw [news_reset] at hr
    cases hr
  | lose =>
    rw [news_wbuf] at hw
    rw [news_reset] at hr
    rw [news_inPending] at hp
    split at hr
    · rename_i hd
      rw [if_pos hd] at hw hp
      exact ⟨hw, hr, hp⟩
    · cases hr
  | retire _ hnil => exact absurd hnil hw
  | pend | read | write | close => cases hp
  | credited | send | finish | stall => exact absurd rfl (ha _)
  | accept | again | want | unmark => exact ⟨hw, hr, hp⟩

theorem StreamStep.sent {on} (h : StreamStep on a st st') (ha : ∀ b, a ≠ .issue b) :
    st'.sent = st.sent ∧ st'.finSent = st.finSent := by
  have hnews : ∀ (st : LpStream) (bits : LpBits),
      (st.news on bits).sent = st.sent ∧ (st.news on bits).finSent = st.finSent := fun st bits =>
    ⟨LpStream.news_field LpStream.sent (fun _ _ _ => rfl) on bits st,
      news_field finSent (fun _ _ _ => rfl) on bits st⟩
  cases h with
  | arrive | closed | reset | sated => exact hnews _ _
  | lose =>
    rw [(hnews _ _).1, (hnews _ _).2]
    split <;> exact ⟨rfl, rfl⟩
  | credited | send | finish | stall => exact absurd rfl (ha _)
  | pend | retire | accept | read | again | write | want | close | unmark => exact ⟨rfl, rfl⟩

theorem Flow.step {on} (h : Flow c s st) (hs : StreamStep on a st st') (ha : ∀ b, a ≠ .issue b) :
    Flow c s st' := by
  obtain ⟨hsent, hfin⟩ := hs.sent ha
  refine ⟨?_, ?_, fun hw hr hp hd => ?_⟩
  · rw [hfin, hs.sid]
    exact h.unfinished
  · rw [hs.sid, hsent]
    exact h.bytes
  · obtain ⟨h1, h2, h3⟩ := hs.waits ha hw hr hp
    rw [hs.sid]
    exact h.marked h1 h2 h3 hd

/-! ### The session of a deed -/

theorem Called.unmixed (h : Called c a c') (hun : Unmixed c') : Unmixed c := by
  intro x hx
  rw [← h.epoch]
  refine hun x ?_
  cases h with
  | none h | idle _ h | event _ _ h => exact h.issued ▸ hx
  | issue _ _ _ h =>
    rw [h.issued]
    exact mem_append_left _ hx

/-- What a call leaves of what is said of the session as a whole: `l` is what is noted of it. -/
theorem Flows.call {l} (h : Flows c s) (hsv : Served s) (hiss : c'.issued = c.issued ++ l)
    (hnew : ∀ n sid, (n, Call.close sid) ∈ l →
      sid ∈ openedIds s.popped) (hclose : ∀ sid, b = .close sid → ∃ n, (n, Call.close sid) ∈ l)
    (hwrite : ∀ id x, b = .write id x → id ∈ openedIds s.popped)
    (hstr : Each (fun _ st => st.born = c'.epoch → Flow c' (s.call b) st) c'.heap) :
    Flows c' (s.call b) := by
  have hmono : openedIds s.popped ⊆ openedIds (s.call b).popped :=
    openedIds_mono (hsv.popped_call b)
  refine ⟨fun n sid hn => hmono ?_, fun sid hno => ?_, fun sid hno => ?_, hstr⟩
  · rw [hiss] at hn
    rcases mem_append.1 hn with hn | hn
    · exact h.closed n sid hn
    · exact hnew n sid hn
  · refine (h.unclosed sid fun n hn => hno n ?_).call hsv.wf fun hb => ?_
    · rw [hiss]
      exact mem_append_left _ hn
    · obtain ⟨n, hn⟩ := hclose sid hb
      refine hno n ?_
      rw [hiss]
      exact mem_append_right _ hn
  · rw [call_bytes_of_ne hsv.wf fun x hb => hno (hmono (hwrite sid x hb))]
    exact h.silent sid fun hm => hno (hmono hm)

theorem Flows.congr (h : Flows c s) (hiss : c'.issued = c.issued)
    (hstr : Each (fun _ st => st.born = c'.epoch → Flow c s st) c'.heap) : Flows c' s := by
  refine ⟨?_, ?_, h.silent, fun p st hp hb => ?_⟩
  · rw [hiss]
    exact h.closed
  · rw [hiss]
    exact h.unclosed
  · have := hstr p st hp hb
    refine ⟨?_, this.bytes, this.marked⟩
    rw [hiss]
    exact this.unfinished

/-- A call for a stream writes its backlog, from the front. -/
theorem Deed.flows_issue (h : Deed c (.issue b) c') (hi : Sound c) (hs : c.mux = some s)
    (hfl : Flows c s) (hun : Unmixed c') : c'.mux = some (s.call b) ∧ Flows c' (s.call b) := by
  obtain ⟨p, st, st', hp, hwk, hkin, hheap⟩ := h.worked
  have hsv := hi.links.served s hs
  have hmux : c'.mux = some (s.call b) := by
    rw [hkin.mux]
    exact map_eq_some_iff.2 ⟨s, hs, rfl⟩
  have hiss : c'.issued = c.issued ++ [(st.born, b)] := hkin.issued
  have hepoch : c'.epoch = c.epoch := hkin.epoch
  -- the stream is one of the session
  have hcur : c.Current st := by
    refine ⟨?_, by rw [hs]; rfl⟩
    rw [← hepoch]
    exact hun (st.born, b) (by rw [hiss]; exact mem_append_right _ (mem_singleton_self _))
  obtain ⟨s₀, hs₀, hid⟩ := hi.opened_of_current hp hcur
  obtain rfl := some.inj (hs.symm.trans hs₀)
  have htarget : ∀ {id x}, b = .write id x ∨ b = .close id → id = st.sid := by
    rintro id x (rfl | rfl)
    · exact some.inj hwk.target
    · exact some.inj hwk.target
  refine ⟨hmux, hfl.call hsv hiss (fun n id hn => ?_) (fun id hb => ⟨st.born, by simp [hb]⟩)
    (fun id x hb => htarget (.inl hb) ▸ hid) fun q stq hq hborn => ?_⟩
  · rw [mem_singleton, Prod.mk.injEq] at hn
    rw [htarget (x := []) (.inr hn.2.symm)]
    exact hid
  rw [hepoch] at hborn
  by_cases hqp : q = p
  · -- the stream itself
    subst hqp
    have hq' : stq = st' := by
      rcases hheap with ⟨hheap, -⟩ | ⟨hheap, -⟩
      · rw [hheap, Function.update_self] at hq
        exact (some.inj hq).symm
      · rw [hheap, Function.update_self] at hq
        cases hq
    subst hq'
    have hf := hfl.streams q st hp hcur.1
    have hold : (∀ id, b ≠ .close id) → ∀ n id, (n, Call.close id) ∈ c'.issued →
        (n, Call.close id) ∈ c.issued := by
      intro hb n id hn
      rw [hiss] at hn
      refine (mem_append.1 hn).resolve_right fun hn => ?_
      rw [mem_singleton, Prod.mk.injEq] at hn
      exact hb id hn.2.symm
    have haccepts : c.accepts st.sid st.wbuf = accepted (muxWrite s st.sid st.wbuf).2 := by
      rw [accepts, hs]
    cases hwk with
    | credited hin =>
      refine ⟨fun hfin n hn => hf.unfinished hfin n (hold (by simp) n _ hn), ?_, fun _ _ hno => ?_⟩
      · rw [show st.credited.sid = st.sid from rfl, Session.call_bytes hsv.wf (by simp)]
        exact hf.bytes
      · rw [show st.inPending = false from hno] at hin
        cases hin
    | sent hin =>
      refine ⟨fun hfin n hn => hf.unfinished hfin n (hold (by simp) n _ hn), ?_, fun _ _ hno => ?_⟩
      · rw [show (st.send (c.accepts st.sid st.wbuf)).sid = st.sid from rfl,
          Session.write_bytes hsv.wf, if_pos rfl, hf.bytes, ← haccepts]
        rfl
      · rw [show st.inPending = false from hno] at hin
        cases hin
    | finished _ hw =>
      refine ⟨fun hfin => (by cases hfin), ?_, fun hne => absurd hw hne⟩
      rw [show st.finish.sid = st.sid from rfl, Session.call_bytes hsv.wf (by simp)]
      exact hf.bytes
    | stalled hne hz =>
      refine ⟨fun hfin n hn => hf.unfinished hfin n (hold (by simp) n _ hn), ?_, fun _ _ _ hd => ?_⟩
      · rw [show st.unpend.sid = st.sid from rfl, Session.write_bytes hsv.wf, if_pos rfl,
          ← haccepts, hz, take_zero, append_nil]
        exact hf.bytes
      · refine hsv.marked_write ?_ hd
        rw [← haccepts, hz]
        exact length_pos_of_ne_nil hne
  · -- another stream, which has another id
    have hq' : c.heap q = some stq := by
      rcases hheap with ⟨hheap, -⟩ | ⟨hheap, -⟩
      · rwa [hheap, Function.update_of_ne hqp] at hq
      · rwa [hheap, Function.update_of_ne hqp] at hq
    have hcurq : c.Current stq := ⟨hborn, hcur.2⟩
    have hne : stq.sid ≠ st.sid := fun hsid => hqp (hi.sid_inj hp hq' hcur hcurq hsid)
    obtain ⟨s₁, hs₁, hidq⟩ := hi.opened_of_current hq' hcurq
    obtain rfl := some.inj (hs.symm.trans hs₁)
    refine (hfl.streams q stq hq' hborn).call hsv (.inr hidq) ?_ ?_ ?_ fun n hn => ?_
    · rintro m rfl
      cases hwk
    · rintro x rfl
      exact hne (htarget (.inl rfl))
    · rintro rfl
      cases hwk
    · rw [hiss] at hn
      refine (mem_append.1 hn).resolve_right fun hn => ?_
      rw [mem_singleton, Prod.mk.injEq] at hn
      exact hne (htarget (x := []) (.inr hn.2.symm))

/-- The streams after a deed that makes no call for one: a stream as it was, a new one, or one after
a step. -/
theorem Outcome.find (h : Outcome c a c') (hi : Sound c) (ha : a ≠ .hangUp)
    (hq : c'.heap q = some st') :
    (c.heap q = some st' ∧ (a = .event (.writable st'.sid) → c.Current st' → st'.wbuf = []))
      ∨ (∃ m, a = .event (.opened st'.sid m) ∧ st'.wbuf = [] ∧ st'.sent = [])
      ∨ ∃ st, c.heap q = some st ∧ StreamStep c.pollMode a st st' := by
  -- a stream that is told that it may be written, and another one
  have hother : ∀ {p st₁ st₂}, q ≠ p → c.heap p = some st₁ → StreamStep c.pollMode a st₁ st₂ →
      c.heap q = some st' → a = .event (.writable st'.sid) → c.Current st' → st'.wbuf = [] := by
    rintro p st₁ st₂ hqp hp hs hq ha hc
    rw [ha] at hs
    generalize hsid : st'.sid = sid at hs
    cases hs with
    | pend hr => exact absurd (hi.sid_inj hp hq ((hi.moored p st₁ hp).reg.1 hr) hc hsid) hqp
  cases h with
  | same haside h =>
    rw [h] at hq
    refine .inl ⟨hq, fun ha hc => ?_⟩
    subst ha
    refine haside q st' ?_
    have hreg := (hi.links.reg st'.sid q).2 ⟨st', hq, (hi.moored q st' hq).reg.2 hc, rfl⟩
    rw [regGet, hreg, bind_some, hq]
    rfl
  | born sid m ha _ h =>
    rw [h] at hq
    by_cases hqn : q = c.next
    · subst hqn
      rw [Function.update_self, some_inj] at hq
      subst hq
      exact .inr (.inl ⟨m, ha, rfl, rfl⟩)
    · rw [Function.update_of_ne hqn] at hq
      refine .inl ⟨hq, fun h => ?_⟩
      rw [ha] at h
      cases h
  | @step p st₁ st₂ hp hs h =>
    rw [h] at hq
    by_cases hqp : q = p
    · subst hqp
      rw [Function.update_self, some_inj] at hq
      exact .inr (.inr ⟨st₁, hp, hq ▸ hs⟩)
    · rw [Function.update_of_ne hqp] at hq
      exact .inl ⟨hq, hother hqp hp hs hq⟩
  | @freed p st₁ st₂ hp hs _ h =>
    rw [h] at hq
    by_cases hqp : q = p
    · subst hqp
      rw [Function.update_self] at hq
      cases hq
    · rw [Function.update_of_ne hqp] at hq
      refine .inl ⟨hq, fun ha hc => ?_⟩
      rcases hs with hs | ⟨hs, -⟩
      · exact hother hqp hp hs hq ha hc
      · rw [ha] at hs
        cases hs
  | hangUp h => exact absurd h ha

/-- A stream of the session that is not new, after a deed that makes no call for a stream. -/
theorem Flows.kept (hfl : Flows c s) (hi : Sound c) (hs : c.mux = some s) (ha : ∀ b, a ≠ .issue b)
    (h : (c.heap q = some st' ∧ (a = .event (.writable st'.sid) → c.Current st' → st'.wbuf = []))
      ∨ ∃ st, c.heap q = some st ∧ StreamStep c.pollMode a st st') (hborn : st'.born = c.epoch) :
    Flow c s st' ∧ s.Knows st'.sid ∧ ∀ ev, a = .event ev → st'.wbuf ≠ [] →
      st'.inPending = false → ev ≠ .writable st'.sid := by
  have hknow : ∀ {st}, c.heap q = some st → st.born = c.epoch → c.Current st ∧ s.Knows st.sid := by
    intro st hq hb
    have hc : c.Current st := ⟨hb, by rw [hs]; rfl⟩
    obtain ⟨s₀, hs₀, hid⟩ := hi.opened_of_current hq hc
    obtain rfl := some.inj (hs.symm.trans hs₀)
    exact ⟨hc, .inr hid⟩
  rcases h with ⟨hq, hw⟩ | ⟨st, hq, hstep⟩
  · obtain ⟨hc, hk⟩ := hknow hq hborn
    refine ⟨hfl.streams q st' hq hborn, hk, ?_⟩
    rintro ev hev hne - rfl
    exact hne (hw hev hc)
  · rw [hstep.born] at hborn
    refine ⟨(hfl.streams q st hq hborn).step hstep ha, ?_, ?_⟩
    · rw [hstep.sid]
      exact (hknow hq hborn).2
    · rintro ev hev - hno rfl
      rw [hev] at hstep
      generalize st'.sid = sid at hstep
      cases hstep
      cases hno

/-- What was written and what was sent agree after a deed, while the session is unmixed. -/
theorem Deed.flows (h : Deed c a c') (hi : Sound c) (hpast : ∀ x ∈ c.issued, x.1 ≤ c.epoch)
    (hfl : Unmixed c → ∀ s, c.mux = some s → Flows c s) (hun : Unmixed c') :
    ∀ s, c'.mux = some s → Flows c' s := by
  intro s' hs'
  by_cases hup : a = .up
  · subst hup
    cases h with
    | @up s cfg role hfd hn =>
      -- a session that has just come up, with no call made
      obtain rfl : s = s' := some.inj hs'
      have hnil : c.issued = [] := by
        refine eq_nil_iff_forall_not_mem.2 fun x hx => ?_
        have h1 := hpast x hx
        have h2 := hun x hx
        dsimp only at h2
        omega
      have hcore := (muxSessionNew_spec hn).1
      refine ⟨fun n sid hm => ?_, fun sid _ i st hget => ?_, fun sid _ => ?_, fun p st hp hb => ?_⟩
      · rw [hnil] at hm
        cases hm
      · rw [hcore, (startCore_tab cfg role).2 i] at hget
        cases hget
      · rw [hcore, show msgs sid (startCore cfg role).sent = [] from
          congrArg View.out (view_start cfg role sid)]
        rfl
      · have := (hi.moored p st hp).born
        dsimp only at hb
        omega
  by_cases hdown : a = .hangUp
  · subst hdown
    cases h with
    | hangUp =>
      cases hs'
  have hcall := h.called hi.links hup hdown
  have hsome := hcall.isSome
  rw [hs'] at hsome
  obtain ⟨s, hs⟩ := isSome_iff_exists.1 hsome.symm
  have hfl := hfl (hcall.unmixed hun) s hs
  have hsv := hi.links.served s hs
  have hepoch := hcall.epoch
  by_cases hiss : ∃ b, a = .issue b
  · obtain ⟨b, rfl⟩ := hiss
    obtain ⟨hmux, hflows⟩ := h.flows_issue hi hs hfl hun
    rw [hmux, some_inj] at hs'
    exact hs' ▸ hflows
  have ha : ∀ b, a ≠ .issue b := fun b hb => hiss ⟨b, hb⟩
  have hfind := fun {q st'} (hq : c'.heap q = some st') => (h.outcome hi.links).find hi hdown hq
  have hmux : ∀ b : Call, (c.call b).mux = some (s.call b) := fun b =>
    map_eq_some_iff.2 ⟨s, hs, rfl⟩
  cases hcall with
  | none hkin hev =>
    rw [hkin.mux, hs, some_inj] at hs'
    subst hs'
    refine hfl.congr hkin.issued fun q st' hq hb => ?_
    rw [hepoch] at hb
    rcases hfind hq with hq | ⟨m, hm, -⟩ | hq
    · exact (hfl.kept hi hs ha (.inl hq) hb).1
    · exact absurd hm (hev _)
    · exact (hfl.kept hi hs ha (.inr hq) hb).1
  | @idle b _ hb hkin =>
    rw [hkin.mux, hmux, some_inj] at hs'
    subst hs'
    have hissued : c'.issued = c.issued := hkin.issued
    have hnot : ∀ id x, b ≠ .write id x ∧ b ≠ .close id := fun id x =>
      ⟨by rintro rfl; exact hb, by rintro rfl; exact hb⟩
    refine hfl.call (l := []) hsv (by rw [hissued, append_nil]) (fun _ _ h => by cases h)
      (fun id h => absurd h (hnot id []).2) (fun id x h => absurd h (hnot id x).1)
      fun q st' hq hborn => ?_
    rw [hepoch] at hborn
    have hflow : Flow c s st' ∧ s.Knows st'.sid := by
      rcases hfind hq with hq | ⟨m, hm, -⟩ | hq
      · exact (hfl.kept hi hs ha (.inl hq) hborn).imp_right And.left
      · cases hm
      · exact (hfl.kept hi hs ha (.inr hq) hborn).imp_right And.left
    exact hflow.1.call hsv hflow.2 hb.ne_open (fun x => (hnot _ x).1)
      (fun h => absurd h hb.ne_nextEvent) fun n hn => hissued ▸ hn
  | @event _ s₀ ev hs₀ hf hkin =>
    obtain rfl := some.inj (hs.symm.trans hs₀)
    rw [hkin.mux, hmux, some_inj] at hs'
    subst hs'
    have hissued : c'.issued = c.issued := hkin.issued
    refine hfl.call (l := []) hsv (by rw [hissued, append_nil]) (fun _ _ h => by cases h)
      (by simp) (by simp) fun q st' hq hborn => ?_
    rw [hepoch] at hborn
    have hold : Flow c s st' ∧ s.Knows st'.sid ∧ (∀ e, Act.event ev = .event e → st'.wbuf ≠ [] →
        st'.inPending = false → e ≠ .writable st'.sid) → Flow c' (s.call .nextEvent) st' :=
      fun ⟨h1, h2, h3⟩ => h1.call hsv h2 (by simp) (by simp) (fun _ => ⟨ev, hf, h3 ev rfl⟩)
        fun n hn => hissued ▸ hn
    rcases hfind hq with hq | ⟨m, hm, hw, hsent⟩ | hq
    · exact hold (hfl.kept hi hs ha (.inl hq) hborn)
    · -- nothing was done for the stream before it was opened
      cases hm
      have hfresh := (hsv.front_fresh hf).1
      refine ⟨fun _ n hn => hfresh (hfl.closed n _ (hissued ▸ hn)), ?_, fun hne => absurd hw hne⟩
      rw [Session.call_bytes hsv.wf (by simp), hfl.silent _ hfresh, hsent]
    · exact hold (hfl.kept hi hs ha (.inr hq) hborn)
  | issue => exact absurd rfl (ha _)

/-! ### What is noted of the calls -/

/-- What holds of every run, and what holds of the session while it is unmixed. -/
structure Tracked (c : LpClient) : Prop where
  past : ∀ x ∈ c.issued, x.1 ≤ c.epoch
  closed : ∀ n sid, (n, Call.close sid) ∈ c.issued →
    ∃ p st, (c.heap p = some st ∨ (p, st) ∈ c.freed) ∧ st.born = n ∧ st.sid = sid
      ∧ st.finSent = true ∧ st.Sane
  wakeful : ∀ s, c.mux = some s → Wakeful s.toCore
  flows : Unmixed c → ∀ s, c.mux = some s → Flows c s

theorem StreamStep.finSent {on} (h : StreamStep on a st st') (hf : st.finSent = true) :
    st'.finSent = true := by
  by_cases ha : ∃ b, a = .issue b
  · obtain ⟨b, rfl⟩ := ha
    cases h with
    | finish => rfl
    | credited | send | stall => exact hf
  · exact (h.sent fun b hb => ha ⟨b, hb⟩).2.trans hf

theorem Outcome.finished (h : Outcome c a c') (hi : Links c) (ha : a ≠ .hangUp)
    (hst : c.heap p = some st ∨ (p, st) ∈ c.freed) (hf : st.finSent = true) (hs : st.Sane) :
    ∃ st', (c'.heap p = some st' ∨ (p, st') ∈ c'.freed) ∧ st'.born = st.born ∧ st'.sid = st.sid
      ∧ st'.finSent = true ∧ st'.Sane := by
  have hstays : c'.heap p = some st ∨ (p, st) ∈ c'.freed →
      ∃ st', (c'.heap p = some st' ∨ (p, st') ∈ c'.freed) ∧ st'.born = st.born ∧ st'.sid = st.sid
        ∧ st'.finSent = true ∧ st'.Sane := fun h => ⟨st, h, rfl, rfl, hf, hs⟩
  cases h with
  | same _ h hfr => exact hstays (by rwa [h, hfr])
  | born sid m _ _ h hfr =>
    refine hstays ?_
    rw [h, hfr]
    refine hst.imp_left fun hp => ?_
    have hne : p ≠ c.next := fun e => by
      rw [e, hi.fresh c.next (Nat.le_refl _)] at hp
      cases hp
    rwa [Function.update_of_ne hne]
  | @step q st₁ st₂ hq hstep h hfr =>
    rcases hst with hp | hp
    · by_cases hqp : p = q
      · subst hqp
        obtain rfl := some.inj (hq.symm.trans hp)
        exact ⟨st₂, .inl (by rw [h, Function.update_self]), hstep.born, hstep.sid,
          hstep.finSent hf, hstep.sane hs⟩
      · exact hstays (.inl (by rwa [h, Function.update_of_ne hqp]))
    · exact hstays (.inr (hfr ▸ hp))
  | @freed q st₁ st₂ hq hstep _ h hfr =>
    rcases hst with hp | hp
    · by_cases hqp : p = q
      · subst hqp
        obtain rfl := some.inj (hq.symm.trans hp)
        have hmem : (p, st₂) ∈ c'.freed := by
          rw [hfr]
          exact mem_append_right _ (mem_singleton_self _)
        rcases hstep with hstep | ⟨-, rfl⟩
        · exact ⟨st₂, .inr hmem, hstep.born, hstep.sid, hstep.finSent hf, hstep.sane hs⟩
        · exact hstays (.inr hmem)
      · exact hstays (.inl (by rwa [h, Function.update_of_ne hqp]))
    · exact hstays (.inr (hfr ▸ mem_append_left _ hp))
  | hangUp h => exact absurd h ha

/-- A close was made for a stream whose FIN is sent. -/
theorem Deed.closings (h : Deed c a c') (hi : Sound c) (ht : Tracked c) :
    ∀ n sid, (n, Call.close sid) ∈ c'.issued →
      ∃ p st, (c'.heap p = some st ∨ (p, st) ∈ c'.freed) ∧ st.born = n ∧ st.sid = sid
        ∧ st.finSent = true ∧ st.Sane := by
  by_cases hdown : a = .hangUp
  · subst hdown
    cases h with
    | hangUp =>
      rw [hi.links.hangUp_eq]
      simp
  have hold : ∀ n sid, (n, Call.close sid) ∈ c.issued →
      ∃ p st, (c'.heap p = some st ∨ (p, st) ∈ c'.freed) ∧ st.born = n ∧ st.sid = sid
        ∧ st.finSent = true ∧ st.Sane := by
    intro n sid hn
    obtain ⟨p, st, hst, rfl, rfl, hf, hs⟩ := ht.closed n sid hn
    obtain ⟨st', hst', h1, h2, h3⟩ := (h.outcome hi.links).finished hi.links hdown hst hf hs
    exact ⟨p, st', hst', h1, h2, h3⟩
  by_cases hup : a = .up
  · subst hup
    cases h with
    | up => exact hold
  intro n sid hn
  have hcall := h.called hi.links hup hdown
  by_cases hiss : ∃ b, a = .issue b
  · obtain ⟨b, rfl⟩ := hiss
    obtain ⟨p, st, st', hp, hwk, hkin, hheap⟩ := h.worked
    rw [hkin.issued] at hn
    rcases mem_append.1 hn with hn | hn
    · exact hold n sid hn
    · -- the call is the one just made
      rw [mem_singleton, Prod.mk.injEq] at hn
      obtain ⟨rfl, rfl⟩ := hn
      cases hwk with
      | finished hc hw =>
        refine ⟨p, st.finish, ?_, rfl, rfl, rfl, (hi.sane p st hp).finish hc hw⟩
        rcases hheap with ⟨hheap, -⟩ | ⟨-, hfreed⟩
        · exact .inl (by rw [hheap, Function.update_self])
        · exact .inr (by rw [hfreed]; exact mem_append_right _ (mem_singleton_self _))
  · refine hold n sid ?_
    cases hcall with
    | none hkin | idle _ hkin | event _ _ hkin => exact hkin.issued ▸ hn
    | issue => exact absurd ⟨_, rfl⟩ hiss

theorem Deed.issued_past (h : Deed c a c') (hi : Sound c) (hp : ∀ x ∈ c.issued, x.1 ≤ c.epoch) :
    ∀ x ∈ c'.issued, x.1 ≤ c'.epoch := by
  by_cases hup : a = .up
  · subst hup
    cases h with
    | up => exact fun x hx => Nat.le_succ_of_le (hp x hx)
  by_cases hdown : a = .hangUp
  · subst hdown
    cases h with
    | hangUp =>
      rw [hi.links.hangUp_eq]
      simp
  have hcall := h.called hi.links hup hdown
  rw [hcall.epoch]
  intro x hx
  cases hcall with
  | none hkin | idle _ hkin | event _ _ hkin => exact hp x (hkin.issued ▸ hx)
  | issue hst _ _ hkin =>
    rw [hkin.issued] at hx
    rcases mem_append.1 hx with hx | hx
    · exact hp x hx
    · rw [mem_singleton.1 hx]
      exact (hi.moored _ _ hst).born

theorem Deed.wakeful (h : Deed c a c') (hi : Sound c)
    (hw : ∀ s, c.mux = some s → Wakeful s.toCore) : ∀ s, c'.mux = some s → Wakeful s.toCore := by
  intro s' hs'
  by_cases hup : a = .up
  · subst hup
    cases h with
    | up _ hn =>
      obtain rfl := some.inj hs'
      exact (account_new hn).wakeful
  by_cases hdown : a = .hangUp
  · subst hdown
    cases h with
    | hangUp =>
      rw [hi.links.hangUp_eq] at hs'
      cases hs'
  have hcalled : ∀ b : Call, c'.mux = (c.call b).mux → Wakeful s'.toCore := by
    intro b hmux
    rw [hmux] at hs'
    obtain ⟨s, hs, rfl⟩ := map_eq_some_iff.1 hs'
    exact Session.call_wakeful (hi.links.served s hs).wf (hw s hs) b
  have hcall := h.called hi.links hup hdown
  cases hcall with
  | none hkin => exact hw s' (hkin.mux ▸ hs')
  | idle _ hkin | event _ _ hkin | issue _ _ _ hkin => exact hcalled _ hkin.mux

theorem Deed.tracked (h : Deed c a c') (hi : Sound c) (ht : Tracked c) : Tracked c' :=
  ⟨h.issued_past hi ht.past, h.closings hi ht, h.wakeful hi ht.wakeful, h.flows hi ht.past ht.flows⟩

/-! ### Writers that wait for room -/

theorem StreamStep.backlogged {on} (h : StreamStep on a st st') (ha : ∀ b, a ≠ .issue b)
    (hst : st.Backlogged) : st'.Backlogged := by
  have hnews : ∀ {st : LpStream} {bits : LpBits}, st.Backlogged → (st.news on bits).Backlogged := by
    intro st bits h
    rw [LpStream.Backlogged, news_reset, news_wantWritable, news_wbuf]
    exact h
  cases h with
  | arrive | closed => exact hnews hst
  | reset => exact hnews fun hr => (by cases hr)
  | sated => exact hnews fun _ hw => (by cases hw)
  | lose =>
    refine hnews ?_
    split
    · exact hst
    · exact fun hr => (by cases hr)
  | write b =>
    intro hr hw
    have := hst hr hw
    rw [show (st.write b).pend.wbuf = st.wbuf ++ b from rfl, length_append]
    omega
  | want hl =>
    intro _ _
    exact Nat.lt_of_lt_of_le (by decide) hl
  | credited | send | finish | stall => exact absurd rfl (ha _)
  | pend | retire | accept | read | again | close | unmark => exact hst

section Work

/-- Other streams are as before. -/
def Only (p : ℕ) (c c' : LpClient) : Prop := ∀ q, q ≠ p → c'.heap q = c.heap q

theorem Only.trans {c''} (h : Only p c c') (h' : Only p c' c'') : Only p c c'' :=
  fun q hq => (h' q hq).trans (h q hq)

theorem modify_only (c : LpClient) (p : ℕ) (g) : Only p c (c.modify p g) :=
  fun _ hq => Function.update_of_ne hq ..

theorem flushLoop_only : ∀ (n : ℕ) (c : LpClient), Only p c (flushLoop p n c)
  | 0, _ => fun _ _ => rfl
  | n + 1, c => by
    unfold flushLoop
    split
    · exact fun _ _ => rfl
    split
    · exact fun _ _ => rfl
    dsimp only
    split
    · exact fun _ _ => rfl
    · exact Only.trans (fun _ hq => Function.update_of_ne hq ..) (flushLoop_only n _)

theorem signalRoom_only (c : LpClient) (p : ℕ) : Only p c (c.signalRoom p) := by
  unfold signalRoom
  rcases hp : c.heap p with _ | st
  · exact fun _ _ => rfl
  dsimp only
  split
  · intro q hq
    rw [modify_readyMark_heap hp, Function.update_of_ne hq]
  · exact fun _ _ => rfl

theorem signalRoom_backlogged (hp : (c.signalRoom p).heap p = some st) : st.Backlogged := by
  unfold signalRoom at hp
  rcases hp₀ : c.heap p with _ | st₀
  · rw [hp₀] at hp
    rw [hp₀] at hp
    cases hp
  rw [hp₀] at hp
  dsimp only at hp
  split at hp
  · rw [modify_readyMark_heap hp₀, Function.update_self, some_inj] at hp
    intro _ hw
    rw [← hp, news_wantWritable] at hw
    cases hw
  · rename_i hno
    obtain rfl := some.inj (hp₀.symm.trans hp)
    intro _ hw
    by_contra hle
    exact hno ⟨Nat.not_lt.1 hle, hw⟩

theorem flushWbuf_backlogged (h : Each (fun _ => LpStream.Backlogged) c.heap) :
    Each (fun _ => LpStream.Backlogged) (c.flushWbuf p).heap := by
  unfold flushWbuf
  rcases hp : c.heap p with _ | st
  · exact h
  dsimp only
  split
  · exact h
  · intro q st' hq
    by_cases hqp : q = p
    · subst hqp
      exact signalRoom_backlogged hq
    · refine h q st' ?_
      rwa [(flushLoop_only _ c).trans (signalRoom_only _ p) q hqp] at hq

theorem modify_each {P : LpStream → Prop} {g} (h : Each (fun _ => P) c.heap)
    (hg : ∀ st, P st → P (g st)) : Each (fun _ => P) (c.modify p g).heap := by
  intro q st hq
  by_cases hqp : q = p
  · subst hqp
    unfold modify at hq
    dsimp only at hq
    rw [Function.update_self] at hq
    obtain ⟨st₀, h₀, rfl⟩ := map_eq_some_iff.1 hq
    exact hg st₀ (h q st₀ h₀)
  · exact h q st (by rwa [modify_only c p g q hqp] at hq)

theorem streamTryFree_each {P : LpStream → Prop} (h : Each (fun _ => P) c.heap) :
    Each (fun _ => P) (c.streamTryFree p).heap := by
  rcases streamTryFree_cases c p with heq | ⟨st, hp, hd, hc, hpen, hrdy⟩
  · rwa [heq]
  · rw [streamTryFree_eq hp hd hc hpen hrdy]
    exact h.drop

/-- A round over the pending list wakes a writer whose backlog has shrunk. -/
theorem workNext_backlogged (h : Each (fun _ => LpStream.Backlogged) c.heap) :
    Each (fun _ => LpStream.Backlogged) c.workNext.heap := by
  rcases hl : c.pending with _ | ⟨p, ps⟩
  · rw [workNext, hl]
    exact h
  rw [workNext_eq hl]
  have hcredit : Each (fun _ => LpStream.Backlogged) (c.creditRead p).heap := by
    unfold creditRead
    split
    · exact h
    · split
      · exact modify_each (by exact h) fun _ h => h
      · exact h
  have hfin : Each (fun _ => LpStream.Backlogged)
    (((c.creditRead p).flushWbuf p).sendFin p).heap := by
    have hflush := flushWbuf_backlogged (p := p) hcredit
    unfold sendFin
    split
    · exact hflush
    · split
      · exact modify_each (by exact hflush) fun _ h => h
      · exact hflush
  refine streamTryFree_each ?_
  exact modify_each (by exact hfin) fun _ h => h

end Work

/-- After every move, a writer that was refused waits or is woken. -/
theorem move_backlogged (hi : Links c) (h : Each (fun _ => LpStream.Backlogged) c.heap) (m) :
    Each (fun _ => LpStream.Backlogged) (c.move hmac m).heap := by
  by_cases hm : m = .work
  · subst hm
    simp only [move]
    split
    · exact workNext_backlogged h
    · exact h
  · have := Reach.inv (I := fun c => Links c ∧ Each (fun _ => LpStream.Backlogged) c.heap) ⟨hi, h⟩
      ?_ (move_deeds hmac hi m)
    · exact this.2
    · intro c₁ a c₂ h₁ ha hd
      have hno : ∀ b, a ≠ .issue b := by
        rintro b rfl
        exact hm ha
      refine ⟨hd.links h₁.1, (hd.outcome h₁.1).each h₁.2 (fun _ _ _ h => h) ?_
        (fun _ _ _ _ h hs => hs.backlogged hno h) fun _ _ _ _ h => h⟩
      exact fun _ _ _ _ _ hw => (by cases hw)

/-! ### What the calls take -/

/-- The bytes for the stream at `p` that a call returns as taken: none with LP_AGAIN or -1. -/
def bytesTaken (c : LpClient) (p : ℕ) : Move → Bytes
  | .app (.write q b) =>
    if q = p then b.take (((c.handle q).bind fun st => (c.lpWrite q st b).2).getD 0).toNat else []
  | .app (.writeNb q b) =>
    if q = p then b.take (((c.handle q).map fun st => (c.lpWriteNb q st b).2).getD 0).toNat else []
  | _ => []

/-- The bytes for the stream at `p` that the calls of a run return as taken, in order. -/
def takenBy (hmac : Hmac) (p : ℕ) : List Move → LpClient → Bytes
  | [], _ => []
  | m :: ms, c => c.bytesTaken p m ++ takenBy hmac p ms (c.move hmac m)

/-- The stream at `p` was written `w p`, also after it is freed, and one still to come nothing. -/
structure WrittenAs (w : ℕ → Bytes) (c : LpClient) : Prop where
  streams : Each (fun p st => st.written = w p) c.heap
  freed : ∀ x ∈ c.freed, x.2.written = w x.1
  fresh : ∀ p, c.next ≤ p → w p = []

theorem StreamStep.written {on} (h : StreamStep on a st st') (ha : ∀ b, a = .app b → ¬ b.Writes) :
    st'.written = st.written := by
  have hnews : ∀ (st : LpStream) (bits : LpBits), (st.news on bits).written = st.written :=
    fun st bits => news_field LpStream.written (fun _ _ _ => rfl) on bits st
  cases h with
  | arrive | closed | reset | sated => exact hnews _ _
  | lose =>
    rw [hnews]
    split <;> rfl
  | write _ _ _ hw => exact absurd hw (ha _ rfl)
  | pend | credited | send | finish | retire | stall | accept | read | again | want | close
  | unmark => rfl

theorem Outcome.next_le (h : Outcome c a c') : c.next ≤ c'.next := by
  cases h with
  | same _ _ _ hn | step _ _ _ _ hn | freed _ _ _ _ _ hn | hangUp _ _ _ hn =>
    exact Nat.le_of_eq hn.symm
  | born _ _ _ _ _ _ hn => exact hn ▸ Nat.le_succ _

namespace WrittenAs

variable {w : ℕ → Bytes}

/-- A deed that takes no bytes. -/
theorem deed (h : WrittenAs w c) (hi : Links c) (hd : Deed c a c')
    (ha : ∀ b, a = .app b → ¬ b.Writes) : WrittenAs w c' := by
  have hout := hd.outcome hi
  refine ⟨hout.each h.streams (fun _ _ _ h => h) (fun _ _ _ _ => (h.fresh _ (Nat.le_refl _)).symm)
    (fun _ _ _ _ h hs => (hs.written ha).trans h) fun _ _ _ _ h => h, ?_,
    fun p hp => h.fresh p (hout.next_le.trans hp)⟩
  cases hout with
  | same _ _ hf | born _ _ _ _ _ hf | step _ _ _ hf | hangUp _ _ hf =>
    rw [hf]
    exact h.freed
  | freed hp hs _ _ hf =>
    rw [hf]
    intro x hx
    rcases mem_append.1 hx with hx | hx
    · exact h.freed x hx
    · rw [mem_singleton.1 hx, ← h.streams _ _ hp]
      rcases hs with hs | ⟨-, rfl⟩
      · exact hs.written ha
      · rfl

theorem putWrite (h : WrittenAs w c) (hi : Links c) (hp : c.heap p = some st) (b : Bytes) :
    WrittenAs (fun q => w q ++ if p = q then b else []) (c.putWrite p b).1 := by
  have hother : ∀ {q x}, p ≠ q → x = w q → x = w q ++ if p = q then b else [] := fun hq hx => by
    rwa [if_neg hq, append_nil]
  rw [LpClient.putWrite, modify_pendingPush_eq hp]
  refine ⟨fun q st' hq => ?_, fun x hx => hother ?_ (h.freed x hx), fun q hq => ?_⟩
  · by_cases hqp : p = q
    · subst hqp
      dsimp only at hq
      rw [Function.update_self, some_inj] at hq
      rw [← hq, if_pos rfl, ← h.streams p st hp]
      rfl
    · refine hother hqp (h.streams q st' ?_)
      dsimp only at hq
      rwa [Function.update_of_ne (Ne.symm hqp)] at hq
  · rintro rfl
    rw [(hi.freed x hx).1] at hp
    cases hp
  · rw [← hother (Nat.ne_of_lt ((hi.lt_next hp).trans_le hq)) (h.fresh q hq).symm]

theorem lpWrite (h : WrittenAs w c) (hi : Links c) (hp : c.heap p = some st) (b : Bytes) :
    WrittenAs (fun q => w q ++ if p = q then b.take ((c.lpWrite p st b).2.getD 0).toNat else [])
      (c.lpWrite p st b).1 := by
  unfold LpClient.lpWrite
  split_ifs
  · simpa using h
  · simpa using h
  · simpa using h
  · simpa [LpClient.putWrite] using h.putWrite hi hp b

theorem lpWriteNb (h : WrittenAs w c) (hi : Links c) (hh : c.handle p = some st) (b : Bytes) :
    WrittenAs (fun q => w q ++ if p = q then b.take (c.lpWriteNb p st b).2.toNat else [])
      (c.lpWriteNb p st b).1 := by
  unfold LpClient.lpWriteNb
  split_ifs with _ _ hl
  · simpa using h
  · simpa using h
  · have hwant : Deed c (.app .accept) _ := .want hh hl
    simpa [lpAgain] using h.deed hi hwant (by rintro _ ⟨⟩ ⟨⟩)
  · simpa [LpClient.putWrite] using h.putWrite hi (handle_some hh).1 b

/-- A move adds to what was written what its call returns. -/
theorem move (h : WrittenAs w c) (hi : Links c) (m) :
    WrittenAs (fun p => w p ++ c.bytesTaken p m) (c.move hmac m) := by
  by_cases hm : ∃ a, m = .app a ∧ a.Writes
  · obtain ⟨a, rfl, ha⟩ := hm
    cases a with
    | write q b =>
      rcases hh : c.handle q with _ | st
      · simpa [bytesTaken, LpClient.move, app, hh] using h
      · simpa [bytesTaken, LpClient.move, app, hh] using h.lpWrite hi (handle_some hh).1 b
    | writeNb q b =>
      rcases hh : c.handle q with _ | st
      · simpa [bytesTaken, LpClient.move, app, hh] using h
      · simpa [bytesTaken, LpClient.move, app, hh] using h.lpWriteNb hi hh b
    | accept | read | readNb | close | fileno | poll | disconnect => cases ha
  · have htaken : ∀ p, c.bytesTaken p m = [] := by
      intro p
      unfold bytesTaken
      split
      · exact absurd ⟨_, rfl, trivial⟩ hm
      · exact absurd ⟨_, rfl, trivial⟩ hm
      · rfl
    simp only [htaken, append_nil]
    have := Reach.inv (I := fun c => Links c ∧ WrittenAs w c) ⟨hi, h⟩ ?_ (move_deeds hmac hi m)
    · exact this.2
    · intro c₁ a c₂ h₁ ha hd
      refine ⟨hd.links h₁.1, h₁.2.deed h₁.1 hd ?_⟩
      rintro b rfl hb
      exact hm ⟨b, ha, hb⟩

theorem run : ∀ (ms : List Move) {c : LpClient} {w : ℕ → Bytes}, WrittenAs w c → Links c →
    WrittenAs (fun p => w p ++ takenBy hmac p ms c) (ms.foldl (LpClient.move hmac) c)
  | [], _, _, h, _ => by simpa [takenBy] using h
  | m :: ms, c, w, h, hi => by
    simpa [takenBy] using run ms (h.move hi m) ((move_deeds hmac hi m).links hi)

end WrittenAs

/-! ### The promise of LP_WRITABLE -/

theorem news_raised {bits : LpBits} (h : st.Raised) : (st.news true bits).Raised :=
  ⟨rfl, by simp [LpStream.news, LpStream.mark, LpBits.or, h.2]⟩

/-- In poll mode the thread of the library leaves the wish of a writer, or raises LP_WRITABLE. -/
theorem StreamStep.raised (h : StreamStep true a st st') (ha : ∀ b, a ≠ .app b)
    (hst : st.wantWritable = true ∨ st.Raised) : st'.wantWritable = true ∨ st'.Raised := by
  have hnews : ∀ {st : LpStream} {bits : LpBits}, st.wantWritable = true ∨ st.Raised →
      (st.news true bits).wantWritable = true ∨ (st.news true bits).Raised := fun h =>
    h.imp (fun h => (news_wantWritable ..).trans h) news_raised
  cases h with
  | arrive | closed | reset => exact hnews hst
  | lose =>
    refine hnews ?_
    split <;> exact hst
  | sated => exact .inr ⟨rfl, by simp [LpStream.news, LpStream.mark, LpBits.or]⟩
  | pend | credited | send | finish | retire | stall => exact hst
  | accept | read | again | write | want | close | unmark => exact absurd rfl (ha _)

theorem work_raised (hi : Links c) (harm : Armed c) (hm : c.pollMode = true)
    (hp : c.heap p = some st) (hw : st.wantWritable = true)
    (hp' : (c.move hmac .work).heap p = some st') : st'.wantWritable = true ∨ st'.Raised := by
  have := Reach.inv (I := fun c => Links c ∧ Armed c ∧ c.pollMode = true
    ∧ Each (fun q st => q = p → st.wantWritable = true ∨ st.Raised) c.heap)
    ⟨hi, harm, hm, fun q st hq hqp => ?_⟩ ?_ (move_deeds hmac hi .work)
  · exact this.2.2.2 p st' hp' rfl
  · subst hqp
    obtain rfl := some.inj (hp.symm.trans hq)
    exact .inl hw
  · rintro c₁ a c₂ ⟨h1, h2, h3, h4⟩ ha hd
    have happ : ∀ b, a ≠ .app b := by
      rintro b rfl
      cases ha
    obtain ⟨h5, h6⟩ := h2.deed h1 hd (happ _)
    refine ⟨hd.links h1, h5, h6.trans h3, (hd.outcome h1).each h4 (fun _ _ _ h => h) ?_
      (fun _ _ _ _ h hs hq => (h3 ▸ hs).raised happ (h hq)) fun _ _ _ _ h => h⟩
    rintro - sid m rfl
    cases ha

/-! ### Runs -/

theorem tracked_start (cfg) : Tracked (lpConnect cfg) :=
  ⟨by simp [lpConnect], by simp [lpConnect], by simp [lpConnect], by simp [lpConnect]⟩

theorem writtenAs_start (cfg) : WrittenAs (fun _ => []) (lpConnect cfg) :=
  ⟨fun p st (hp : none = some st) => (by cases hp), by simp [lpConnect], fun _ _ => rfl⟩

structure Written (c : LpClient) : Prop where
  sound : Sound c
  tracked : Tracked c
  armed : Armed c
  backlogged : Each (fun _ => LpStream.Backlogged) c.heap

theorem Written.move (h : Written c) (m) : Written (c.move hmac m) := by
  have ht := Reach.inv (I := fun c => Sound c ∧ Tracked c) ⟨h.sound, h.tracked⟩
    (fun _ _ _ h _ hd => ⟨hd.sound h.1, hd.tracked h.1 h.2⟩) (move_deeds hmac h.sound.links m)
  exact ⟨ht.1, ht.2, h.armed.move h.sound.links m, move_backlogged h.sound.links h.backlogged m⟩

theorem written_run (cfg) (ms : List Move) :
    Written (ms.foldl (LpClient.move hmac) (lpConnect cfg)) :=
  foldlRecOn ms _ ⟨sound_start cfg, tracked_start cfg, (vigilant_start cfg).1.armed,
    fun p st hp => by cases hp⟩ fun _ h m _ => h.move m

/-- The bytes of a stream, if it is one of the session and the session is alive, have someone to see
to them. -/
theorem Written.owed (h : Written c) (hone : Unmixed c) (hp : c.heap p = some st)
    (hw : st.wbuf ≠ []) (hr : st.reset = false) (hs : c.mux = some s) (hd : s.dead = false) {i ms}
    (hfind : stFind s.tab st.sid = some (i, ms)) :
    p ∈ c.pending ∨ ms.sendBlocked = true ∨ .writable st.sid ∈ s.q.toList := by
  have hsane := h.sound.sane p st hp
  have hopen : st.finSent = false := by
    by_contra hf
    exact hw (hsane.fin (by simpa using hf)).2
  -- a stream that was not reset and has bytes left is not over
  have hcur : c.Current st := by
    refine (h.sound.moored p st hp).done ?_
    by_contra hd
    rcases hsane.done (by simpa using hd) with h | ⟨h, -⟩
    · simp [hr] at h
    · simp [hopen] at h
  have hfl := h.tracked.flows hone s hs
  have hflow := hfl.streams p st hp hcur.1
  have hsv := h.sound.links.served s hs
  by_cases hpen : st.inPending = true
  · exact .inl ((h.sound.links.pending.mem hp).2 hpen)
  · obtain ⟨hget, hsid⟩ := stFind_some hsv.wf.tab hfind
    exact .inr (hsv.wakes (h.tracked.wakeful s hs) hd (hflow.marked hw hr (by simpa using hpen) hd)
      hfind (hfl.unclosed st.sid (hflow.unfinished hopen) i ms hget hsid))

theorem Written.quiet (h : Written c) (hm : c.pollMode = false) :
    (c.move hmac .work).ready = [] := by
  refine (h.armed.move h.sound.links .work).off ?_
  rw [(h.armed.deeds h.sound.links (by simp) (move_deeds hmac h.sound.links .work)).2, hm]

/-- The flush that brings the backlog of a waiting writer down to half of the mark raises
LP_WRITABLE in poll mode, and only then. -/
theorem Written.crosses (h : Written c) (hp : c.heap p = some st) (hw : st.wantWritable = true)
    (hp' : (c.move hmac .work).heap p = some st') (hr : st'.reset = false)
    (hle : st'.wbuf.length ≤ lpWbufHigh / 2) :
    p ∈ (c.move hmac .work).ready ∧ st'.evPending.writable = true ↔ c.pollMode = true := by
  have h' : Written (c.move hmac .work) := h.move .work
  refine ⟨fun hin => ?_, fun hm => ?_⟩
  · by_contra hm
    rw [h.quiet (by simpa using hm)] at hin
    exact absurd hin.1 not_mem_nil
  · rcases work_raised h.sound.links h.armed hm hp hw hp' with hw' | ⟨h1, h2⟩
    · exact absurd (h'.backlogged p st' hp' hr hw') (Nat.not_lt.2 hle)
    · exact ⟨(h'.sound.links.ready.mem hp').2 h1, h2⟩

/-- The writer that gets LP_AGAIN is one that waits. -/
theorem lpWriteNb_again {b : Bytes} (hp : c.heap p = some st)
    (h : (c.lpWriteNb p st b).2 = lpAgain) :
    ∃ st', (c.lpWriteNb p st b).1.heap p = some st' ∧ st'.wantWritable = true := by
  unfold lpWriteNb at h ⊢
  split_ifs at h ⊢ with _ _ hl
  · cases h
  · cases h
  · exact ⟨_, modify_heap hp _, rfl⟩
  · have : (0 : ℤ) ≤ b.length := Int.natCast_nonneg _
    rw [show (c.putWrite p b).2 = (b.length : ℤ) from rfl, lpAgain] at h
    omega

/-- In every run, while the calls made on the session are for its own streams: what the session has
sent on a stream is the beginning of what the calls of the application returned as taken, and
`mux_close` was called for a stream with nothing left; what is left of a live stream is on the
pending list, or the session owes the stream a WRITABLE or has queued it. A writer that got LP_AGAIN
waits, is above half of the mark while it does, and the flush that brings it there raises
LP_WRITABLE exactly in poll mode. -/
theorem write_path {cfg : LpConfig} {ms : List Move} (hc : c = ms.foldl (move hmac) (lpConnect cfg))
    (hone : Unmixed c) :
    (∀ p st, c.heap p = some st → st.sent <+: takenBy hmac p ms (lpConnect cfg)
      ∧ ∀ s, c.mux = some s → st.born = c.epoch → bytesOf (msgs st.sid s.sent) = st.sent)
    ∧ (∀ n sid, (n, Call.close sid) ∈ c.issued →
      ∃ p st, (c.heap p = some st ∨ (p, st) ∈ c.freed) ∧ st.born = n ∧ st.sid = sid
        ∧ st.sent = takenBy hmac p ms (lpConnect cfg))
    ∧ (∀ p st, c.heap p = some st → st.wbuf ≠ [] → st.reset = false → ∀ s, c.mux = some s →
      s.dead = false → ∀ i ms, stFind s.tab st.sid = some (i, ms) →
        p ∈ c.pending ∨ ms.sendBlocked = true ∨ .writable st.sid ∈ s.q.toList)
    ∧ (∀ p st, c.heap p = some st → st.reset = false → st.wantWritable = true →
      lpWbufHigh / 2 < st.wbuf.length)
    ∧ (∀ p st b, c.handle p = some st → (c.lpWriteNb p st b).2 = lpAgain →
      ∃ st', (c.move hmac (.app (.writeNb p b))).heap p = some st' ∧ st'.wantWritable = true)
    ∧ ∀ p st st', c.heap p = some st → st.wantWritable = true →
      (c.move hmac .work).heap p = some st' → st'.reset = false →
      st'.wbuf.length ≤ lpWbufHigh / 2 →
        (p ∈ (c.move hmac .work).ready ∧ st'.evPending.writable = true ↔ c.pollMode = true) := by
  subst hc
  have h : Written (ms.foldl (move hmac) (lpConnect cfg)) := written_run cfg ms
  have hw : WrittenAs (fun p => takenBy hmac p ms (lpConnect cfg))
      (ms.foldl (move hmac) (lpConnect cfg)) := by
    simpa using (writtenAs_start cfg).run ms (links_start cfg)
  refine ⟨fun p st hp => ⟨⟨st.wbuf, ?_⟩, fun s hs hb => ?_⟩, fun n sid hn => ?_,
    fun p st hp hne hr s hs hd i ms hfind => h.owed hone hp hne hr hs hd hfind, h.backlogged,
    fun p st b hh ha => ?_, fun p st st' hp hwant hp' hr hle => h.crosses hp hwant hp' hr hle⟩
  · rw [← hw.streams p st hp]
    exact (h.sound.sane p st hp).wrote.symm
  · exact ((h.tracked.flows hone s hs).streams p st hp hb).bytes
  · obtain ⟨p, st, hst, h1, h2, hf, hs⟩ := h.tracked.closed n sid hn
    refine ⟨p, st, hst, h1, h2, ?_⟩
    have hwritten : st.written = takenBy hmac p ms (lpConnect cfg) :=
      hst.elim (hw.streams p st) (hw.freed (p, st))
    rw [← hwritten, hs.wrote, (hs.fin hf).2, List.append_nil]
  · rw [LpClient.move, app, hh]
    exact lpWriteNb_again (handle_some hh).1 ha

/-! ### A backlog that leaves at once -/

theorem muxWrite_all {i ms} {b : Bytes} (hd : s.dead = false)
    (hf : stFind s.tab sid = some (i, ms)) (hl : ms.life ≠ .hclLocal) (hb : b ≠ [])
    (hwin : (b.length : ℤ) ≤ min ms.sendWin s.sessSendWin) (hroom : s.HasRoom (framed b.length)) :
    (muxWrite s sid b).2 = .ok b.length := by
  have hpos := length_pos_iff.2 hb
  have hwant : (if (b.length : ℤ) > min ms.sendWin s.sessSendWin then
      (min ms.sendWin s.sessSendWin).toNat else b.length) = b.length := if_neg (by omega)
  rw [muxWrite, if_neg (by simp [hd]), hf]
  dsimp only
  rw [if_neg hl, if_neg (by omega), hwant, take_length,
    (writeLoop_room b.length sid b hroom).2 (Nat.le_refl _)]

/-- The whole backlog of a writer that waits is sent, and it is told in poll mode. -/
theorem workNext_flushes (hl : c.pending = [p]) (hp : c.heap p = some st)
    (hk : st.consumePending = 0) (hne : st.wbuf ≠ []) (hw : st.wantWritable = true)
    (hc : st.appClosed = false) (hacc : c.accepts st.sid st.wbuf = st.wbuf.length) :
    c.workNext.accept = c.accept ∧ c.workNext.heap p
      = some ((st.send st.wbuf.length).sated.news c.pollMode { writable := true }).unpend := by
  have hnil : (st.send st.wbuf.length).wbuf = [] := drop_length
  obtain ⟨n, hn⟩ : ∃ n, st.wbuf.length = n + 1 :=
    Nat.exists_eq_succ_of_ne_zero (length_pos_iff.2 hne).ne'
  have hcredit : c.creditRead p = c := by
    rw [creditRead, hp]
    exact if_neg (by omega)
  set c₁ := (c.issue st (.write st.sid st.wbuf)).modify p (·.send st.wbuf.length) with hc₁
  have hp₁ : c₁.heap p = some (st.send st.wbuf.length) := modify_heap (by exact hp) _
  have hloop : flushLoop p st.wbuf.length c = c₁ := by
    rw [hn, flushLoop, hp]
    dsimp only
    rw [if_neg hne, hacc, if_neg (by omega), ← hc₁]
    cases n with
    | zero => rfl
    | succ n =>
      rw [flushLoop, hp₁]
      exact if_pos hnil
  have hflush : c.flushWbuf p = (c₁.modify p (·.sated)).readyMark p { writable := true } := by
    rw [flushWbuf, hp]
    dsimp only
    rw [if_neg hne, hloop, signalRoom, hp₁]
    exact if_pos ⟨by rw [hnil]; exact Nat.zero_le _, hw⟩
  set c₂ := (c₁.modify p (·.sated)).readyMark p { writable := true } with hc₂
  set st₂ := (st.send st.wbuf.length).sated.news c.pollMode { writable := true } with hst₂
  have hp₂ : c₂.heap p = some st₂ := by
    rw [hc₂, modify_readyMark_heap hp₁]
    exact Function.update_self ..
  have hopen : st₂.appClosed = false :=
    (news_field LpStream.appClosed (fun _ _ _ => rfl) _ _ (st.send st.wbuf.length).sated).trans hc
  have hfin : c₂.sendFin p = c₂ := by
    rw [sendFin, hp₂]
    exact if_neg fun h => by simp [hopen] at h
  have hp₃ : (c₂.retire p []).heap p = some st₂.unpend := modify_heap (by exact hp₂) _
  have hfree : (c₂.retire p []).streamTryFree p = c₂.retire p [] := by
    rw [streamTryFree, hp₃]
    exact if_pos fun h => by simp [LpStream.unpend, hopen] at h
  rw [workNext_eq hl, hcredit, hflush, hfin, hfree]
  refine ⟨?_, hp₃⟩
  rw [hc₂, modify_readyMark_eq hp₁]
  rfl

/-- A stream that takes a mark's worth of bytes at once: the next write is refused, and then all of
them are sent. -/
theorem flooded (hmac) {b : Bytes} (hh : c.handle p = some st)
    (hst : st.wbuf = [] ∧ st.reset = false
      ∧ st.finSent = false ∧ st.consumePending = 0 ∧ st.inPending = false)
    (hstop : c.stopping = false) (hfd : c.fd = true) (hpen : c.pending = [])
    (hb : b.length = lpWbufHigh) (hacc : c.accepts st.sid b = b.length) :
    ∃ c₁ c₂ st₁ st₂ st₃, c₁ = c.move hmac (.app (.writeNb p b)) ∧ c₁.handle p = some st₁
      ∧ (c₁.lpWriteNb p st₁ [0]).2 = lpAgain
      ∧ c₂ = c₁.move hmac (.app (.writeNb p [0])) ∧ c₂.heap p = some st₂
      ∧ st₂.reset = false ∧ st₂.wantWritable = true ∧ c₂.issued = c.issued
        ∧ c₂.pollMode = c.pollMode
      ∧ (c₂.move hmac .work).accept = c.accept ∧ (c₂.move hmac .work).heap p = some st₃
      ∧ st₃.reset = false ∧ st₃.wbuf = [] ∧ st₃.wantWritable = false := by
  obtain ⟨hw, hr, hf, hk, hin⟩ := hst
  obtain ⟨hp, hhand, hc⟩ := handle_some hh
  have hne : b ≠ [] := by
    rintro rfl
    cases hb
  set st₁ := (st.write b).pend with hst₁
  have hwbuf : st₁.wbuf = b := by
    rw [hst₁, LpStream.pend, LpStream.write, hw, nil_append]
  set c₁ : LpClient :=
    { c with heap := Function.update c.heap p (some st₁), pending := [p] } with hc₁
  have hput : c.move hmac (.app (.writeNb p b)) = c₁ := by
    rw [LpClient.move, app, hh, map_some, getD_some, lpWriteNb, if_neg hne,
      if_neg (by simp [hr, hf, hstop]), if_neg (by simp [hw, lpWbufHigh]), putWrite,
      modify_pendingPush_eq hp, hpen]
    simp [LpStream.write, hin, hc₁, hst₁]
  have hp₁ : c₁.heap p = some st₁ := Function.update_self ..
  have hh₁ : c₁.handle p = some st₁ := by
    rw [handle, hp₁, filter_some]
    exact if_pos (by simp [hst₁, LpStream.pend, LpStream.write, hhand, hc])
  set st₂ : LpStream := { st₁ with wantWritable := true } with hst₂
  set c₂ : LpClient := { c₁ with heap := Function.update c₁.heap p (some st₂) } with hc₂
  have hfull : c₁.lpWriteNb p st₁ [0] = (c₂, lpAgain) := by
    rw [lpWriteNb, if_neg (by simp), if_neg, if_pos (by rw [hwbuf, hb]), modify_eq hp₁]
    simp [hst₁, LpStream.pend, LpStream.write, hr, hf, hc₁, hstop]
  have hmove : c₁.move hmac (.app (.writeNb p [0])) = c₂ := by
    rw [LpClient.move, app, hh₁, map_some, getD_some, hfull]
  have hp₂ : c₂.heap p = some st₂ := Function.update_self ..
  have hwork : c₂.move hmac .work = c₂.workNext := if_pos hfd
  obtain ⟨hsame, hheap⟩ := workNext_flushes (c := c₂) rfl hp₂ hk (hwbuf.trans_ne hne) rfl hc
    (hwbuf ▸ hacc)
  refine ⟨c₁, c₂, st₁, st₂, _, hput.symm, hh₁, by rw [hfull], hmove.symm, hp₂, hr, rfl, rfl, rfl,
    by rw [hwork, hsame], by rw [hwork, hheap], ?_, ?_, ?_⟩
  · rw [LpStream.unpend, news_reset]
    exact hr
  · rw [LpStream.unpend, news_wbuf]
    exact drop_length
  · rw [LpStream.unpend, news_wantWritable]
    rfl

/-- A stream of a peer that grants as many bytes as the mark, in poll mode or not. -/
def wideRun (on : Bool) : List Move :=
  (if on then [.app .fileno] else [])
    ++ plugIn { initWindow := 0x100000, sessionWindow := 0x100000 }
    ++ hears (synFrame 1 []) ++ [.app .accept]

/-- The application fills the backlog of the stream. -/
def floodRun (on : Bool) : List Move :=
  wideRun on ++ [.app (.writeNb 0 (List.replicate lpWbufHigh 0))]

theorem wideRun_poised (on : Bool) : ∃ c st, c = (wideRun on).foldl (move nullHmac)
      (lpConnect { listens := true }) ∧ c.handle 0 = some st
    ∧ (st.wbuf = [] ∧ st.reset = false ∧ st.finSent = false ∧ st.consumePending = 0
      ∧ st.inPending = false)
    ∧ (c.stopping = false ∧ c.fd = true ∧ c.pending = [] ∧ c.accept = [] ∧ c.issued = []
      ∧ c.pollMode = on)
    ∧ ∀ b : Bytes, b.length = lpWbufHigh → c.accepts st.sid b = b.length := by
  have hst : (((wideRun on).foldl (move nullHmac) (lpConnect { listens := true })).handle 0).any
      (fun st => st.sid = 1 ∧ st.wbuf = [] ∧ st.reset = false ∧ st.finSent = false
        ∧ st.consumePending = 0 ∧ st.inPending = false) = true := by
    cases on <;> decide +kernel
  have hc : (((wideRun on).foldl (move nullHmac) (lpConnect { listens := true })).stopping = false
      ∧ ((wideRun on).foldl (move nullHmac) (lpConnect { listens := true })).fd = true
      ∧ ((wideRun on).foldl (move nullHmac) (lpConnect { listens := true })).pending = []
      ∧ ((wideRun on).foldl (move nullHmac) (lpConnect { listens := true })).accept = []
      ∧ ((wideRun on).foldl (move nullHmac) (lpConnect { listens := true })).issued = []
      ∧ ((wideRun on).foldl (move nullHmac) (lpConnect { listens := true })).pollMode = on) := by
    cases on <;> decide +kernel
  have hs : ((wideRun on).foldl (move nullHmac) (lpConnect { listens := true })).mux.any
      (fun s => s.dead = false ∧ s.HasRoom (framed lpWbufHigh) ∧ (stFind s.tab 1).any fun x =>
        x.2.life ≠ .hclLocal ∧ (lpWbufHigh : ℤ) ≤ min x.2.sendWin s.sessSendWin) = true := by
    cases on <;> decide +kernel
  generalize (wideRun on).foldl (move nullHmac) (lpConnect { listens := true }) = c at hst hc hs ⊢
  obtain ⟨st, hh, hst⟩ := (any_eq_true _ _).1 hst
  obtain ⟨s, hmux, hs⟩ := (any_eq_true _ _).1 hs
  simp only [decide_eq_true_eq] at hst hs
  obtain ⟨hd, hroom, hs⟩ := hs
  obtain ⟨⟨i, ms⟩, hfind, hms⟩ := (any_eq_true _ _).1 hs
  simp only [decide_eq_true_eq] at hms
  refine ⟨c, st, rfl, hh, hst.2, hc, fun b hb => ?_⟩
  have hne : b ≠ [] := by
    rintro rfl
    cases hb
  rw [accepts, hmux, hst.1]
  dsimp only
  rw [muxWrite_all hd hfind hms.1 hne (hb.symm ▸ hms.2) (hb.symm ▸ hroom)]
  rfl

theorem floodRun_again (on : Bool) : ∃ c c' st st' st'',
    c = (floodRun on).foldl (move nullHmac) (lpConnect { listens := true })
      ∧ c.handle 0 = some st ∧ (c.lpWriteNb 0 st [0]).2 = lpAgain
      ∧ c' = c.move nullHmac (.app (.writeNb 0 [0])) ∧ c'.heap 0 = some st' ∧ st'.reset = false
      ∧ st'.wantWritable = true ∧ c'.issued = [] ∧ c'.pollMode = on
      ∧ (c'.move nullHmac .work).accept = [] ∧ (c'.move nullHmac .work).heap 0 = some st''
      ∧ st''.reset = false ∧ st''.wbuf = [] ∧ st''.wantWritable = false := by
  obtain ⟨c₀, st, hc₀, hh, hst, ⟨hstop, hfd, hpen, hacc₀, hiss, hon⟩, hacc⟩ := wideRun_poised on
  have hlen : (replicate lpWbufHigh (0 : UInt8)).length = lpWbufHigh := length_replicate
  obtain ⟨c₁, c₂, st₁, st₂, st₃, hc₁, hh₁, hfull, hc₂, hp₂, hr₂, hw₂, hiss₂, hon₂, hsame, hend⟩ :=
    flooded nullHmac hh hst hstop hfd hpen hlen (hacc _ hlen)
  refine ⟨c₁, c₂, st₁, st₂, st₃, ?_, hh₁, hfull, hc₂, hp₂, hr₂, hw₂, hiss₂.trans hiss,
    hon₂.trans hon, hsame.trans hacc₀, hend⟩
  rw [floodRun, foldl_append, ← hc₀, hc₁, foldl_cons, foldl_nil]

theorem write_path_floodRun : ∃ c st st', c = (floodRun true ++ [Move.app (.writeNb 0 [0])]).foldl
      (move nullHmac) (lpConnect { listens := true }) ∧ c.heap 0 = some st
    ∧ st.sent <+: takenBy nullHmac 0 (floodRun true ++ [Move.app (.writeNb 0 [0])])
      (lpConnect { listens := true })
    ∧ st.wantWritable = true ∧ lpWbufHigh / 2 < st.wbuf.length
    ∧ (c.move nullHmac .work).heap 0 = some st' ∧ st'.wbuf = []
    ∧ 0 ∈ (c.move nullHmac .work).ready ∧ st'.evPending.writable = true := by
  obtain ⟨c, c', -, st', st'', hc, -, -, hc', hp', hr', hw', hiss, hon, -, hp'', hr'', hw'', -⟩ :=
    floodRun_again true
  have hrun : c' = (floodRun true ++ [Move.app (.writeNb 0 [0])]).foldl (move nullHmac)
      (lpConnect { listens := true }) := by
    rw [foldl_append, ← hc, hc', foldl_cons, foldl_nil]
  have hone : Unmixed c' := by
    rw [Unmixed, hiss]
    exact fun x hx => absurd hx not_mem_nil
  obtain ⟨h1, -, -, h2, -, h3⟩ := write_path hrun hone
  have hraised := (h3 0 st' st'' hp' hw' hp'' hr'' (by rw [hw'']; exact Nat.zero_le _)).2 hon
  exact ⟨c', st', st'', hrun, hp', (h1 0 st' hp').1, hw', h2 0 st' hp' hr' hw', hp'', hw'', hraised⟩

theorem pollAccept_nil : ∀ (n : ℕ) {c : LpClient}, c.accept = [] → pollAccept n c = (c, [])
  | 0, _, _ => rfl
  | n + 1, c, h => by rw [pollAccept, acceptPop, h]

theorem lpPoll_nil (ha : c.accept = []) (hr : c.ready = []) (max : ℕ) : (c.lpPoll max).2 = [] := by
  unfold lpPoll
  split
  · rfl
  · rw [pollAccept_nil _ (by exact ha)]
    dsimp only
    rw [hr]
    rfl

/-- Outside poll mode the writer that got LP_AGAIN is told nothing when its backlog is sent, and
nothing later: `lp_fileno` and `lp_poll` find no event. -/
theorem writable_lost : ∃ c c' st st', c = (floodRun false).foldl (move nullHmac)
      (lpConnect { listens := true }) ∧ c.handle 0 = some st
    ∧ (c.lpWriteNb 0 st [0]).2 = lpAgain
    ∧ c' = [Move.app (.writeNb 0 [0]), .work, .app .fileno].foldl (move nullHmac) c
    ∧ c'.heap 0 = some st' ∧ st'.reset = false ∧ st'.wbuf = [] ∧ st'.wantWritable = false
    ∧ ∀ max, (c'.lpPoll max).2 = [] := by
  obtain ⟨c, c', st, st', st'', hc, hh, hagain, hc', -, -, -, -, hon, hacc, hp, hr, hw, hnot⟩ :=
    floodRun_again false
  have hwritten : Written c' := by
    rw [hc', hc]
    exact (written_run ..).move _
  have hlast : [Move.app (.writeNb 0 [0]), .work, .app .fileno].foldl (move nullHmac) c
      = (c'.move nullHmac .work).lpFileno := by
    rw [foldl_cons, ← hc', foldl_cons, foldl_cons, foldl_nil, LpClient.move, app]
  refine ⟨c, _, st, st'', hc, hh, hagain, rfl, ?_⟩
  rw [hlast]
  exact ⟨hp, hr, hw, hnot, lpPoll_nil hacc (hwritten.quiet hon)⟩

end LpClient

end MuxProtocol
