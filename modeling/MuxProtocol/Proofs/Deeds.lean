import MuxProtocol.Proofs.Links

/-!
# What the client library does, one deed at a time

Every call of the application and every part of the thread's loop is made of a few deeds, each on
one stream or on the session.
-/

namespace MuxProtocol

open Machine Intrusive LpStream List Option

namespace LpClient

variable {c c' : LpClient} {p q : ℕ} {st st' : LpStream} {sid : UInt32} {s : Session} {a : Call}
  {g : LpStream → LpStream} {bits : LpBits} {l : List ℕ}

/-! ### Deeds -/

inductive Act where
  | session
  | event (ev : Event)
  | issue (a : Call)
  | work
  | up
  | lose
  | hangUp
  | reap
  | drain
  | rearm
  | app (a : AppCall)

/-- The event concerns no stream. -/
def Deaf (c : LpClient) : Event → Prop
  | .opened .. => False
  | .data sid _ | .closed sid | .reset sid _ => c.regGet sid = none
  | .writable sid => ∀ p st, c.regGet sid = some (p, st) → st.wbuf = []
  | _ => True

/-- The stream at the head of the pending list is done with. -/
def retire (c : LpClient) (p : ℕ) (ps : List ℕ) : LpClient :=
  { c with pending := ps }.modify p (·.unpend)

/-- The call may take bytes of the application. -/
def AppCall.Writes : AppCall → Prop
  | .write .. | .writeNb .. => True
  | _ => False

inductive Deed : LpClient → Act → LpClient → Prop
  | call {c : LpClient} {a : Call} (ha : a.Idle) : Deed c .session (c.call a)
  | note {c : LpClient} (recv : Bytes) (authed : Bool) : Deed c .session { c with recv, authed }
  | skip {c : LpClient} {s : Session} {ev : Event} (hs : c.mux = some s) (hf : s.front = some ev)
      (hd : c.Deaf ev) : Deed c (.event ev) (c.call .nextEvent)
  | opened {c : LpClient} {s : Session} {sid : UInt32} {m : Bytes} (hs : c.mux = some s)
      (hf : s.front = some (.opened sid m)) :
      Deed c (.event (.opened sid m)) ((c.call .nextEvent).onOpened sid m)
  | data {c : LpClient} {s : Session} {sid : UInt32} {b : Bytes} {p : ℕ} {st : LpStream}
      (hs : c.mux = some s) (hf : s.front = some (.data sid b))
      (hr : c.regGet sid = some (p, st)) :
      Deed c (.event (.data sid b)) ((c.call .nextEvent).onData p b)
  | closed {c : LpClient} {s : Session} {sid : UInt32} {p : ℕ} {st : LpStream}
      (hs : c.mux = some s) (hf : s.front = some (.closed sid))
      (hr : c.regGet sid = some (p, st)) :
      Deed c (.event (.closed sid)) ((c.call .nextEvent).onClosed p)
  | reset {c : LpClient} {s : Session} {sid code : UInt32} {p : ℕ} {st : LpStream}
      (hs : c.mux = some s) (hf : s.front = some (.reset sid code))
      (hr : c.regGet sid = some (p, st)) :
      Deed c (.event (.reset sid code)) ((c.call .nextEvent).onReset p)
  | writable {c : LpClient} {s : Session} {sid : UInt32} {p : ℕ} {st : LpStream}
      (hs : c.mux = some s) (hf : s.front = some (.writable sid))
      (hr : c.regGet sid = some (p, st)) (hw : st.wbuf ≠ []) :
      Deed c (.event (.writable sid)) ((c.call .nextEvent).pendingPush p)
  | credit {c : LpClient} {p : ℕ} {st : LpStream} (hp : c.heap p = some st)
      (hin : st.inPending = true) :
      Deed c (.issue (.consume st.sid st.consumePending))
        ((c.issue st (.consume st.sid st.consumePending)).modify p (·.credited))
  | write {c : LpClient} {p : ℕ} {st : LpStream} (hp : c.heap p = some st)
      (hin : st.inPending = true) (hw : c.accepts st.sid st.wbuf ≠ 0) :
      Deed c (.issue (.write st.sid st.wbuf)) ((c.issue st (.write st.sid st.wbuf)).modify p
        (·.send (c.accepts st.sid st.wbuf)))
  | room {c : LpClient} {p : ℕ} {st : LpStream} (hp : c.heap p = some st)
      (hin : st.inPending = true) (hl : st.wbuf.length ≤ lpWbufHigh / 2)
      (hw : st.wantWritable = true) :
      Deed c .work ((c.modify p (·.sated)).readyMark p { writable := true })
  | fin {c : LpClient} {p : ℕ} {st : LpStream} (hp : c.heap p = some st)
      (hin : st.inPending = true) (hc : st.appClosed = true) (hw : st.wbuf = []) :
      Deed c (.issue (.close st.sid)) ((c.issue st (.close st.sid)).modify p (·.finish))
  | retire {c : LpClient} {p : ℕ} {ps : List ℕ} {st : LpStream} (hl : c.pending = p :: ps)
      (hp : c.heap p = some st) (hk : st.consumePending = 0) (hw : st.wbuf = []) :
      Deed c .work ((c.retire p ps).streamTryFree p)
  | stall {c : LpClient} {p : ℕ} {ps : List ℕ} {st : LpStream} (hl : c.pending = p :: ps)
      (hp : c.heap p = some st) (hk : st.consumePending = 0) (hne : st.wbuf ≠ [])
      (hw : c.accepts st.sid st.wbuf = 0) :
      Deed c (.issue (.write st.sid st.wbuf))
        (((c.issue st (.write st.sid st.wbuf)).retire p ps).streamTryFree p)
  | up {c : LpClient} {s : Session} {cfg : MuxConfig} {role : MuxRole} (hfd : c.fd = false)
      (hn : muxSessionNew cfg role = some s) :
      Deed c .up { c with mux := some s, fd := true, epoch := c.epoch + 1 }
  | lose {c : LpClient} {p : ℕ} {st : LpStream} (hp : c.heap p = some st) :
      Deed c .lose (c.lose p)
  | hangUp {c : LpClient} (h : Each (fun _ st => st.protoDone = true) c.heap) :
      Deed c .hangUp c.hangUp
  | reap {c : LpClient} (p : ℕ) : Deed c .reap (c.streamTryFree p)
  | accept {c : LpClient} {a : AppCall} {p : ℕ} {ps : List ℕ} (hl : c.accept = p :: ps) :
      Deed c (.app a) ({ c with accept := ps }.modify p fun st => { st with handed := true })
  | read {c : LpClient} {a : AppCall} {p n : ℕ} {st : LpStream} (hh : c.handle p = some st)
      (hr : st.reset = false) :
      Deed c (.app a) (c.takeRead p st n).1
  | again {c : LpClient} {a : AppCall} {p : ℕ} {st : LpStream} (hh : c.handle p = some st)
      (hr : st.holds = false) :
      Deed c (.app a) (c.modify p fun st => { st with reported := false })
  | put {c : LpClient} {a : AppCall} {p : ℕ} {b : Bytes} {st : LpStream}
      (hh : c.handle p = some st) (hr : st.reset = false) (ha : a.Writes) :
      Deed c (.app a) (c.putWrite p b).1
  | want {c : LpClient} {a : AppCall} {p : ℕ} {st : LpStream} (hh : c.handle p = some st)
      (hl : st.wbuf.length ≥ lpWbufHigh) :
      Deed c (.app a) (c.modify p fun st => { st with wantWritable := true })
  | close {c : LpClient} {p : ℕ} {st : LpStream} (hh : c.handle p = some st) :
      Deed c (.app (.close p)) (c.lpClose p)
  | fileno {c : LpClient} : Deed c (.app .fileno) c.lpFileno
  | stop {c : LpClient} {a : AppCall} : Deed c (.app a) c.lpDisconnect
  | drain {c : LpClient} : Deed c .drain { c with notify := 0, notified := false }
  | report {c : LpClient} {a : AppCall} {p : ℕ} {ps : List ℕ} {st : LpStream}
      (hl : c.ready = p :: ps) (hp : c.heap p = some st) (hc : st.appClosed = false) :
      Deed c (.app a) ({ c with ready := ps }.modify p (·.unmark))
  | forget {c : LpClient} {a : AppCall} {p : ℕ} {ps : List ℕ} {st : LpStream}
      (hl : c.ready = p :: ps) (hp : c.heap p = some st) (hc : st.appClosed = true) :
      Deed c (.app a) (({ c with ready := ps }.modify p (·.unmark)).streamTryFree p)
  | rearm {c : LpClient} : Deed c .rearm { c with notified := false }.notifyRaise

theorem foldl_unlink : ∀ (l : List ℕ) (c : LpClient), l.Nodup → l.foldl unlink c =
    { c with heap := fun q => if q ∈ l then (c.heap q).map bereave else c.heap q }
  | [], c, _ => by simp
  | p :: l, c, hn => by
    obtain ⟨hp, hn⟩ := nodup_cons.1 hn
    rw [foldl_cons, foldl_unlink l _ hn]
    unfold unlink modify
    congr 1
    funext q
    by_cases hq : q = p
    · subst hq
      simp [hp]
    · simp [hq]

theorem Links.hangUp_eq (h : Links c) : c.hangUp =
    { c with
      heap := fun q => (c.heap q).map bereave
      pending := []
      reg := ∅
      mux := none
      fd := false
      authed := false
      recv := []
      issued := [] } := by
  rw [hangUp, foldl_unlink _ _ h.all.nodup]
  have hheap : (fun q => if q ∈ c.all then (c.heap q).map bereave else c.heap q)
      = fun q => (c.heap q).map bereave := by
    funext q
    rcases hq : c.heap q with _ | st
    · simp
    · rw [if_pos ((h.all.mem hq).2 trivial)]
  rw [hheap]

namespace Links

theorem modify (h : Links c) (hp : c.heap p = some st) (hsid : (g st).sid = st.sid)
    (hreg : (g st).inReg = st.inReg) (hh : (g st).handed = st.handed)
    (hc : (g st).appClosed = true → (g st).handed = true)
    (hpen : (g st).inPending = st.inPending) (hrdy : (g st).inReady = st.inReady) :
    Links (c.modify p g) := by
  rw [modify_eq hp]
  exact h.set hp hsid hreg hh hc hpen hrdy

theorem tweak (h : Links c) (hp : c.heap p = some st) (hsid : (g st).sid = st.sid)
    (hreg : (g st).inReg = st.inReg) (hh : (g st).handed = st.handed)
    (hc : (g st).appClosed = st.appClosed) (hpen : (g st).inPending = st.inPending)
    (hrdy : (g st).inReady = st.inReady) : Links (c.modify p g) :=
  h.modify hp hsid hreg hh (by rw [hc, hh]; exact h.handed p st hp) hpen hrdy

theorem onOpened (h : Links c) (hnone : c.reg.lookup sid = none)
    (hid : ∃ s, c.mux = some s ∧ sid ∈ openedIds s.popped) (m) : Links (c.onOpened sid m) := by
  have hnew := h.fresh c.next (Nat.le_refl _)
  have hlook : ∀ sid' q, (c.reg.insert sid c.next).lookup sid' = some q
      ↔ (sid' = sid ∧ q = c.next) ∨ (sid' ≠ sid ∧ c.reg.lookup sid' = some q) := by
    intro sid' q
    by_cases hsid : sid' = sid
    · subst hsid
      simp [eq_comm]
    · simp [hsid]
  rw [onOpened_eq hnone]
  refine ⟨h.accept.append hnew rfl, h.pending.insert hnew (by simp), h.ready.insert hnew (by simp),
    h.all.push (fun _ _ => by simp_all) trivial, fun sid' q => ?_, h.handed.set (by simp),
    fun q hq => ?_, fun x hx => ?_, h.once, h.served, fun sid' q hq => ?_, h.fd⟩
  · rw [hlook, h.reg sid' q]
    by_cases hq : q = c.next
    · subst hq
      dsimp only
      rw [Function.update_self]
      constructor
      · rintro (⟨rfl, -⟩ | ⟨-, st, h1, -⟩)
        · exact ⟨_, rfl, rfl, rfl⟩
        · simp [hnew] at h1
      · rintro ⟨st, ⟨⟩, -, rfl⟩
        exact .inl ⟨rfl, rfl⟩
    · dsimp only
      rw [Function.update_of_ne hq]
      simp only [hq, and_false, false_or]
      refine and_iff_right_of_imp ?_
      rintro ⟨st, h1, h2, h3⟩ rfl
      have := (h.reg sid' q).2 ⟨st, h1, h2, h3⟩
      simp [hnone] at this
  · dsimp only at hq
    exact (Function.update_of_ne (by omega) ..).trans (h.fresh q (by omega))
  · obtain ⟨h1, h2, h3⟩ := h.freed x hx
    exact ⟨(Function.update_of_ne (by omega) ..).trans h1, Nat.lt_succ_of_lt h2, h3⟩
  · rcases (hlook sid' q).1 hq with ⟨rfl, -⟩ | ⟨-, hq⟩
    · exact hid
    · exact h.ids sid' q hq

theorem opened (h : Links c) (hs : c.mux = some s) {m} (hf : s.front = some (.opened sid m)) :
    Links ((c.call .nextEvent).onOpened sid m) := by
  refine (h.call (by simp)).onOpened ?_ ?_ m
  · exact h.unregistered hs hf
  · rw [call_eq hs]
    refine ⟨_, rfl, ?_⟩
    rw [(h.served s hs).popped_front hf]
    simp [Event.openedId]

theorem retire (h : Links c) {ps} (hl : c.pending = p :: ps) (hp : c.heap p = some st) :
    Links (c.retire p ps) := by
  rw [LpClient.retire, @modify_eq _ _ st (by exact hp) _]
  refine (h.put st.unpend hp rfl rfl (h.handed p st hp)
    (h.accept.set hp Iff.rfl) (Threaded.pop (hl ▸ h.pending) (by simp [unpend]))
    (h.ready.set hp Iff.rfl)).congr rfl rfl rfl rfl rfl rfl rfl rfl rfl rfl

theorem unmark (h : Links c) {ps} (hl : c.ready = p :: ps) (hp : c.heap p = some st) :
    Links ({ c with ready := ps }.modify p (·.unmark)) := by
  rw [@modify_eq _ _ st (by exact hp) _]
  refine (h.put st.unmark hp rfl rfl (h.handed p st hp) (h.accept.set hp Iff.rfl)
    (h.pending.set hp Iff.rfl) (Threaded.pop (hl ▸ h.ready) (by simp [LpStream.unmark]))).congr
    rfl rfl rfl rfl rfl rfl rfl rfl rfl rfl

theorem accepted (h : Links c) {ps} (hl : c.accept = p :: ps) :
    Links ({ c with accept := ps }.modify p fun st => { st with handed := true }) := by
  obtain ⟨st, hp, -⟩ := (h.accept.mem_iff p).1 (hl ▸ mem_cons_self)
  rw [@modify_eq _ _ st (by exact hp) _]
  refine (h.put { st with handed := true } hp rfl rfl (fun _ => rfl)
    (Threaded.pop (hl ▸ h.accept) (by simp)) (h.pending.set hp Iff.rfl)
    (h.ready.set hp Iff.rfl)).congr rfl rfl rfl rfl rfl rfl rfl rfl rfl rfl

theorem hangUp (h : Links c) : Links c.hangUp := by
  have hmap : ∀ {q st'}, (c.heap q).map bereave = some st' →
      ∃ st, c.heap q = some st ∧ st' = st.bereave := fun hq => by
    obtain ⟨st, h1, h2⟩ := map_eq_some_iff.1 hq
    exact ⟨st, h1, h2.symm⟩
  have hthread : ∀ {flag : LpStream → Prop} {l : List ℕ}, Threaded flag c.heap l →
      (∀ st, flag st.bereave ↔ flag st) → Threaded flag (fun q => (c.heap q).map bereave) l :=
    fun ht hf => ⟨ht.nodup, fun q => by
      rw [ht.mem_iff]
      rcases c.heap q with _ | st <;> simp [hf]⟩
  rw [h.hangUp_eq]
  refine ⟨hthread h.accept fun _ => Iff.rfl, ⟨nodup_nil, fun q => ?_⟩,
    hthread h.ready fun _ => Iff.rfl, hthread h.all fun _ => Iff.rfl, fun sid q => ?_,
    fun q st hq => ?_, fun q hq => ?_, fun x hx => ?_, h.once, by simp, by simp, rfl⟩
  · rcases c.heap q with _ | st <;> simp [bereave]
  · rcases c.heap q with _ | st <;> simp [bereave]
  · obtain ⟨st', h1, rfl⟩ := hmap hq
    exact h.handed q st' h1
  · simp [h.fresh q hq]
  · obtain ⟨h1, h2⟩ := h.freed x hx
    exact ⟨by simp [h1], h2⟩

theorem up (h : Links c) (hfd : c.fd = false) {cfg role} (hn : muxSessionNew cfg role = some s) :
    Links { c with mux := some s, fd := true, epoch := c.epoch + 1 } := by
  have hnone : c.mux = none := by simpa [hfd] using h.fd
  refine ⟨h.accept, h.pending, h.ready, h.all, h.reg, h.handed, h.fresh, h.freed, h.once, ?_, ?_,
    rfl⟩
  · rintro _ ⟨⟩
    exact (served_new hn).1
  · intro sid p hp
    obtain ⟨s', hs', -⟩ := h.ids sid p hp
    simp [hnone] at hs'

end Links

/-- A deed keeps the lists of the streams consistent. -/
theorem Deed.links {a} (h : Deed c a c') (hi : Links c) : Links c' := by
  cases h with
  | call ha => exact hi.call ha.ne_open
  | skip => exact hi.call (by simp)
  | opened hs hf => exact hi.opened hs hf
  | data hs hf hr =>
    have hp : (c.call .nextEvent).heap _ = _ := (regGet_some hr).2
    exact ((hi.call (by simp)).tweak hp rfl rfl rfl rfl rfl rfl).readyMark (modify_heap hp _)
  | closed hs hf hr =>
    have hp : (c.call .nextEvent).heap _ = _ := (regGet_some hr).2
    exact (((hi.call (by simp)).tweak hp rfl rfl rfl rfl rfl rfl).readyMark
      (modify_heap hp _)).streamTryFree _
  | reset hs hf hr =>
    have hp : (c.call .nextEvent).heap _ = _ := (regGet_some hr).2
    exact (((hi.call (by simp)).tweak hp rfl rfl rfl rfl rfl rfl).readyMark
      (modify_heap hp _)).streamTryFree _
  | writable hs hf hr =>
    exact (hi.call (by simp)).pendingPush (by exact (regGet_some hr).2)
  | credit hp | write hp | fin hp =>
    exact (hi.issue (by simp)).tweak (by exact hp) rfl rfl rfl rfl rfl rfl
  | room hp => exact (hi.tweak hp rfl rfl rfl rfl rfl rfl).readyMark (modify_heap hp _)
  | retire hl hp => exact (hi.retire hl hp).streamTryFree _
  | stall hl hp =>
    exact ((hi.issue (by simp)).retire hl hp).streamTryFree _
  | up hfd hn => exact hi.up hfd hn
  | lose hp =>
    refine (hi.tweak hp ?_ ?_ ?_ ?_ ?_ ?_).readyMark (modify_heap hp _) <;> split <;> rfl
  | hangUp => exact hi.hangUp
  | reap => exact hi.streamTryFree _
  | accept hl => exact hi.accepted hl
  | read hh =>
    have hp := (handle_some hh).1
    exact (hi.tweak hp rfl rfl rfl rfl rfl rfl).pendingPush (modify_heap hp _)
  | put hh =>
    have hp := (handle_some hh).1
    exact (hi.tweak hp rfl rfl rfl rfl rfl rfl).pendingPush (modify_heap hp _)
  | again hh => exact hi.tweak (handle_some hh).1 rfl rfl rfl rfl rfl rfl
  | want hh => exact hi.tweak (handle_some hh).1 rfl rfl rfl rfl rfl rfl
  | close hh =>
    obtain ⟨hp, hh, -⟩ := handle_some hh
    exact (hi.modify hp rfl rfl rfl (fun _ => hh) rfl rfl).pendingPush (modify_heap hp _)
  | report hl hp => exact hi.unmark hl hp
  | forget hl hp => exact (hi.unmark hl hp).streamTryFree _
  | rearm =>
    rw [notifyRaise_eq]
    exact hi.congr rfl rfl rfl rfl rfl rfl rfl rfl rfl rfl
  | note | fileno | stop | drain => exact hi.congr rfl rfl rfl rfl rfl rfl rfl rfl rfl rfl

/-! ### What a deed does to the streams -/

/-- What a deed does to a stream; `on` is poll mode. -/
inductive StreamStep (on : Bool) : Act → LpStream → LpStream → Prop
  | arrive {st : LpStream} (hr : st.inReg = true) (b : Bytes) :
      StreamStep on (.event (.data st.sid b)) st ((st.arrive b).news on { readable := true })
  | closed {st : LpStream} (hr : st.inReg = true) :
      StreamStep on (.event (.closed st.sid)) st
        (st.closed.news on { readable := true, closed := true })
  | reset {st : LpStream} (hr : st.inReg = true) (code : UInt32) :
      StreamStep on (.event (.reset st.sid code)) st
        (st.aborted.news on { readable := true, closed := true })
  | pend {st : LpStream} (hr : st.inReg = true) :
      StreamStep on (.event (.writable st.sid)) st st.pend
  | credited {st : LpStream} (hin : st.inPending = true) :
      StreamStep on (.issue (.consume st.sid st.consumePending)) st st.credited
  | send {st : LpStream} (hin : st.inPending = true) (w : ℕ) :
      StreamStep on (.issue (.write st.sid st.wbuf)) st (st.send w)
  | sated {st : LpStream} (hin : st.inPending = true) :
      StreamStep on .work st (st.sated.news on { writable := true })
  | finish {st : LpStream} (hin : st.inPending = true) (hc : st.appClosed = true)
      (hw : st.wbuf = []) : StreamStep on (.issue (.close st.sid)) st st.finish
  | retire {st : LpStream} (hk : st.consumePending = 0) (hw : st.wbuf = []) :
      StreamStep on .work st st.unpend
  | stall {st : LpStream} (hk : st.consumePending = 0) :
      StreamStep on (.issue (.write st.sid st.wbuf)) st st.unpend
  | lose {st : LpStream} : StreamStep on .lose st
      ((if st.protoDone then st else st.aborted).news on { readable := true, closed := true })
  | accept {st : LpStream} {a : AppCall} : StreamStep on (.app a) st { st with handed := true }
  | read {st : LpStream} {a : AppCall} (n : ℕ) (hc : st.appClosed = false) (hr : st.reset = false) :
      StreamStep on (.app a) st (st.read n).pend
  | again {st : LpStream} {a : AppCall} (hr : st.holds = false) :
      StreamStep on (.app a) st { st with reported := false }
  | write {st : LpStream} {a : AppCall} (b : Bytes) (hc : st.appClosed = false)
      (hr : st.reset = false) (ha : a.Writes) : StreamStep on (.app a) st (st.write b).pend
  | want {st : LpStream} {a : AppCall} (hl : st.wbuf.length ≥ lpWbufHigh) :
      StreamStep on (.app a) st { st with wantWritable := true }
  | close {st : LpStream} {p : ℕ} :
      StreamStep on (.app (.close p)) st ({ st with appClosed := true } : LpStream).pend
  | unmark {st : LpStream} {a : AppCall} : StreamStep on (.app a) st st.unmark

/-- The deed is not one for a stream. -/
def Aside (c : LpClient) : Act → Prop
  | .event ev => c.Deaf ev
  | .issue _ | .hangUp => False
  | _ => True

/-- The streams after a deed: as they were, one new, one changed, one perhaps changed and then
freed, or all without their session. -/
inductive Outcome (c : LpClient) (a : Act) (c' : LpClient) : Prop
  | same (ha : c.Aside a) (h : c'.heap = c.heap) (hf : c'.freed = c.freed) (hn : c'.next = c.next)
      (hr : c'.reg = c.reg)
  | born (sid : UInt32) (m : Bytes) (ha : a = .event (.opened sid m)) (hs : c.mux.isSome = true)
      (h : c'.heap = Function.update c.heap c.next
        (some { sid := sid, metadata := m, born := c.epoch, inReg := true }))
      (hf : c'.freed = c.freed) (hn : c'.next = c.next + 1) (hr : c'.reg = c.reg.insert sid c.next)
  | step {p : ℕ} {st st' : LpStream} (hp : c.heap p = some st) (hs : StreamStep c.pollMode a st st')
      (h : c'.heap = Function.update c.heap p (some st'))
      (hf : c'.freed = c.freed) (hn : c'.next = c.next) (hr : c'.reg = c.reg)
  | freed {p : ℕ} {st st' : LpStream} (hp : c.heap p = some st)
      (hs : StreamStep c.pollMode a st st' ∨ a = .reap ∧ st' = st)
      (hd : st'.protoDone = true ∧ st'.appClosed = true ∧ st'.inPending = false
        ∧ st'.inReady = false)
      (h : c'.heap = Function.update c.heap p none) (hf : c'.freed = c.freed ++ [(p, st')])
      (hn : c'.next = c.next) (hr : c'.reg = if st'.inReg then c.reg.erase st'.sid else c.reg)
  | hangUp (ha : a = .hangUp) (h : c'.heap = fun q => (c.heap q).map (·.bereave))
      (hf : c'.freed = c.freed) (hn : c'.next = c.next)

theorem Outcome.tryFree {a} (hp : c.heap p = some st) (hs : StreamStep c.pollMode a st st')
    (h : c'.heap = Function.update c.heap p (some st')) (hf : c'.freed = c.freed)
    (hn : c'.next = c.next) (hr : c'.reg = c.reg) : Outcome c a (c'.streamTryFree p) := by
  have hst : c'.heap p = some st' := by rw [h, Function.update_self]
  rcases streamTryFree_cases c' p with heq | ⟨st'', hst'', hd, hc, hpen, hrdy⟩
  · rw [heq]
    exact .step hp hs h hf hn hr
  · rw [hst, some_inj] at hst''
    subst hst''
    rw [streamTryFree_eq hst hd hc hpen hrdy]
    refine .freed hp (.inl hs) ⟨hd, hc, hpen, hrdy⟩ ?_ (by rw [← hf]) hn (by rw [← hr])
    rw [h, Function.update_idem]

/-- What a deed does to the streams, of its many kinds. -/
theorem Deed.outcome {a} (h : Deed c a c') (hi : Links c) : Outcome c a c' := by
  cases h with
  | call | note | up | fileno | stop | drain => exact .same trivial rfl rfl rfl rfl
  | skip _ _ hd => exact .same hd rfl rfl rfl rfl
  | rearm =>
    rw [notifyRaise_eq]
    exact .same trivial rfl rfl rfl rfl
  | opened hs hf =>
    rw [onOpened_eq (by exact hi.unregistered hs hf)]
    exact .born _ _ rfl (by simp [hs]) rfl rfl rfl rfl
  | data hs hf hr =>
    have hp := (regGet_some hr).2
    obtain ⟨hin, rfl⟩ := hi.of_regGet hr
    rw [onData, modify_readyMark_eq (c := c.call .nextEvent) hp]
    exact .step hp (.arrive hin _) rfl rfl rfl rfl
  | closed hs hf hr =>
    have hp := (regGet_some hr).2
    obtain ⟨hin, rfl⟩ := hi.of_regGet hr
    rw [onClosed, modify_readyMark_eq (c := c.call .nextEvent) hp]
    exact Outcome.tryFree hp (.closed hin) rfl rfl rfl rfl
  | reset hs hf hr =>
    have hp := (regGet_some hr).2
    obtain ⟨hin, rfl⟩ := hi.of_regGet hr
    rw [onReset, modify_readyMark_eq (c := c.call .nextEvent) hp]
    exact Outcome.tryFree hp (.reset hin _) rfl rfl rfl rfl
  | writable hs hf hr hw =>
    have hp := (regGet_some hr).2
    obtain ⟨hin, rfl⟩ := hi.of_regGet hr
    rw [pendingPush_eq (c := c.call .nextEvent) hp]
    exact .step hp (.pend hin) rfl rfl rfl rfl
  | credit hp hin =>
    rw [modify_eq (by exact hp)]
    exact .step hp (.credited hin) rfl rfl rfl rfl
  | write hp hin =>
    rw [modify_eq (by exact hp)]
    exact .step hp (.send hin _) rfl rfl rfl rfl
  | fin hp hin hc hw =>
    rw [modify_eq (by exact hp)]
    exact .step hp (.finish hin hc hw) rfl rfl rfl rfl
  | room hp hin =>
    rw [modify_readyMark_eq hp]
    exact .step hp (.sated hin) rfl rfl rfl rfl
  | retire hl hp hk hw =>
    rw [LpClient.retire, modify_eq (by exact hp)]
    exact Outcome.tryFree hp (.retire hk hw) rfl rfl rfl rfl
  | stall hl hp hk =>
    rw [LpClient.retire, modify_eq (by exact hp)]
    exact Outcome.tryFree hp (.stall hk) rfl rfl rfl rfl
  | lose hp =>
    rw [LpClient.lose, modify_readyMark_eq hp]
    exact .step hp .lose rfl rfl rfl rfl
  | hangUp =>
    rw [hi.hangUp_eq]
    exact .hangUp rfl rfl rfl rfl
  | reap p =>
    rcases streamTryFree_cases c p with heq | ⟨st, hst, hd, hc, hpen, hrdy⟩
    · rw [heq]
      exact .same trivial rfl rfl rfl rfl
    · rw [streamTryFree_eq hst hd hc hpen hrdy]
      exact .freed hst (.inr ⟨rfl, rfl⟩) ⟨hd, hc, hpen, hrdy⟩ rfl rfl rfl rfl
  | accept hl =>
    obtain ⟨st, hp, -⟩ := (hi.accept.mem_iff _).1 (hl ▸ mem_cons_self)
    rw [modify_eq (by exact hp)]
    exact .step hp .accept rfl rfl rfl rfl
  | read hh hr =>
    obtain ⟨hp, -, hc⟩ := handle_some hh
    rw [takeRead, modify_pendingPush_eq hp]
    exact .step hp (.read _ hc hr) rfl rfl rfl rfl
  | put hh hr ha =>
    obtain ⟨hp, -, hc⟩ := handle_some hh
    rw [putWrite, modify_pendingPush_eq hp]
    exact .step hp (.write _ hc hr ha) rfl rfl rfl rfl
  | close hh =>
    have hp := (handle_some hh).1
    rw [lpClose, modify_pendingPush_eq hp]
    exact .step hp .close rfl rfl rfl rfl
  | again hh hr =>
    rw [modify_eq (handle_some hh).1]
    exact .step (handle_some hh).1 (.again hr) rfl rfl rfl rfl
  | want hh hl =>
    rw [modify_eq (handle_some hh).1]
    exact .step (handle_some hh).1 (.want hl) rfl rfl rfl rfl
  | report hl hp hc =>
    rw [modify_eq (by exact hp)]
    exact .step hp .unmark rfl rfl rfl rfl
  | forget hl hp =>
    rw [modify_eq (by exact hp)]
    exact Outcome.tryFree hp .unmark rfl rfl rfl rfl

/-- What holds of every stream after a deed, case by case. -/
theorem Outcome.each {a} {P P' : ℕ → LpStream → Prop} (h : Outcome c a c')
    (hP : Each P c.heap) (hkeep : a ≠ .hangUp → ∀ p st, P p st → P' p st)
    (hborn : c.mux.isSome = true → ∀ sid m, a = .event (.opened sid m) →
      P' c.next { sid := sid, metadata := m, born := c.epoch, inReg := true })
    (hstep : ∀ p st st', c.heap p = some st → P p st → StreamStep c.pollMode a st st' → P' p st')
    (hhang : a = .hangUp → ∀ p st, c.heap p = some st → P p st → P' p st.bereave) :
    Each P' c'.heap := by
  have hold : a ≠ .hangUp → Each P' c.heap := fun ha =>
    hP.imp fun p st _ hst => hkeep ha p st hst
  cases h with
  | same ha h =>
    rw [h]
    refine hold ?_
    rintro rfl
    exact ha
  | born sid m ha hs h =>
    rw [h]
    exact (hold (by simp [ha])).set (hborn hs sid m ha)
  | step hp hs h =>
    rw [h]
    refine (hold ?_).set (hstep _ _ _ hp (hP _ _ hp) hs)
    rintro rfl
    cases hs
  | freed hp hs hd h =>
    rw [h]
    refine (hold ?_).drop
    rintro rfl
    rcases hs with hs | ⟨hs, -⟩
    · cases hs
    · cases hs
  | hangUp ha h =>
    rw [h]
    intro q st hq
    obtain ⟨st', h1, rfl⟩ := map_eq_some_iff.1 hq
    exact hhang ha q st' h1 (hP _ _ h1)

/-- The session after a deed, but for its coming and going: no call or one call, with those for a
stream of the pending list recorded. -/
inductive Called (c : LpClient) : Act → LpClient → Prop
  | none {a : Act} {c' : LpClient} (h : Kin c c') (hev : ∀ ev, a ≠ .event ev)
      (hiss : ∀ b, a ≠ .issue b) : Called c a c'
  | idle {a : Call} {c' : LpClient} (ha : a.Idle) (h : Kin (c.call a) c') : Called c .session c'
  | event {c' : LpClient} {s : Session} {ev : Event} (hs : c.mux = some s) (hf : s.front = some ev)
      (h : Kin (c.call .nextEvent) c') : Called c (.event ev) c'
  | issue {c' : LpClient} {p : ℕ} {st : LpStream} {a : Call} (hp : c.heap p = some st)
      (hin : st.inPending = true)
      (ha : a = .consume st.sid st.consumePending ∨ a = .write st.sid st.wbuf ∨ a = .close st.sid)
      (h : Kin (c.issue st a) c') : Called c (.issue a) c'

/-- A deed calls the session once at most. -/
theorem Deed.called {a} (h : Deed c a c') (hi : Links c) (hup : a ≠ .up) (hdown : a ≠ .hangUp) :
    Called c a c' := by
  cases h with
  | call ha => exact .idle ha (.refl _)
  | note => exact .none ⟨rfl, rfl, rfl, rfl⟩ (by simp) (by simp)
  | skip hs hf => exact .event hs hf (.refl _)
  | opened hs hf => exact .event hs hf (Kin.refl _).onOpened
  | data hs hf => exact .event hs hf (Kin.refl _).modify.readyMark
  | closed hs hf | reset hs hf =>
    exact .event hs hf (Kin.refl _).modify.readyMark.streamTryFree
  | writable hs hf => exact .event hs hf (Kin.refl _).pendingPush
  | credit hp hin => exact .issue hp hin (.inl rfl) (Kin.refl _).modify
  | write hp hin => exact .issue hp hin (.inr (.inl rfl)) (Kin.refl _).modify
  | fin hp hin => exact .issue hp hin (.inr (.inr rfl)) (Kin.refl _).modify
  | room => exact .none (Kin.refl _).modify.readyMark (by simp) (by simp)
  | retire => exact .none (Kin.streamTryFree ⟨rfl, rfl, rfl, rfl⟩) (by simp) (by simp)
  | stall hl hp =>
    have hin := (hi.pending.mem hp).1 (hl ▸ mem_cons_self)
    exact .issue hp hin (.inr (.inl rfl)) (Kin.streamTryFree ⟨rfl, rfl, rfl, rfl⟩)
  | lose => exact .none (Kin.refl _).modify.readyMark (by simp) (by simp)
  | reap => exact .none (Kin.refl _).streamTryFree (by simp) (by simp)
  | read | put | close => exact .none (Kin.refl _).modify.pendingPush (by simp) (by simp)
  | again | want => exact .none (Kin.refl _).modify (by simp) (by simp)
  | accept | stop | drain | report | fileno => exact .none ⟨rfl, rfl, rfl, rfl⟩ (by simp) (by simp)
  | forget => exact .none (Kin.streamTryFree ⟨rfl, rfl, rfl, rfl⟩) (by simp) (by simp)
  | rearm => exact .none (Kin.notifyRaise ⟨rfl, rfl, rfl, rfl⟩) (by simp) (by simp)
  | up => exact absurd rfl hup
  | hangUp => exact absurd rfl hdown

theorem Called.epoch {a} (h : Called c a c') : c'.epoch = c.epoch := by
  cases h with
  | none h | idle _ h | event _ _ h | issue _ _ _ h => exact h.epoch

theorem Called.isSome {a} (h : Called c a c') : c'.mux.isSome = c.mux.isSome := by
  cases h with
  | none h => rw [h.mux]
  | idle _ h | event _ _ h | issue _ _ _ h =>
    rw [h.mux]
    exact isSome_map

/-! ### The moves -/

/-- The deeds that a move is made of. -/
def Act.Of : Act → Move → Prop
  | .app a, m => m = .app a
  | .lose, m | .hangUp, m | .reap, m => m = .down
  | .drain, m | .rearm, m => ∃ max, m = .app (.poll max)
  | .up, m => ∃ nonce, m = .up nonce
  | .work, m | .issue _, m => m = .work
  | .event _, m => m = .event
  | .session, m => m ≠ .down ∧ m ≠ .work ∧ ∀ a, m ≠ .app a

/-- The states that a move goes through. -/
def Deeds (m : Move) : LpClient → LpClient → Prop := Reach Deed fun _ a => a.Of m

namespace Deeds

variable {m : Move}

theorem refl (m c) : Deeds m c c := .start

theorem one {a : Act} (h : Deed c a c') (ha : a.Of m) : Deeds m c c' := .single ha h

theorem trans {c''} (h : Deeds m c c') (h' : Deeds m c' c'') : Deeds m c c'' :=
  Reach.trans h h'

theorem links (h : Deeds m c c') (hi : Links c) : Links c' :=
  h.inv hi fun _ _ _ h _ hs => hs.links h

end Deeds

section Poll

variable {max : ℕ}

theorem acceptPop_deeds (a) (c : LpClient) : Deeds (.app a) c c.acceptPop.1 := by
  unfold acceptPop
  split
  · exact .refl _ _
  · rename_i p ps hl
    exact .one (.accept hl) rfl

theorem pollAccept_deeds : ∀ (n : ℕ) (c : LpClient), Deeds (.app (.poll max)) c (pollAccept n c).1
  | 0, _ => .refl _ _
  | n + 1, c => by
    have h := acceptPop_deeds (.poll max) c
    rw [pollAccept]
    rcases hpop : c.acceptPop with ⟨c', _ | p⟩
    · rw [hpop] at h
      exact h
    · rw [hpop] at h
      exact h.trans (pollAccept_deeds n c')

theorem readyPop_deeds (max : ℕ) (h : Links c) :
    Deeds (.app (.poll max)) c c.readyPop.1 := by
  unfold readyPop
  split
  · exact .refl _ _
  · rename_i p ps hl
    obtain ⟨st, hp, -⟩ := (h.ready.mem_iff p).1 (hl ▸ mem_cons_self)
    rw [hp]
    dsimp only
    by_cases hc : st.appClosed = true
    · rw [if_pos hc]
      exact .one (.forget hl hp hc) rfl
    · rw [if_neg hc]
      exact .one (.report hl hp (by simpa using hc)) rfl

theorem pollReady_deeds : ∀ (f n : ℕ) {c : LpClient}, Links c →
    Deeds (.app (.poll max)) c (pollReady f n c).1
  | 0, _, _, _ => .refl _ _
  | f + 1, n, c, h => by
    rw [pollReady]
    by_cases hn : n = 0 ∨ c.ready = []
    · rw [if_pos hn]
      exact .refl _ _
    · rw [if_neg hn]
      have h1 := readyPop_deeds max h
      exact h1.trans (pollReady_deeds f _ (h1.links h))

theorem lpPoll_deeds (h : Links c) (max : ℕ) : Deeds (.app (.poll max)) c (c.lpPoll max).1 := by
  unfold lpPoll
  by_cases hmax : max = 0
  · rw [if_pos hmax]
    exact .refl _ _
  · rw [if_neg hmax]
    have h0 : Deeds (.app (.poll max)) c { c with notify := 0, notified := false } :=
      .one .drain ⟨max, rfl⟩
    have h1 := h0.trans (pollAccept_deeds max _)
    generalize pollAccept max { c with notify := 0, notified := false } = r at h1 ⊢
    obtain ⟨c₁, evs⟩ := r
    have h2 := h1.trans (pollReady_deeds c₁.ready.length (max - evs.length) (h1.links h))
    dsimp only at h2 ⊢
    split
    · exact h2.trans (.one .rearm ⟨max, rfl⟩)
    · exact h2

end Poll

/-- A call of the application is made of deeds. -/
theorem app_deeds (h : Links c) (a) : Deeds (.app a) c (c.app a) := by
  have hhandle : ∀ {p : ℕ} {f : LpStream → LpClient},
      (∀ st, c.handle p = some st → Deeds (.app a) c (f st)) →
      Deeds (.app a) c (((c.handle p).map f).getD c) := by
    intro p f hf
    rcases hh : c.handle p with _ | st
    · exact .refl _ _
    · exact hf st hh
  cases a with
  | accept =>
    simp only [app, lpAccept]
    split
    · exact .refl _ _
    · exact acceptPop_deeds .accept c
  | read p n =>
    refine hhandle fun st hh => ?_
    unfold lpRead
    split_ifs with _ _ hr
    all_goals try exact .refl _ _
    exact .one (.read hh (by simpa using hr)) rfl
  | readNb p n =>
    refine hhandle fun st hh => ?_
    unfold lpReadNb
    split_ifs with _ hr hb he
    all_goals try exact .refl _ _
    · exact .one (.again hh (by simp_all [holds])) rfl
    · exact .one (.read hh (by simpa using hr)) rfl
  | write p b =>
    refine hhandle fun st hh => ?_
    unfold lpWrite
    split_ifs with _ _ hr
    all_goals try exact .refl _ _
    exact .one (.put (a := .write p b) hh (by simp_all) trivial) rfl
  | writeNb p b =>
    refine hhandle fun st hh => ?_
    unfold lpWriteNb
    split_ifs with _ hr hl
    all_goals try exact .refl _ _
    · exact .one (.want hh hl) rfl
    · exact .one (.put (a := .writeNb p b) hh (by simp_all) trivial) rfl
  | close p => exact hhandle fun st hh => .one (.close hh) rfl
  | fileno => exact .one .fileno rfl
  | poll max => exact lpPoll_deeds h max
  | disconnect => exact .one .stop rfl

section Down

theorem lose_heap_of_ne (h : q ≠ p) : (c.lose p).heap q = c.heap q := by
  unfold lose readyMark notifyRaise modify
  split_ifs <;> simp [h]

theorem lose_heap (h : c.heap p = some st) :
    ∃ st', (c.lose p).heap p = some st' ∧ st'.protoDone = true := by
  unfold lose
  rw [readyMark_eq (modify_heap h _)]
  refine ⟨_, Function.update_self .., ?_⟩
  have hdone : (if st.protoDone then st else st.aborted).protoDone = true := by
    split_ifs with hd
    · exact hd
    · rfl
  simpa using hdone

theorem lose_all (c : LpClient) (p : ℕ) : (c.lose p).all = c.all := by
  unfold lose readyMark notifyRaise modify
  split_ifs <;> rfl

theorem foldl_lose_deeds : ∀ (l : List ℕ) {c : LpClient}, (∀ p ∈ l, (c.heap p).isSome) →
    Deeds .down c (l.foldl lose c) ∧ (l.foldl lose c).all = c.all
      ∧ ∀ p st, (l.foldl lose c).heap p = some st →
        p ∈ l ∨ (∀ st, c.heap p = some st → st.protoDone = true) → st.protoDone = true
  | [], c, _ => ⟨.refl _ _, rfl, fun p st hp h => by
      rcases h with h | h
      · cases h
      · exact h st hp⟩
  | p :: l, c, h => by
    obtain ⟨st, hp⟩ := isSome_iff_exists.1 (h p mem_cons_self)
    have hlost := lose_heap hp
    have halive : ∀ q ∈ l, ((c.lose p).heap q).isSome := by
      intro q hq
      by_cases hqp : q = p
      · obtain ⟨st', hst', -⟩ := hlost
        simp [hqp, hst']
      · rw [lose_heap_of_ne hqp]
        exact h q (mem_cons_of_mem _ hq)
    obtain ⟨h1, h2, h3⟩ := foldl_lose_deeds l halive
    refine ⟨(Deeds.one (.lose hp) rfl).trans h1, h2.trans (lose_all c p), fun q st hq hor => ?_⟩
    refine h3 q st hq ?_
    by_cases hql : q ∈ l
    · exact .inl hql
    · refine .inr fun st' hst' => ?_
      by_cases hqp : q = p
      · subst hqp
        obtain ⟨st'', h4, h5⟩ := hlost
        rw [h4, some_inj] at hst'
        exact hst' ▸ h5
      · rw [lose_heap_of_ne hqp] at hst'
        rcases hor with hor | hor
        · rcases mem_cons.1 hor with e | e
          · exact absurd e hqp
          · exact absurd e hql
        · exact hor st' hst'

theorem foldl_reap_deeds : ∀ (l : List ℕ) (c : LpClient),
    Deeds .down c (l.foldl streamTryFree c)
  | [], _ => .refl _ _
  | p :: l, _ => (Deeds.one (.reap p) rfl).trans (foldl_reap_deeds l _)

/-- The end of a session, which every stream hears of, is made of deeds. -/
theorem sessionDown_deeds (h : Links c) : Deeds .down c c.sessionDown := by
  obtain ⟨h1, h2, h3⟩ := foldl_lose_deeds c.all (c := c) fun p hp => by
    obtain ⟨st, hst, -⟩ := (h.all.mem_iff p).1 hp
    simp [hst]
  have hdone : Each (fun _ st => st.protoDone = true) (c.all.foldl lose c).heap := fun p st hp =>
    h3 p st hp (.inl (h2 ▸ ((h1.links h).all.mem hp).2 trivial))
  exact (h1.trans (.one (.hangUp hdone) rfl)).trans (foldl_reap_deeds _ _)

end Down

/-! ### The pending list

A stream is taken off the list before it is worked on, and could as well be taken off after. -/

section Work

variable {ps : List ℕ}

theorem retire_heap (c : LpClient) (p : ℕ) (ps) :
    (c.retire p ps).heap p = (c.heap p).map (·.unpend) :=
  Function.update_self ..

theorem retire_modify (hg : ∀ st : LpStream, g st.unpend = (g st).unpend) :
    (c.retire p ps).modify p g = (c.modify p g).retire p ps := by
  unfold retire modify
  dsimp only
  rw [Function.update_self, Function.update_self, Function.update_idem, Function.update_idem,
    Option.map_map, Option.map_map]
  congr 3
  funext st
  exact hg st

theorem retire_readyMark (hp : c.heap p = some st) :
    (c.retire p ps).readyMark p bits = (c.readyMark p bits).retire p ps := by
  rw [readyMark_eq hp, @readyMark_eq _ _ st.unpend
    (by rw [retire_heap, hp]; rfl) _]
  unfold retire modify news
  dsimp only
  rw [Function.update_idem, Function.update_idem, Function.update_self]
  congr 2
  split <;> rfl

theorem creditRead_retire (c : LpClient) :
    (c.retire p ps).creditRead p = (c.creditRead p).retire p ps := by
  unfold creditRead
  rw [retire_heap]
  rcases c.heap p with _ | st
  · rfl
  · dsimp only [map_some]
    by_cases hn : st.consumePending > 0
    · rw [if_pos hn, if_pos (by exact hn)]
      exact retire_modify (c := c.issue st (.consume st.sid st.consumePending))
        (g := (·.credited)) fun _ => rfl
    · rw [if_neg hn, if_neg (by exact hn)]

theorem flushLoop_retire : ∀ (n : ℕ) (c : LpClient),
    flushLoop p n (c.retire p ps) = (flushLoop p n c).retire p ps
  | 0, _ => rfl
  | n + 1, c => by
    rw [flushLoop, flushLoop, retire_heap]
    rcases c.heap p with _ | st
    · rfl
    · dsimp only [map_some]
      by_cases hw : st.wbuf = []
      · rw [if_pos hw, if_pos (by exact hw)]
      rw [if_neg hw, if_neg (by exact hw)]
      by_cases hz : c.accepts st.sid st.wbuf = 0
      · rw [if_pos hz, if_pos (by exact hz)]
        rfl
      · rw [if_neg hz, if_neg (by exact hz), ← flushLoop_retire n]
        exact congrArg _ (retire_modify (c := c.issue st (.write st.sid st.wbuf))
          (g := (·.send (c.accepts st.sid st.wbuf))) fun _ => rfl)

theorem signalRoom_retire (c : LpClient) :
    (c.retire p ps).signalRoom p = (c.signalRoom p).retire p ps := by
  unfold signalRoom
  rw [retire_heap]
  rcases hp : c.heap p with _ | st
  · rfl
  · dsimp only [map_some]
    by_cases hr : st.wbuf.length ≤ lpWbufHigh / 2 ∧ st.wantWritable = true
    · rw [if_pos hr, if_pos (by exact hr), retire_modify (g := (·.sated)) fun _ => rfl,
        retire_readyMark (modify_heap hp _)]
    · rw [if_neg hr, if_neg (by exact hr)]

theorem flushWbuf_retire (c : LpClient) :
    (c.retire p ps).flushWbuf p = (c.flushWbuf p).retire p ps := by
  unfold flushWbuf
  rw [retire_heap]
  rcases c.heap p with _ | st
  · rfl
  · dsimp only [map_some]
    by_cases hw : st.wbuf = []
    · rw [if_pos hw, if_pos (by exact hw)]
    · rw [if_neg hw, if_neg (by exact hw), flushLoop_retire, signalRoom_retire]
      rfl

theorem sendFin_retire (c : LpClient) :
    (c.retire p ps).sendFin p = (c.sendFin p).retire p ps := by
  unfold sendFin
  rw [retire_heap]
  rcases c.heap p with _ | st
  · rfl
  · dsimp only [map_some]
    by_cases hf : st.appClosed = true ∧ st.finSent = false ∧ st.wbuf = []
    · rw [if_pos hf, if_pos (by exact hf)]
      exact retire_modify (c := c.issue st (.close st.sid)) (g := (·.finish)) fun _ => rfl
    · rw [if_neg hf, if_neg (by exact hf)]

theorem workNext_eq (hl : c.pending = p :: ps) : c.workNext =
    ((((c.creditRead p).flushWbuf p).sendFin p).retire p ps).streamTryFree p := by
  unfold workNext
  rw [hl]
  change (c.retire p ps).processPending p = _
  unfold processPending
  rw [creditRead_retire, flushWbuf_retire, sendFin_retire]

/-- The stream at the head of the list is worked on. -/
structure Busy (p : ℕ) (ps : List ℕ) (c : LpClient) (st : LpStream) : Prop where
  pending : c.pending = p :: ps
  heap : c.heap p = some st
  inPending : st.inPending = true
  spent : st.consumePending = 0

theorem Busy.issue (h : Busy p ps c st) (st' a) : Busy p ps (c.issue st' a) st :=
  ⟨h.pending, h.heap, h.inPending, h.spent⟩

theorem Busy.modify (h : Busy p ps c st) (hg : (g st).inPending = st.inPending)
    (hk : (g st).consumePending = st.consumePending) : Busy p ps (c.modify p g) (g st) :=
  ⟨h.pending, modify_heap h.heap g, hg.trans h.inPending, hk.trans h.spent⟩

theorem creditRead_deeds (hl : c.pending = p :: ps) (hp : c.heap p = some st)
    (hin : st.inPending = true) :
    Deeds .work c (c.creditRead p) ∧ ∃ st', Busy p ps (c.creditRead p) st' := by
  unfold LpClient.creditRead
  rw [hp]
  dsimp only
  split
  · exact ⟨.one (.credit hp hin) rfl, st.credited, hl,
      modify_heap (c := c.issue st (.consume st.sid st.consumePending)) hp _, hin, rfl⟩
  · exact ⟨.refl _ _, st, hl, hp, hin, by omega⟩

/-- The loop ends with nothing left, or with a write that takes nothing. -/
theorem Busy.flushLoop : ∀ (n : ℕ) {c : LpClient} {st : LpStream}, Busy p ps c st →
    st.wbuf.length ≤ n → ∃ c₁ st₁, Deeds .work c c₁ ∧ Busy p ps c₁ st₁
      ∧ (st₁.wbuf = [] ∧ LpClient.flushLoop p n c = c₁ ∨ st₁.wbuf ≠ []
        ∧ c₁.accepts st₁.sid st₁.wbuf = 0
        ∧ LpClient.flushLoop p n c = c₁.issue st₁ (.write st₁.sid st₁.wbuf))
  | 0, c, st, h, hn =>
    ⟨c, st, .refl _ _, h, .inl ⟨length_eq_zero_iff.1 (Nat.le_zero.1 hn), rfl⟩⟩
  | n + 1, c, st, h, hn => by
    rw [LpClient.flushLoop, h.heap]
    dsimp only
    by_cases hw : st.wbuf = []
    · rw [if_pos hw]
      exact ⟨c, st, .refl _ _, h, .inl ⟨hw, rfl⟩⟩
    rw [if_neg hw]
    by_cases hz : c.accepts st.sid st.wbuf = 0
    · rw [if_pos hz]
      exact ⟨c, st, .refl _ _, h, .inr ⟨hw, hz, rfl⟩⟩
    rw [if_neg hz]
    have hlen : (st.send (c.accepts st.sid st.wbuf)).wbuf.length ≤ n := by
      change (st.wbuf.drop _).length ≤ n
      rw [length_drop]
      omega
    obtain ⟨c₁, st₁, h1, h2⟩ := Busy.flushLoop n
      ((h.issue st (.write st.sid st.wbuf)).modify
        (g := (·.send (c.accepts st.sid st.wbuf))) rfl rfl) hlen
    exact ⟨c₁, st₁, (Deeds.one (.write h.heap h.inPending hz) rfl).trans h1, h2⟩

theorem Busy.signalRoom (h : Busy p ps c st) : Deeds .work c (c.signalRoom p)
    ∧ ∃ st', Busy p ps (c.signalRoom p) st' ∧ st'.sid = st.sid ∧ st'.wbuf = st.wbuf
      ∧ st'.born = st.born ∧ (c.signalRoom p).mux = c.mux
      ∧ ∀ a, (c.issue st a).signalRoom p = (c.signalRoom p).issue st a := by
  have hi : ∀ a, (c.issue st a).heap p = some st := fun a => h.heap
  unfold LpClient.signalRoom
  simp only [h.heap, hi]
  by_cases hr : st.wbuf.length ≤ lpWbufHigh / 2 ∧ st.wantWritable = true
  · simp only [if_pos hr]
    have h1 := h.modify (g := (·.sated)) rfl rfl
    refine ⟨.one (.room h.heap h.inPending hr.1 hr.2) rfl,
      st.sated.news c.pollMode { writable := true }, ⟨?_, ?_, ?_, ?_⟩, ?_, ?_, ?_, ?_, ?_⟩
    · rw [readyMark_eq h1.heap]
      exact h.pending
    · rw [readyMark_eq h1.heap]
      exact Function.update_self ..
    · simpa [sated] using h.inPending
    · simpa [sated] using h.spent
    · simp [sated]
    · simp [sated]
    · simp [sated]
    · rw [readyMark_eq h1.heap]
      rfl
    · intro a
      rw [readyMark_eq h1.heap, readyMark_eq ((h.issue _ a).modify
        (g := (·.sated)) rfl rfl).heap]
      rfl
  · simp only [if_neg hr]
    exact ⟨.refl _ _, st, h, rfl, rfl, rfl, trivial, fun _ => trivial⟩

/-- A round over the pending list is made of deeds. -/
theorem workNext_deeds (h : Links c) : Deeds .work c c.workNext := by
  rcases hl : c.pending with _ | ⟨p, ps⟩
  · rw [workNext, hl]
    exact .refl _ _
  obtain ⟨st₀, hp₀, hin₀⟩ := (h.pending.mem_iff p).1 (hl ▸ mem_cons_self)
  rw [workNext_eq hl]
  obtain ⟨hd, st, hb⟩ := creditRead_deeds hl hp₀ hin₀
  refine hd.trans ?_
  generalize c.creditRead p = c at hb ⊢
  -- the end, with nothing left to send
  have hend : ∀ {c st}, Busy p ps c st → st.wbuf = [] →
      Deeds .work c (((c.sendFin p).retire p ps).streamTryFree p) := by
    intro c st hb hw
    unfold sendFin
    rw [hb.heap]
    dsimp only
    split
    · rename_i hc
      have h1 := (hb.issue st (.close st.sid)).modify (g := (·.finish)) rfl rfl
      exact (Deeds.one (.fin hb.heap hb.inPending hc.1 hw) rfl).trans
        (.one (.retire h1.pending h1.heap h1.spent hw) rfl)
    · exact .one (.retire hb.pending hb.heap hb.spent hw) rfl
  unfold flushWbuf
  rw [hb.heap]
  dsimp only
  by_cases hw : st.wbuf = []
  · rw [if_pos hw]
    exact hend hb hw
  rw [if_neg hw]
  obtain ⟨c₁, st₁, hd₁, hb₁, ⟨hw₁, heq⟩ | ⟨hw₁, hz, heq⟩⟩ := hb.flushLoop _ (Nat.le_refl _)
  · obtain ⟨hd₂, st₂, hb₂, -, hw₂, -⟩ := hb₁.signalRoom
    rw [heq]
    exact (hd₁.trans hd₂).trans (hend hb₂ (hw₂.trans hw₁))
  · obtain ⟨hd₂, st₂, hb₂, hsid, hw₂, hborn, hmux, hcomm⟩ := hb₁.signalRoom
    have hne : st₂.wbuf ≠ [] := hw₂ ▸ hw₁
    have hz₂ : (c₁.signalRoom p).accepts st₂.sid st₂.wbuf = 0 := by
      rw [hsid, hw₂, accepts, hmux]
      exact hz
    rw [heq, hcomm]
    generalize c₁.signalRoom p = c₂ at hd₂ hb₂ hz₂
    have hissue : c₂.issue st₁ (.write st₁.sid st₁.wbuf)
        = c₂.issue st₂ (.write st₂.sid st₂.wbuf) := by
      rw [issue, issue, hborn, hsid, hw₂]
    have hfin : (c₂.issue st₂ (.write st₂.sid st₂.wbuf)).sendFin p
        = c₂.issue st₂ (.write st₂.sid st₂.wbuf) := by
      unfold sendFin
      rw [(hb₂.issue st₂ _).heap]
      exact if_neg fun hc => hne hc.2.2
    rw [hissue, hfin]
    exact (hd₁.trans hd₂).trans (.one (.stall hb₂.pending hb₂.heap hb₂.spent hne hz₂) rfl)

end Work

section Handlers

variable (hmac : Hmac)

theorem regGet_call (c : LpClient) (a sid) : (c.call a).regGet sid = c.regGet sid := rfl

/-- An event is handled in one deed, but for the answer to a greeting. -/
theorem nextEvent_cases (c : LpClient) : c.nextEvent hmac = c
    ∨ ∃ s ev c₁, c.mux = some s ∧ s.front = some ev ∧ Deed c (.event ev) c₁
      ∧ Reach Deed (fun _ a => a = .session) c₁ (c.nextEvent hmac) := by
  unfold nextEvent
  rcases hs : c.mux with _ | s
  · exact .inl rfl
  rw [bind_some]
  rcases hf : (muxNextEvent s).2 with _ | ev
  · exact .inl rfl
  dsimp only
  have hfront : s.front = some ev := hf
  have hone : ∀ {c₁ : LpClient}, Deed c (.event ev) c₁ → ∃ s' ev' c₂, some s = some s'
      ∧ s'.front = some ev' ∧ Deed c (.event ev') c₂
      ∧ Reach Deed (fun _ a => a = .session) c₂ c₁ := fun h => ⟨s, ev, _, rfl, hfront, h, .start⟩
  refine .inr ?_
  cases ev with
  | peerHello w ms iw pid auth nonce =>
    refine ⟨s, _, _, rfl, hfront, .skip hs hfront trivial, ?_⟩
    simp only [onEvent, onPeerHello]
    have hnote : ∀ (c : LpClient) b,
        Reach Deed (fun _ a => a = .session) c { c with authed := b } := fun c b =>
      .single rfl (.note c.recv b)
    split
    · exact hnote _ _
    · split
      · exact hnote _ _
      · exact (hnote _ _).trans (.single rfl (.call trivial))
  | opened sid m => exact hone (.opened hs hfront)
  | data sid b =>
    simp only [onEvent, regGet_call]
    rcases hr : c.regGet sid with _ | ⟨p, st⟩
    · exact hone (.skip hs hfront hr)
    · exact hone (.data hs hfront hr)
  | closed sid =>
    simp only [onEvent, regGet_call]
    rcases hr : c.regGet sid with _ | ⟨p, st⟩
    · exact hone (.skip hs hfront hr)
    · exact hone (.closed hs hfront hr)
  | reset sid code =>
    simp only [onEvent, regGet_call]
    rcases hr : c.regGet sid with _ | ⟨p, st⟩
    · exact hone (.skip hs hfront hr)
    · exact hone (.reset hs hfront hr)
  | writable sid =>
    simp only [onEvent, regGet_call]
    rcases hr : c.regGet sid with _ | ⟨p, st⟩
    · exact hone (.skip hs hfront fun p st h => by simp [hr] at h)
    · dsimp only [onWritable]
      split
      · rename_i hw
        exact hone (.writable hs hfront hr hw)
      · rename_i hw
        refine hone (.skip hs hfront fun p' st' h => ?_)
        rw [hr, some_inj, Prod.mk.injEq] at h
        exact h.2 ▸ not_not.1 hw
  | capacity | goaway | fatal => exact hone (.skip hs hfront trivial)

/-- An event is made of deeds. -/
theorem nextEvent_deeds (c : LpClient) : Deeds .event c (c.nextEvent hmac) := by
  rcases nextEvent_cases hmac c with heq | ⟨s, ev, c₁, -, -, hd, hr⟩
  · rw [heq]
    exact .refl _ _
  · refine (Deeds.one hd rfl).trans (hr.mono ?_)
    rintro _ _ rfl
    exact ⟨by simp, by simp, by simp⟩

/-- Every move is made of deeds. -/
theorem move_deeds (h : Links c) (m) : Deeds m c (c.move hmac m) := by
  cases m with
  | app a => exact app_deeds h a
  | up nonce =>
    simp only [move]
    split
    · exact .refl _ _
    · rename_i hfd
      unfold sessionUp
      split
      · exact .refl _ _
      · rename_i hn
        exact .one (.up (by simpa using hfd) hn) ⟨nonce, rfl⟩
  | work =>
    simp only [move]
    split
    · exact workNext_deeds h
    · exact .refl _ _
  | stash b => exact .one (.note b c.authed) ⟨by simp, by simp, by simp⟩
  | recv => exact .one (.call trivial) ⟨by simp, by simp, by simp⟩
  | event => exact nextEvent_deeds hmac c
  | timer now => exact .one (.call trivial) ⟨by simp, by simp, by simp⟩
  | advance n => exact .one (.call trivial) ⟨by simp, by simp, by simp⟩
  | down => exact sessionDown_deeds h

theorem links_start (cfg) : Links (lpConnect cfg) := by
  have hnone : ∀ {flag : LpStream → Prop}, Threaded flag (lpConnect cfg).heap [] := fun {flag} =>
    ⟨nodup_nil, fun p => by simp [lpConnect]⟩
  refine ⟨hnone, hnone, hnone, hnone, fun sid p => ?_, fun p st hp => ?_, fun _ _ => rfl, ?_, ?_,
    ?_, ?_, rfl⟩
  · simp [lpConnect]
  · simp [lpConnect] at hp
  all_goals simp [lpConnect]

end Handlers

end LpClient

end MuxProtocol
