import MuxProtocol.Lib.Index
import MuxProtocol.Proofs.Isolation

/-!
# Credit for what is read

The bytes of a session that the library was told of are those it has called `mux_consume` for, those
of the streams it has, and those that were in the buffers of the streams it has freed: nobody reads
these, and the window of the connection is smaller by them for good.
-/

namespace MuxProtocol

open Machine Intrusive Index LpStream List Option Event

/-! ### The session -/

/-- Nothing more comes on the stream. -/
def Over (sid : UInt32) (q : List Event) : Prop :=
  .closed ∈ notices sid q ∨ .reset ∈ notices sid q

theorem Over.append {sid q} (h : Over sid q) (q') : Over sid (q ++ q') := by
  rw [Over, notices_append]
  exact h.imp (mem_append_left _) (mem_append_left _)

/-- Bytes come on streams that the peer has opened, and are not over. -/
theorem Served.front_data {s : Session} {sid b} (h : Served s) (hquiet : synIds s.sent = [])
    (hf : s.front = some (.data sid b)) : sid ∈ openedIds s.popped ∧ ¬ Over sid s.popped := by
  have hq : s.queued = s.popped ++ .data sid b :: (s.call .nextEvent).q.toList := by
    rw [h.queued_eq, (front_some hf).1]
  have htold : (s.toCore.view sid).told
      = notices sid s.popped ++ .data b :: notices sid (s.call .nextEvent).q.toList := by
    change notices sid s.queued = _
    rw [hq]
    simp [notice]
  have h0 : sid ≠ muxSidControl := by
    rintro rfl
    have := h.order.control
    change (s.toCore.view muxSidControl).told = [] at this
    simp [htold] at this
  have htells := h.order.sound.tells sid h0
  have hown : ¬ Own s.role sid := fun ho => by
    have hsyn := (htells.born (by simp [htold])).1 ho
    have := isSyn_mem_msgs.1 ⟨_, hsyn, rfl⟩
    simp [hquiet] at this
  have hann := htells.announced
  rw [htold] at hann
  refine ⟨?_, ?_⟩
  · rw [mem_openedIds]
    rcases hann.opened hown with hnil | ⟨t, ht, -⟩
    · simp at hnil
    · rcases hp : notices sid s.popped with _ | ⟨n, ns⟩
      · simp [hp] at ht
      · rw [hp, cons_append, cons.injEq] at ht
        rw [ht.1]
        exact mem_cons_self
  · rintro (hc | hr)
    · exact (pairwise_append.1 hann.closed).2.2 _ hc _ mem_cons_self rfl b rfl
    · exact (pairwise_append.1 hann.reset).2.2 _ hr _ mem_cons_self rfl

/-! ### Streams -/

/-- The bytes that `mux_consume` is not called for yet. -/
def LpStream.due (st : LpStream) : ℕ := st.consumePending + st.rbuf.length

namespace LpClient

variable {c c' : LpClient} {p : ℕ} {st st' : LpStream} {s s' : Session} {a : Act} {on : Bool}
  {hmac : Hmac}

/-- The bytes that come with a deed. -/
def Act.gain (a : Act) : ℕ := deliveredBytes a.events

/-- The bytes that a deed passes to `mux_consume`. -/
def Act.pays : Act → ℕ
  | .issue b => passed b.credits
  | _ => 0

theorem StreamStep.due (h : StreamStep on a st st') : st'.due + a.pays = st.due + a.gain := by
  cases h with
  | arrive hr b =>
    simp [LpStream.due, LpStream.arrive, Act.pays, Act.gain, Act.events, size, Nat.add_assoc]
  | credited => simp [LpStream.due, LpStream.credited, Act.pays, Act.gain, Act.events, passed,
      Call.credits, Nat.add_comm]
  | read n =>
    simp [LpStream.due, LpStream.read, LpStream.pend, Act.pays, Act.gain, Act.events]
    omega
  | lose =>
    simp only [LpStream.due, LpStream.news_consumePending, LpStream.news_rbuf, Act.pays, Act.gain,
      Act.events]
    split <;> simp [LpStream.aborted]
  | closed | reset | sated =>
    simp [LpStream.due, LpStream.closed, LpStream.aborted, LpStream.sated, Act.pays, Act.gain,
      Act.events, size]
  | pend | send | finish | retire | stall | accept | again | write | want | close | unmark =>
    simp [LpStream.due, LpStream.pend, LpStream.send, LpStream.finish, LpStream.unpend,
      LpStream.write, LpStream.unmark, Act.pays, Act.gain, Act.events, size, passed, Call.credits]

/-- Bytes come for streams of the present session only, and are paid for those only. -/
theorem StreamStep.current (h : StreamStep on a st st') (hm : Moored c st)
    (hp : st.inPending = true → c.Current st) (hne : a.gain ≠ 0 ∨ a.pays ≠ 0) : c.Current st := by
  cases h with
  | arrive hr | closed hr | reset hr | pend hr => exact hm.reg.1 hr
  | credited hin | send hin | sated hin | finish hin => exact hp hin
  | _ => simp [Act.gain, Act.events, Act.pays, passed, Call.credits] at hne

theorem StreamStep.sid (h : StreamStep on a st st') : st'.sid = st.sid := by
  cases h with
  | arrive | closed | reset | sated => exact news_sid _ _ _
  | lose =>
    rw [news_sid]
    split <;> rfl
  | _ => rfl

theorem StreamStep.spent (h : StreamStep on a st st')
    (hs : st.consumePending ≠ 0 → st.inPending = true) (hk : st'.consumePending ≠ 0) :
    st'.inPending = true := by
  cases h with
  | arrive | closed | reset | sated =>
    rw [news_consumePending] at hk
    rw [news_inPending]
    exact hs hk
  | lose =>
    rw [news_consumePending] at hk
    rw [news_inPending]
    split at hk
    · rw [if_pos ‹_›]
      exact hs hk
    · rw [if_neg ‹_›]
      exact hs hk
  | pend | read | write | close => rfl
  | credited => exact absurd rfl hk
  | retire h0 | stall h0 => exact absurd h0 hk
  | send | finish | accept | again | want | unmark => exact hs hk

/-- The session has told what the stream knows. -/
structure Heard (s : Session) (st : LpStream) : Prop where
  closed : st.told = true → .closed ∈ notices st.sid s.popped
  reset : st.reset = true → .reset ∈ notices st.sid s.popped

theorem Heard.over (h : Heard s st) (hs : st.Sane) (hd : st.protoDone = true) :
    Over st.sid s.popped := by
  rcases hs.done hd with hr | ⟨-, he⟩
  · exact .inr (h.reset hr)
  · exact (hs.eof.1 he).imp h.closed h.reset

theorem StreamStep.told (h : StreamStep on a st st') (ht : st'.told = true) :
    st.told = true ∨ a = .event (.closed st.sid) := by
  cases h with
  | closed => exact .inr rfl
  | arrive | reset | sated =>
    rw [news_told] at ht
    exact .inl ht
  | lose =>
    rw [news_told] at ht
    split at ht
    · exact .inl ht
    · exact .inl ht
  | _ => exact .inl ht

theorem StreamStep.reset_of (h : StreamStep on a st st') (hr : st'.reset = true) :
    st.reset = true ∨ (∃ code, a = .event (.reset st.sid code)) ∨ a = .lose := by
  cases h with
  | reset _ code => exact .inr (.inl ⟨code, rfl⟩)
  | lose => exact .inr (.inr rfl)
  | arrive | closed | sated =>
    rw [news_reset] at hr
    exact .inl hr
  | _ => exact .inl hr

theorem Heard.append (h : Heard s st) {q} (hq : s'.popped = s.popped ++ q) : Heard s' st := by
  refine ⟨fun ht => ?_, fun hr => ?_⟩
  · rw [hq, notices_append]
    exact mem_append_left _ (h.closed ht)
  · rw [hq, notices_append]
    exact mem_append_left _ (h.reset hr)

theorem StreamStep.heard (h : StreamStep on a st st') (hlose : a ≠ .lose) (hs : Heard s st)
    (hq : s'.popped = s.popped ++ a.events) : Heard s' st' := by
  have hold := hs.append hq
  refine ⟨fun ht => ?_, fun hr => ?_⟩
  · rw [h.sid]
    rcases h.told ht with ht | rfl
    · exact hold.closed ht
    · rw [hq, notices_append]
      exact mem_append_right _ (by simp [Act.events, notices, notice])
  · rw [h.sid]
    rcases h.reset_of hr with hr | ⟨code, rfl⟩ | hl
    · exact hold.reset hr
    · rw [hq, notices_append]
      exact mem_append_right _ (by simp [Act.events, notices, notice])
    · exact absurd hl hlose

/-! ### The books of a session -/

/-- The bytes passed to `mux_consume` in the present session. -/
def paid (c : LpClient) : ℕ := passed (c.issued.flatMap fun x => x.2.credits)

/-- The bytes due for a stream, if it is of the session with this number. -/
def dueIn (epoch : ℕ) (st : LpStream) : ℕ := if st.born = epoch then st.due else 0

/-- The bytes due for the streams of the present session. -/
def unpaid (c : LpClient) : ℕ := total (dueIn c.epoch) c.heap c.next

/-- The bytes due for those freed. -/
def lost (c : LpClient) : ℕ := (c.freed.map fun x => dueIn c.epoch x.2).sum

structure Books (c : LpClient) (s : Session) : Prop where
  quiet : synIds s.sent = []
  heard : Each (fun _ st => st.born = c.epoch → Heard s st) c.heap
  known : ∀ sid ∈ openedIds s.popped, (c.reg.lookup sid).isSome = true ∨ Over sid s.popped
  spent : Each (fun _ st => st.born = c.epoch → st.consumePending ≠ 0 → st.inPending = true) c.heap
  clean : ∀ x ∈ c.freed, x.2.born = c.epoch → x.2.consumePending = 0
  balance : deliveredBytes s.popped = c.paid + c.unpaid + c.lost

theorem Called.paid (h : Called c a c') : c'.paid = c.paid + a.pays := by
  have hsame : c'.issued = c.issued → c'.paid = c.paid :=
    fun h => by rw [LpClient.paid, h, LpClient.paid]
  cases h with
  | none h hev hiss =>
    rw [hsame h.issued]
    cases a with
    | issue b => exact absurd rfl (hiss b)
    | _ => rfl
  | idle _ h | event _ _ h =>
    rw [hsame h.issued]
    rfl
  | issue hp hin hb h =>
    rw [LpClient.paid, h.issued]
    simp [LpClient.issue, LpClient.paid, passed, Act.pays]

theorem StreamStep.dueIn (h : StreamStep on a st st') (hm : Moored c st)
    (hp : st.inPending = true → c.Current st) :
    LpClient.dueIn c.epoch st' + a.pays = LpClient.dueIn c.epoch st + a.gain := by
  have hdue := h.due
  rw [LpClient.dueIn, LpClient.dueIn, h.born]
  by_cases hb : st.born = c.epoch
  · rw [if_pos hb, if_pos hb]
    exact hdue
  · rw [if_neg hb, if_neg hb]
    have hno : ¬ (a.gain ≠ 0 ∨ a.pays ≠ 0) := fun hne => hb (h.current hm hp hne).1
    omega

theorem Aside.opened (h : c.Aside a) : openedIds a.events = [] := by
  cases a with
  | event ev =>
    cases ev with
    | opened => exact absurd h id
    | _ => rfl
  | _ => rfl

theorem StreamStep.opened (h : StreamStep on a st st') : openedIds a.events = [] := by
  cases h <;> rfl

/-- A stream that the library was told of is in the registry, or over. -/
theorem Outcome.known (h : Outcome c a c') (hreap : a ≠ .reap) (hdown : a ≠ .hangUp)
    (hk : ∀ sid ∈ openedIds s.popped, (c.reg.lookup sid).isSome = true ∨ Over sid s.popped)
    (hq : s'.popped = s.popped ++ a.events)
    (hover : ∀ {p st st'}, c.heap p = some st → StreamStep c.pollMode a st st' →
      st'.inReg = true → st'.protoDone = true → Over st'.sid s'.popped) :
    ∀ sid ∈ openedIds s'.popped, (c'.reg.lookup sid).isSome = true ∨ Over sid s'.popped := by
  have hold : ∀ sid ∈ openedIds s.popped,
      (c.reg.lookup sid).isSome = true ∨ Over sid s'.popped := fun sid hid => by
    rw [hq]
    exact (hk sid hid).imp_right (·.append _)
  have hsame : openedIds a.events = [] → ∀ sid ∈ openedIds s'.popped, sid ∈ openedIds s.popped := by
    intro hnil sid hid
    rwa [hq, openedIds_append, hnil, append_nil] at hid
  intro sid hid
  cases h with
  | same haside _ _ _ hr =>
    rw [hr]
    exact hold sid (hsame haside.opened sid hid)
  | born sid' m hev _ _ _ _ hr =>
    rw [hr]
    by_cases he : sid = sid'
    · subst he
      simp
    · rw [AList.lookup_insert_ne he]
      refine hold sid ?_
      rw [hq, openedIds_append, hev] at hid
      simpa [Act.events, openedIds, openedId, he] using hid
  | step _ hst _ _ _ hr =>
    rw [hr]
    exact hold sid (hsame hst.opened sid hid)
  | @freed p st st' hp hst hd _ _ _ hr =>
    have hst := hst.resolve_right fun h => hreap h.1
    rw [hr]
    split
    · rename_i hin
      by_cases he : sid = st'.sid
      · exact .inr (he ▸ hover hp hst hin hd.1)
      · rw [AList.lookup_erase_ne he]
        exact hold sid (hsame hst.opened sid hid)
    · exact hold sid (hsame hst.opened sid hid)
  | hangUp ha => exact absurd ha hdown

/-- Bytes that come are to be paid for, until they are paid or lost. -/
theorem Outcome.balance (h : Outcome c a c') (hi : Sound c) (ha : Apart c) (hb : Books c s)
    (hs : c.mux = some s) (hfront : ∀ ev, a = .event ev → s.front = some ev)
    (hep : c'.epoch = c.epoch) (hreap : a ≠ .reap) (hdown : a ≠ .hangUp) :
    c'.unpaid + c'.lost + a.pays = c.unpaid + c.lost + a.gain := by
  rw [unpaid, unpaid, lost, lost, hep]
  cases h with
  | same haside heap hf hn hr =>
    rw [heap, hf, hn]
    have h0 : a.pays = 0 ∧ a.gain = 0 := by
      cases a with
      | issue b => exact absurd haside id
      | event ev =>
        refine ⟨rfl, ?_⟩
        cases ev with
        | data sid b =>
          -- a stream that bytes come for is in the registry
          obtain ⟨hid, hover⟩ := (hi.links.served s hs).front_data hb.quiet (hfront _ rfl)
          obtain ⟨q, hq⟩ := isSome_iff_exists.1 ((hb.known sid hid).resolve_right hover)
          obtain ⟨st, hst, -⟩ := (hi.links.reg sid q).1 hq
          have : c.regGet sid = none := haside
          simp [regGet, hq, hst] at this
        | _ => rfl
      | _ => exact ⟨rfl, rfl⟩
    rw [h0.1, h0.2]
  | born sid m hev hsome heap hf hn hr =>
    subst hev
    rw [heap, hf, hn, total_succ, total_update_of_le _ (Nat.le_refl _), Function.update_self]
    simp [dueIn, due, Act.pays, Act.gain, Act.events, size]
  | @step p st st' hp hst heap hf hn hr =>
    rw [heap, hf, hn]
    have htot := total_update (dueIn c.epoch) c.heap (hi.links.lt_next hp) (some st')
    have hdue := hst.dueIn (hi.moored p st hp) (ha.pends p st hp)
    rw [hp] at htot
    simp only [map_some, getD_some] at htot
    omega
  | @freed p st st' hp hst hd heap hf hn hr =>
    rw [heap, hf, hn]
    have htot := total_update (dueIn c.epoch) c.heap (hi.links.lt_next hp) none
    have hdue := (hst.resolve_right fun h => hreap h.1).dueIn (hi.moored p st hp) (ha.pends p st hp)
    rw [hp] at htot
    simp only [map_some, getD_some, map_none, getD_none] at htot
    simp only [map_append, map_cons, map_nil, sum_append, sum_cons, sum_nil]
    omega
  | hangUp ha' => exact absurd ha' hdown

theorem Outcome.clean (h : Outcome c a c') (hb : Books c s) (hep : c'.epoch = c.epoch)
    (hreap : a ≠ .reap) (hdown : a ≠ .hangUp) :
    ∀ x ∈ c'.freed, x.2.born = c'.epoch → x.2.consumePending = 0 := by
  rw [hep]
  cases h with
  | same _ _ hf | born _ _ _ _ _ hf | step _ _ _ hf =>
    rw [hf]
    exact hb.clean
  | freed hp hst hd _ hf =>
    have hst := hst.resolve_right fun h => hreap h.1
    intro x hx hborn
    rw [hf] at hx
    rcases mem_append.1 hx with hx | hx
    · exact hb.clean x hx hborn
    · rw [mem_singleton.1 hx] at hborn ⊢
      by_contra hk
      have := hst.spent (hb.spent _ _ hp (hst.born.symm.trans hborn)) hk
      simp [hd.2.2.1] at this
  | hangUp ha => exact absurd ha hdown

theorem Called.front (h : Called c a c') (hs : c.mux = some s) :
    ∀ ev, a = .event ev → s.front = some ev := by
  rintro ev rfl
  cases h with
  | none _ hev => exact absurd rfl (hev ev)
  | event hs' hf => exact some.inj (hs.symm.trans hs') ▸ hf

/-- A deed within a session keeps its books. -/
theorem Deed.books (h : Deed c a c') (hi : Sound c) (ha : Apart c) (hs : c.mux = some s)
    (hb : Books c s) (hup : a ≠ .up) (hlose : a ≠ .lose) (hdown : a ≠ .hangUp) (hreap : a ≠ .reap) :
    ∃ s', c'.mux = some s' ∧ Books c' s' := by
  have hcall := h.called hi.links hup hdown
  have hout := h.outcome hi.links
  have hep := hcall.epoch
  obtain ⟨s', hs', hq, hsyn⟩ := hcall.popped hi.links hs
  refine ⟨s', hs', hsyn.trans hb.quiet, ?_, ?_, ?_, hout.clean hb hep hreap hdown, ?_⟩
  · rw [hep]
    refine hout.each hb.heard (fun _ _ _ hst hborn => (hst hborn).append hq)
      (fun _ _ _ _ _ => ⟨by simp, by simp⟩)
      (fun _ _ _ _ hst hstep hborn => ?_) fun h => absurd h hdown
    exact hstep.heard hlose (hst (hstep.born.symm.trans hborn)) hq
  · refine hout.known hreap hdown hb.known hq fun {p st st'} hp hst hin hd => ?_
    have hcur := (hi.moored p st hp).reg.1 (hst.inReg.symm.trans hin)
    exact (hst.heard hlose (hb.heard p st hp hcur.1) hq).over (hst.sane (hi.sane p st hp)) hd
  · rw [hep]
    refine hout.each hb.spent (fun _ _ _ hst => hst) (fun _ _ _ _ _ h => absurd rfl h)
      (fun _ _ _ _ hst hstep hborn => ?_) fun h => absurd h hdown
    exact hstep.spent (hst (hstep.born.symm.trans hborn))
  · have hbal := hout.balance hi ha hb hs (hcall.front hs) hep hreap hdown
    rw [hq, deliveredBytes_append, hb.balance, hcall.paid]
    change _ + a.gain = _
    omega

/-! ### Sessions -/

/-- The books of the present session, if there is one, are kept. -/
structure Solvent (c : LpClient) : Prop where
  past : ∀ x ∈ c.freed, x.2.born ≤ c.epoch
  books : ∀ s, c.mux = some s → Books c s

theorem Outcome.past (h : Outcome c a c') (hm : Each (fun _ => Moored c) c.heap)
    (hep : c.epoch ≤ c'.epoch) (hpast : ∀ x ∈ c.freed, x.2.born ≤ c.epoch) :
    ∀ x ∈ c'.freed, x.2.born ≤ c'.epoch := by
  have hold : ∀ x ∈ c.freed, x.2.born ≤ c'.epoch := fun x hx => (hpast x hx).trans hep
  cases h with
  | same _ _ hf | born _ _ _ _ _ hf | step _ _ _ hf | hangUp _ _ hf =>
    rw [hf]
    exact hold
  | freed hp hst hd _ hf =>
    intro x hx
    rw [hf] at hx
    rcases mem_append.1 hx with hx | hx
    · exact hold x hx
    · rw [mem_singleton.1 hx]
      have hb := ((hm _ _ hp).born).trans hep
      rcases hst with hst | ⟨-, rfl⟩
      · rwa [← hst.born] at hb
      · exact hb

theorem Deed.past (h : Deed c a c') (hi : Sound c) (hpast : ∀ x ∈ c.freed, x.2.born ≤ c.epoch) :
    ∀ x ∈ c'.freed, x.2.born ≤ c'.epoch := by
  refine (h.outcome hi.links).past hi.moored ?_ hpast
  by_cases hup : a = .up
  · subst hup
    cases h
    exact Nat.le_succ _
  by_cases hdown : a = .hangUp
  · subst hdown
    cases h
    rw [hi.links.hangUp_eq]
  · exact (h.called hi.links hup hdown).epoch.ge

/-- A new session starts with empty books. -/
theorem books_up {cfg role} (hi : Sound c) (ha : Apart c)
    (hpast : ∀ x ∈ c.freed, x.2.born ≤ c.epoch) (hfd : c.fd = false)
    (hn : muxSessionNew cfg role = some s) :
    Books { c with mux := some s, fd := true, epoch := c.epoch + 1 } s := by
  obtain ⟨hserved, hpop⟩ := served_new hn
  have hsyn : synIds s.sent = [] := by rw [(muxSessionNew_spec hn).1, startCore_synIds]
  have hold : ∀ p st, c.heap p = some st → st.born ≠ c.epoch + 1 := fun p st hp => by
    have := (hi.moored p st hp).born
    omega
  have hgone : ∀ x ∈ c.freed, x.2.born ≠ c.epoch + 1 := fun x hx => by
    have := hpast x hx
    omega
  have hissued : c.issued = [] := by
    refine eq_nil_iff_forall_not_mem.2 fun x hx => ?_
    obtain ⟨-, s, -, hs, -⟩ := ha.own x hx
    have := hi.links.fd.symm.trans hfd
    simp [hs] at this
  refine ⟨hsyn, fun p st hp hb => absurd hb (hold p st hp), by simp [hpop, openedIds],
    fun p st hp hb => absurd hb (hold p st hp), fun x hx hb => absurd hb (hgone x hx), ?_⟩
  have hunpaid : total (dueIn (c.epoch + 1)) c.heap c.next = 0 := by
    refine Finset.sum_eq_zero fun p _ => ?_
    rcases hp : c.heap p with _ | st
    · rfl
    · simp [dueIn, hold p st hp]
  have hlost : (c.freed.map fun x => dueIn (c.epoch + 1) x.2).sum = 0 :=
    sum_eq_zero fun n hn => by
      obtain ⟨x, hx, rfl⟩ := mem_map.1 hn
      exact if_neg (hgone x hx)
  rw [paid, unpaid, lost, hissued, hunpaid, hlost, hpop]
  rfl

theorem sessionDown_mux (c : LpClient) : c.sessionDown.mux = none := by
  have hfree : ∀ (l : List ℕ) (c : LpClient), (l.foldl streamTryFree c).mux = c.mux := by
    intro l
    induction l with
    | nil => exact fun _ => rfl
    | cons p l ih => exact fun c => (ih _).trans (Kin.refl c).streamTryFree.mux
  exact hfree _ _

theorem Deed.solvent {m} (h : Deed c a c') (hof : a.Of m) (hm : m ≠ .down) (hi : Sound c)
    (ha : Apart c) (hb : Solvent c) : Solvent c' := by
  refine ⟨h.past hi hb.past, fun s' hs' => ?_⟩
  by_cases hup : a = .up
  · subst hup
    cases h with
    | up hfd hn => exact some.inj hs' ▸ books_up hi ha hb.past hfd hn
  have hne : a ≠ .lose ∧ a ≠ .hangUp ∧ a ≠ .reap := by
    refine ⟨?_, ?_, ?_⟩ <;> rintro rfl <;> exact hm hof
  have hsome : c.mux.isSome = true := by
    rw [← (h.called hi.links hup hne.2.1).isSome, hs']
    rfl
  obtain ⟨s, hs⟩ := isSome_iff_exists.1 hsome
  obtain ⟨s'', hs'', hbooks⟩ := h.books hi ha hs (hb.books s hs) hup hne.1 hne.2.1 hne.2.2
  exact some.inj (hs''.symm.trans hs') ▸ hbooks

/-- Every prompt move keeps the books. -/
theorem move_solvent (hi : Sound c) (ha : Apart c) (hb : Solvent c) {m} (hok : c.Prompt m) :
    Solvent (c.move hmac m) := by
  by_cases hm : m = .down
  · subst hm
    refine ⟨?_, fun s hs => ?_⟩
    · have := Reach.inv (I := fun c => Sound c ∧ ∀ x ∈ c.freed, x.2.born ≤ c.epoch) ⟨hi, hb.past⟩
        (fun _ _ _ h _ hd => ⟨hd.sound h.1, hd.past h.1 h.2⟩) (sessionDown_deeds hi.links)
      exact this.2
    · have := sessionDown_mux c
      simp [move, this] at hs
  by_cases hclose : ∃ p, m = .app (.close p)
  · obtain ⟨p, rfl⟩ := hclose
    simp only [move, app]
    rcases hh : c.handle p with _ | st
    · exact hb
    · exact (Deed.close hh).solvent rfl hm hi ha hb
  · have hnot : ∀ a : Act, a.Of m → ∀ p, a ≠ .app (.close p) := by
      rintro a hof p rfl
      exact hclose ⟨p, hof⟩
    have := Reach.inv (I := fun c => Sound c ∧ Apart c ∧ Solvent c) ⟨hi, ha, hb⟩
      (fun _ a _ h hof hd => ⟨hd.sound h.1,
        ⟨hd.pends h.1 (hnot a hof) h.2.1.pends, hd.own h.1 h.2.1⟩,
        hd.solvent hof hm h.1 h.2.1 h.2.2⟩) (move_deeds hmac hi.links m)
    exact this.2.2

theorem solvent_start (cfg) : Solvent (lpConnect cfg) :=
  ⟨fun x hx => by simp [lpConnect] at hx, fun s hs => by simp [lpConnect] at hs⟩

/-- The books are kept in every state that is reached. -/
theorem reach_solvent {cfg} (hr : Reach (ofFun (move hmac)) Prompt (lpConnect cfg) c) :
    Solvent c := by
  have := hr.inv (I := fun c => (Sound c ∧ Apart c) ∧ Solvent c)
    ⟨⟨sound_start cfg, apart_start cfg⟩, solvent_start cfg⟩ fun _ m _ h hok hs => by
      rw [hs]
      exact ⟨⟨move_sound h.1.1 m, move_apart h.1.1 h.1.2 hok⟩, move_solvent h.1.1 h.1.2 h.2 hok⟩
  exact this.2

/-- All bytes are accounted for unless a stream was freed with some of them unread. -/
theorem balance_iff {cfg} (hr : Reach (ofFun (move hmac)) Prompt (lpConnect cfg) c)
    (hs : c.mux = some s) : deliveredBytes s.popped = c.paid + c.unpaid
      ↔ ∀ x ∈ c.freed, x.2.born = c.epoch → x.2.rbuf = [] := by
  have hb := (reach_solvent hr).books s hs
  have hlost : c.lost = 0 ↔ ∀ x ∈ c.freed, x.2.born = c.epoch → x.2.rbuf = [] := by
    rw [lost, List.sum_eq_zero_iff_forall_eq_nat, List.forall_mem_map]
    refine forall₂_congr fun x hx => ?_
    rw [dueIn]
    by_cases hborn : x.2.born = c.epoch
    · simp [hborn, due, hb.clean x hx hborn]
    · simp [hborn]
  rw [← hlost, hb.balance]
  omega

/-! ### Streams read to the end -/

/-- The event brings no bytes for a stream that the application has closed. -/
def Timely (c : LpClient) : Event → Prop
  | .data sid _ => ∀ pr ∈ c.regGet sid, pr.2.appClosed = false
  | _ => True

instance Timely.decidable (c : LpClient) : ∀ ev, Decidable (c.Timely ev)
  | .data sid _ => inferInstanceAs (Decidable (∀ pr ∈ c.regGet sid, _))
  | .opened .. | .closed _ | .reset .. | .writable _ | .peerHello .. | .capacity _ | .goaway ..
  | .fatal _ => inferInstanceAs (Decidable True)

/-- A stream is closed in its session and when all that came is read, and nothing comes for it
afterwards. -/
def ReadsAll (c : LpClient) (m : Move) : Prop :=
  c.Prompt m ∧ match m with
    | .app (.close p) => ∀ st ∈ c.handle p, st.rbuf = []
    | .event => ∀ s ∈ c.mux, ∀ ev ∈ s.front, c.Timely ev
    | _ => True

instance ReadsAll.decidable (c : LpClient) : ∀ m, Decidable (c.ReadsAll m)
  | .app (.close p) => inferInstanceAs (Decidable (_ ∧ ∀ st ∈ c.handle p, _))
  | .event => inferInstanceAs (Decidable (_ ∧ ∀ s ∈ c.mux, _))
  | .app .accept | .app (.read ..) | .app (.readNb ..) | .app (.write ..) | .app (.writeNb ..)
  | .app .fileno | .app (.poll _) | .app .disconnect | .up _ | .work | .stash _ | .recv | .timer _
  | .advance _ | .down => inferInstanceAs (Decidable (_ ∧ True))

/-- No stream that the application has closed has bytes, nor had one that is freed. -/
structure AllRead (c : LpClient) : Prop where
  streams : Each (fun _ st => st.appClosed = true → st.rbuf = []) c.heap
  freed : ∀ x ∈ c.freed, x.2.rbuf = []

theorem StreamStep.allRead (h : StreamStep on a st st')
    (hs : st.appClosed = true → st.rbuf = []) (hclose : ∀ p, a ≠ .app (.close p))
    (hdata : ∀ b, a = .event (.data st.sid b) → st.appClosed = false)
    (hc : st'.appClosed = true) : st'.rbuf = [] := by
  cases h with
  | arrive _ b =>
    simp [LpStream.arrive, hdata b rfl] at hc
  | closed | reset | sated =>
    rw [news_appClosed] at hc
    rw [news_rbuf]
    exact hs hc
  | lose =>
    rw [news_appClosed] at hc
    rw [news_rbuf]
    split at hc
    · rw [if_pos ‹_›]
      exact hs hc
    · rw [if_neg ‹_›]
      exact hs hc
  | read n hno => simp [LpStream.read, LpStream.pend, hno] at hc
  | close => exact absurd rfl (hclose _)
  | _ => exact hs hc

theorem Outcome.allRead (h : Outcome c a c') (hr : AllRead c)
    (hstep : ∀ {p st st'}, c.heap p = some st → StreamStep c.pollMode a st st' →
      st'.appClosed = true → st'.rbuf = []) : AllRead c' := by
  refine ⟨h.each hr.streams (fun _ _ _ h => h) (fun _ _ _ _ h => by simp at h)
    (fun _ _ _ hp _ hs => hstep hp hs) fun _ _ _ _ h => h, ?_⟩
  cases h with
  | same _ _ hf | born _ _ _ _ _ hf | step _ _ _ hf | hangUp _ _ hf =>
    rw [hf]
    exact hr.freed
  | freed hp hst hd _ hf =>
    intro x hx
    rw [hf] at hx
    rcases mem_append.1 hx with hx | hx
    · exact hr.freed x hx
    · rw [mem_singleton.1 hx]
      rcases hst with hst | ⟨-, rfl⟩
      · exact hstep hp hst hd.2.1
      · exact hr.streams _ _ hp hd.2.1

theorem Deed.allRead (h : Deed c a c') (hi : Links c) (hr : AllRead c)
    (hclose : ∀ p, a ≠ .app (.close p)) (hdata : ∀ ev, a = .event ev → c.Timely ev) :
    AllRead c' := by
  refine (h.outcome hi).allRead hr fun {p st st'} hp hst hc => ?_
  refine hst.allRead (hr.streams p st hp) hclose (fun b hb => ?_) hc
  -- the stream that bytes come for is the one that the registry has
  have hin : st.inReg = true := by
    cases hst with
    | arrive hin | closed hin | reset hin | pend hin => exact hin
    | _ => cases hb
  have hreg : c.regGet st.sid = some (p, st) := by
    rw [regGet, (hi.reg st.sid p).2 ⟨st, hp, hin, rfl⟩, bind_some, hp]
    rfl
  exact hdata _ hb _ hreg

theorem close_allRead (hr : AllRead c) (hok : c.ReadsAll (.app (.close p))) :
    AllRead (c.app (.close p)) := by
  simp only [app]
  rcases hh : c.handle p with _ | st
  · exact hr
  · have hp := (handle_some hh).1
    have hfreed : (c.lpClose p).freed = c.freed := by rw [lpClose, modify_pendingPush_eq hp]
    have hheap : (c.lpClose p).heap = Function.update c.heap p
        (some ({ st with appClosed := true } : LpStream).pend) := modify_pendingPush_heap hp _
    rw [map_some, getD_some]
    refine ⟨?_, hfreed ▸ hr.freed⟩
    rw [hheap]
    exact hr.streams.set fun _ => hok.2 st hh

/-- An event that brings no bytes for a closed stream keeps it. -/
theorem event_allRead (hi : Links c) (hr : AllRead c) (hok : c.ReadsAll .event) :
    AllRead (c.nextEvent hmac) := by
  rcases nextEvent_cases hmac c with heq | ⟨s, ev, c₁, hs, hf, hd, hrest⟩
  · rw [heq]
    exact hr
  · have h1 : AllRead c₁ := hd.allRead hi hr (by simp) fun ev' he => by
      cases he
      exact hok.2 s hs ev hf
    have := hrest.inv (I := fun c => Links c ∧ AllRead c) ⟨hd.links hi, h1⟩
      (fun _ a _ h ha hd => ⟨hd.links h.1, hd.allRead h.1 h.2 (by simp [ha]) (by simp [ha])⟩)
    exact this.2

theorem move_allRead (hi : Links c) (hr : AllRead c) {m} (hok : c.ReadsAll m) :
    AllRead (c.move hmac m) := by
  by_cases hclose : ∃ p, m = .app (.close p)
  · obtain ⟨p, rfl⟩ := hclose
    exact close_allRead hr hok
  by_cases hev : m = .event
  · subst hev
    exact event_allRead hi hr hok
  have hnot : ∀ a : Act, a.Of m → (∀ p, a ≠ .app (.close p)) ∧ ∀ ev, a ≠ .event ev := by
    refine fun a hof => ⟨?_, ?_⟩
    · rintro p rfl
      exact hclose ⟨p, hof⟩
    · rintro ev rfl
      exact hev hof
  have := Reach.inv (I := fun c => Links c ∧ AllRead c) ⟨hi, hr⟩
    (fun _ a _ h hof hd => ⟨hd.links h.1,
      hd.allRead h.1 h.2 (hnot a hof).1 fun ev he => absurd he ((hnot a hof).2 ev)⟩)
    (move_deeds hmac hi m)
  exact this.2

/-- Every byte that the library was told of in the present session is paid for, or due for a stream
that it has, in every run in which streams are closed read to the end. -/
theorem reads_credited {cfg : LpConfig}
    (hr : Reach (ofFun (move hmac)) ReadsAll (lpConnect cfg) c) (hs : c.mux = some s) :
    deliveredBytes s.popped = c.paid + c.unpaid := by
  have hread := hr.inv (I := fun c => Links c ∧ AllRead c)
    ⟨links_start cfg, fun p st hp => by simp [lpConnect] at hp,
      fun x hx => by simp [lpConnect] at hx⟩
    fun _ m _ h hok hs => by
      rw [hs]
      exact ⟨(move_deeds hmac h.1 m).links h.1, move_allRead h.1 h.2 hok⟩
  exact (balance_iff (hr.mono fun _ _ h => h.1) hs).2 fun x hx _ => hread.2.freed x hx

/-- A byte comes, the application reads it, and both sides close. -/
def readOutRun : List Move :=
  plugIn ++ hears (synFrame 1 []) ++ [.app .accept] ++ hears (dataFrame 1 [7])
    ++ [.app (.read 0 1), .app (.close 0)] ++ hears (finFrame 1) ++ [.work]

theorem reads_credited_readOutRun :
    ∃ c s, c = readOutRun.foldl (move nullHmac) (lpConnect { listens := true })
      ∧ c.mux = some s ∧ c.freed.map Prod.fst = [0] ∧ c.paid = 1
      ∧ deliveredBytes s.popped = c.paid + c.unpaid := by
  have hr : Reach (ofFun (move nullHmac)) ReadsAll (lpConnect { listens := true })
      (readOutRun.foldl (move nullHmac) (lpConnect { listens := true })) :=
    .foldl _ (by decide +kernel)
  have hmux : (readOutRun.foldl (move nullHmac) (lpConnect { listens := true })).mux.isSome
    = true := by
    decide +kernel
  obtain ⟨s, hs⟩ := Option.isSome_iff_exists.1 hmux
  exact ⟨_, s, rfl, hs, by decide +kernel, by decide +kernel, reads_credited hr hs⟩

/-- A byte comes, and both sides close before it is read. -/
def unreadRun : List Move :=
  plugIn ++ hears (synFrame 1 []) ++ [.app .accept] ++ hears (dataFrame 1 [7])
    ++ [.app (.close 0)] ++ hears (finFrame 1) ++ [.work]

/-- The stream is freed, and the byte is never paid for. -/
theorem freed_unread_leaks :
    ∃ c s, Reach (ofFun (move nullHmac)) (fun _ _ => True) (lpConnect { listens := true }) c
      ∧ c.epoch = 1 ∧ c.mux = some s ∧ c.all = [] ∧ c.pending = []
      ∧ deliveredBytes s.popped = 1 ∧ c.paid + c.unpaid = 0 := by
  have hr : Reach (ofFun (move nullHmac)) (fun _ _ => True) (lpConnect { listens := true })
      (unreadRun.foldl (move nullHmac) (lpConnect { listens := true })) :=
    .foldl _ (by decide +kernel)
  have hmux : (unreadRun.foldl (move nullHmac) (lpConnect { listens := true })).mux.any
      fun s => deliveredBytes s.popped == 1 := by decide +kernel
  obtain ⟨s, hs, hb⟩ := (Option.any_eq_true _ _).1 hmux
  exact ⟨_, s, hr, by decide +kernel, hs, by decide +kernel, by decide +kernel, beq_iff_eq.1 hb,
    by decide +kernel⟩

end LpClient

end MuxProtocol
