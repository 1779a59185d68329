import MuxProtocol.Lib.Intrusive
import MuxProtocol.Libpeer
import MuxProtocol.Proofs.Served

/-!
# The streams of the client library

The lists, the registry, the flags of the streams and the streams allocated fit together.
-/

namespace MuxProtocol

open Intrusive LpStream List Option

/-! ### The session -/

theorem openedIds_mono {q q'} (h : q <+: q') : openedIds q ⊆ openedIds q' := by
  obtain ⟨l, rfl⟩ := h
  rw [openedIds_append]
  exact subset_append_left _ _

/-- A stream after `ready_mark`, which does something in poll mode only. -/
def LpStream.news (on : Bool) (bits : LpBits) (st : LpStream) : LpStream :=
  if on then st.mark bits else st

theorem LpStream.news_field {α : Type*} (φ : LpStream → α)
    (h : ∀ st e r, φ { st with evPending := e, inReady := r } = φ st) (on : Bool) (bits : LpBits)
    (st : LpStream) : φ (st.news on bits) = φ st := by
  unfold news
  split
  · exact h st _ _
  · rfl

section News

variable (on : Bool) (bits : LpBits) (st : LpStream)

@[simp] theorem LpStream.news_protoDone : (st.news on bits).protoDone = st.protoDone :=
  news_field protoDone (fun _ _ _ => rfl) on bits st

@[simp] theorem LpStream.news_born : (st.news on bits).born = st.born :=
  news_field born (fun _ _ _ => rfl) on bits st

@[simp] theorem LpStream.news_sid : (st.news on bits).sid = st.sid :=
  news_field sid (fun _ _ _ => rfl) on bits st

@[simp] theorem LpStream.news_inReg : (st.news on bits).inReg = st.inReg :=
  news_field inReg (fun _ _ _ => rfl) on bits st

@[simp] theorem LpStream.news_inPending : (st.news on bits).inPending = st.inPending :=
  news_field inPending (fun _ _ _ => rfl) on bits st

@[simp] theorem LpStream.news_wbuf : (st.news on bits).wbuf = st.wbuf :=
  news_field wbuf (fun _ _ _ => rfl) on bits st

@[simp] theorem LpStream.news_wantWritable : (st.news on bits).wantWritable = st.wantWritable :=
  news_field wantWritable (fun _ _ _ => rfl) on bits st

@[simp] theorem LpStream.news_rbuf : (st.news on bits).rbuf = st.rbuf :=
  news_field rbuf (fun _ _ _ => rfl) on bits st

@[simp] theorem LpStream.news_consumePending :
    (st.news on bits).consumePending = st.consumePending :=
  news_field consumePending (fun _ _ _ => rfl) on bits st

@[simp] theorem LpStream.news_appClosed : (st.news on bits).appClosed = st.appClosed :=
  news_field appClosed (fun _ _ _ => rfl) on bits st

@[simp] theorem LpStream.news_reset : (st.news on bits).reset = st.reset :=
  news_field reset (fun _ _ _ => rfl) on bits st

@[simp] theorem LpStream.news_told : (st.news on bits).told = st.told :=
  news_field told (fun _ _ _ => rfl) on bits st

@[simp] theorem LpStream.news_handed : (st.news on bits).handed = st.handed :=
  news_field handed (fun _ _ _ => rfl) on bits st

end News

namespace LpClient

variable {c c' : LpClient} {p q : ℕ} {st st' : LpStream} {sid : UInt32} {s : Session} {a : Call}
  {g : LpStream → LpStream} {bits : LpBits} {l : List ℕ}

/-! ### Changes of the state -/

section Changes

theorem call_eq (h : c.mux = some s) (a) : c.call a = { c with mux := some (s.call a) } := by
  rw [call, h, map_some]

theorem call_none (h : c.mux = none) (a) : c.call a = c := by
  rw [call, h, map_none, ← h]

theorem modify_eq (h : c.heap p = some st) (g) :
    c.modify p g = { c with heap := Function.update c.heap p (some (g st)) } := by
  rw [modify, h, map_some]

theorem modify_heap (h : c.heap p = some st) (g) : (c.modify p g).heap p = some (g st) := by
  rw [modify_eq h]
  exact Function.update_self ..

theorem notifyRaise_eq (c : LpClient) : c.notifyRaise =
    { c with
      notified := c.notified || c.pollMode
      notify := if c.pollMode = false ∨ c.notified then c.notify else c.notify + 1 } := by
  unfold notifyRaise
  by_cases h : c.pollMode = false ∨ c.notified = true
  · rw [if_pos h, if_pos h]
    have : (c.notified || c.pollMode) = c.notified := by
      rcases h with h | h <;> simp [h]
    rw [this]
  · rw [if_neg h, if_neg h]
    rw [not_or, Bool.not_eq_false] at h
    simp [h.1]

theorem readyMark_eq (h : c.heap p = some st) (bits) : c.readyMark p bits =
    { c with
      heap := Function.update c.heap p (some (st.news c.pollMode bits))
      ready := if c.pollMode && !st.inReady then p :: c.ready else c.ready
      notified := c.notified || c.pollMode
      notify := if c.pollMode = false ∨ c.notified then c.notify else c.notify + 1 } := by
  unfold readyMark
  by_cases hm : c.pollMode = false
  · have h1 : (c.notified || c.pollMode) = c.notified := by simp [hm]
    have h2 : (if c.pollMode && !st.inReady then p :: c.ready else c.ready)
      = c.ready := by simp [hm]
    have h3 : st.news c.pollMode bits = st := by simp [news, hm]
    rw [if_pos hm, h1, h2, h3, if_pos (.inl hm), ← h, Function.update_eq_self]
  · rw [if_neg hm, @modify_eq _ _ st (by exact h) _, notifyRaise_eq, h, any_some]
    rw [Bool.not_eq_false] at hm
    cases st.inReady <;> simp [hm, news]

theorem pendingPush_eq (h : c.heap p = some st) : c.pendingPush p =
    { c with
      heap := Function.update c.heap p (some st.pend)
      pending := if st.inPending then c.pending else p :: c.pending } := by
  unfold pendingPush
  rw [h, any_some]
  by_cases hin : st.inPending = true
  · have : st.pend = st := by rw [pend, ← hin]
    rw [if_pos hin, if_pos hin, this, ← h, Function.update_eq_self]
  · rw [if_neg hin, if_neg hin, @modify_eq _ _ st (by exact h) _]

theorem modify_readyMark_eq (h : c.heap p = some st) (g bits) : (c.modify p g).readyMark p bits =
      { c with
        heap := Function.update c.heap p (some ((g st).news c.pollMode bits))
        ready := if c.pollMode && !(g st).inReady then p :: c.ready else c.ready
        notified := c.notified || c.pollMode
        notify := if c.pollMode = false ∨ c.notified then c.notify else c.notify + 1 } := by
  rw [readyMark_eq (modify_heap h g), modify_eq h]
  dsimp only
  rw [Function.update_idem]

theorem modify_readyMark_heap (h : c.heap p = some st) (g bits) :
    ((c.modify p g).readyMark p bits).heap
      = Function.update c.heap p (some ((g st).news c.pollMode bits)) := by
  rw [modify_readyMark_eq h]

theorem modify_pendingPush_eq (h : c.heap p = some st) (g) : (c.modify p g).pendingPush p =
      { c with
        heap := Function.update c.heap p (some (g st).pend)
        pending := if (g st).inPending then c.pending else p :: c.pending } := by
  rw [pendingPush_eq (modify_heap h g), modify_eq h]
  dsimp only
  rw [Function.update_idem]

theorem modify_pendingPush_heap (h : c.heap p = some st) (g) : ((c.modify p g).pendingPush p).heap
      = Function.update c.heap p (some (g st).pend) := by
  rw [modify_pendingPush_eq h]

theorem streamTryFree_eq (h : c.heap p = some st) (hd : st.protoDone = true)
    (hc : st.appClosed = true) (hp : st.inPending = false) (hr : st.inReady = false) :
    c.streamTryFree p =
      { c with
        reg := if st.inReg then c.reg.erase st.sid else c.reg
        all := c.all.erase p
        heap := Function.update c.heap p none
        freed := c.freed ++ [(p, st)] } := by
  rw [streamTryFree, h]
  dsimp only
  rw [if_neg (by simp [hd, hc]), if_neg (by simp [hp, hr])]

theorem streamTryFree_keep (h : ∀ st, c.heap p = some st → st.protoDone = true →
    st.appClosed = true → st.inPending = true ∨ st.inReady = true) : c.streamTryFree p = c := by
  unfold streamTryFree
  split
  · rfl
  · rename_i st hp
    by_cases hd : st.protoDone = true ∧ st.appClosed = true
    · rw [if_neg (not_not.2 hd), if_pos (h st hp hd.1 hd.2)]
    · rw [if_pos hd]

theorem streamTryFree_cases (c : LpClient) (p : ℕ) : c.streamTryFree p = c
    ∨ ∃ st, c.heap p = some st ∧ st.protoDone = true ∧ st.appClosed = true
      ∧ st.inPending = false ∧ st.inReady = false := by
  by_cases h : ∃ st, c.heap p = some st ∧ st.protoDone = true ∧ st.appClosed = true
      ∧ st.inPending = false ∧ st.inReady = false
  · exact .inr h
  · refine .inl (streamTryFree_keep fun st hp hd hc => ?_)
    by_contra hno
    rw [not_or, Bool.not_eq_true, Bool.not_eq_true] at hno
    exact h ⟨st, hp, hd, hc, hno⟩

theorem regGet_some (h : c.regGet sid = some (p, st)) :
    c.reg.lookup sid = some p ∧ c.heap p = some st := by
  unfold regGet at h
  obtain ⟨q, hq, h⟩ := bind_eq_some_iff.1 h
  obtain ⟨st', hst, h⟩ := map_eq_some_iff.1 h
  cases h
  exact ⟨hq, hst⟩

theorem onOpened_eq (h : c.reg.lookup sid = none) (m) : c.onOpened sid m =
    { c with
      heap := Function.update c.heap c.next
        (some { sid := sid, metadata := m, born := c.epoch, inReg := true })
      all := c.next :: c.all
      next := c.next + 1
      reg := c.reg.insert sid c.next
      accept := c.accept ++ [c.next]
      notified := c.notified || c.pollMode
      notify := if c.pollMode = false ∨ c.notified then c.notify else c.notify + 1 } := by
  unfold onOpened
  have hreg : (c.streamNew sid m).reg.lookup sid = none := h
  dsimp only
  rw [regPut, hreg]
  dsimp only
  rw [@modify_eq _ _ { sid := sid, metadata := m, born := c.epoch } (Function.update_self ..) _,
    notifyRaise_eq]
  simp only [streamNew, Function.update_idem]
  rfl

/-- What the lists have no part in. -/
structure Kin (c c' : LpClient) : Prop where
  mux : c'.mux = c.mux
  epoch : c'.epoch = c.epoch
  issued : c'.issued = c.issued
  fd : c'.fd = c.fd

namespace Kin

theorem refl (c) : Kin c c := ⟨rfl, rfl, rfl, rfl⟩

theorem trans {c''} (h : Kin c c') (h' : Kin c' c'') : Kin c c'' :=
  ⟨h'.mux.trans h.mux, h'.epoch.trans h.epoch, h'.issued.trans h.issued,
    h'.fd.trans h.fd⟩

theorem modify (h : Kin c c') : Kin c (c'.modify p g) := h.trans ⟨rfl, rfl, rfl, rfl⟩

theorem notifyRaise (h : Kin c c') : Kin c c'.notifyRaise := by
  rw [notifyRaise_eq]
  exact h.trans ⟨rfl, rfl, rfl, rfl⟩

theorem readyMark (h : Kin c c') : Kin c (c'.readyMark p bits) := by
  unfold LpClient.readyMark
  split
  · exact h
  · exact Kin.notifyRaise (h.trans ⟨rfl, rfl, rfl, rfl⟩)

theorem pendingPush (h : Kin c c') : Kin c (c'.pendingPush p) := by
  unfold LpClient.pendingPush
  split
  · exact h
  · exact h.trans ⟨rfl, rfl, rfl, rfl⟩

theorem streamTryFree (h : Kin c c') : Kin c (c'.streamTryFree p) := by
  unfold LpClient.streamTryFree
  split
  · exact h
  · split
    · exact h
    · split
      · exact h
      · exact h.trans ⟨rfl, rfl, rfl, rfl⟩

theorem onOpened (h : Kin c c') {m} : Kin c (c'.onOpened sid m) := by
  unfold LpClient.onOpened regPut
  dsimp only
  split
  · exact Kin.notifyRaise (h.trans ⟨rfl, rfl, rfl, rfl⟩)
  · exact Kin.notifyRaise (h.trans ⟨rfl, rfl, rfl, rfl⟩)

end Kin

theorem handle_some (h : c.handle p = some st) :
    c.heap p = some st ∧ st.handed = true ∧ st.appClosed = false := by
  simpa [handle, filter_eq_some_iff] using h

end Changes

/-! ### The lists -/

/-- The lists, the registry, the heap and the flags of the streams agree, and no stream is in use
once it is freed. -/
structure Links (c : LpClient) : Prop where
  accept : Threaded (fun st => st.handed = false) c.heap c.accept
  pending : Threaded (fun st => st.inPending = true) c.heap c.pending
  ready : Threaded (fun st => st.inReady = true) c.heap c.ready
  all : Threaded (fun _ => True) c.heap c.all
  reg : ∀ sid p, c.reg.lookup sid = some p
    ↔ ∃ st, c.heap p = some st ∧ st.inReg = true ∧ st.sid = sid
  handed : Each (fun _ st => st.appClosed = true → st.handed = true) c.heap
  fresh : ∀ p, c.next ≤ p → c.heap p = none
  freed : ∀ x ∈ c.freed, c.heap x.1 = none ∧ x.1 < c.next
    ∧ x.2.protoDone = true ∧ x.2.appClosed = true
  once : (c.freed.map Prod.fst).Nodup
  served : ∀ s, c.mux = some s → Served s
  ids : ∀ sid p, c.reg.lookup sid = some p → ∃ s, c.mux = some s ∧ sid ∈ openedIds s.popped
  fd : c.fd = c.mux.isSome

namespace Links

theorem lt_next (h : Links c) (hp : c.heap p = some st) : p < c.next := by
  by_contra hno
  simp [h.fresh p (by omega)] at hp

theorem of_regGet (h : Links c) (hr : c.regGet sid = some (p, st)) :
    st.inReg = true ∧ st.sid = sid := by
  obtain ⟨hl, hp⟩ := regGet_some hr
  obtain ⟨st', hp', hin⟩ := (h.reg sid p).1 hl
  exact some.inj (hp.symm.trans hp') ▸ hin

theorem unregistered (h : Links c) (hs : c.mux = some s) {m} (hf : s.front = some (.opened sid m)) :
    c.reg.lookup sid = none := by
  rcases hl : c.reg.lookup sid with _ | p
  · rfl
  · obtain ⟨s', hs', hm⟩ := h.ids sid p hl
    obtain rfl := some.inj (hs.symm.trans hs')
    exact absurd hm ((h.served s hs).front_fresh hf).1

theorem put (h : Links c) (st' : LpStream) (hp : c.heap p = some st) (hsid : st'.sid = st.sid)
    (hreg : st'.inReg = st.inReg) (hc : st'.appClosed = true → st'.handed = true) {acc pen rdy}
    (h1 : Threaded (fun st => st.handed = false) (Function.update c.heap p (some st')) acc)
    (h2 : Threaded (fun st => st.inPending = true) (Function.update c.heap p (some st')) pen)
    (h3 : Threaded (fun st => st.inReady = true) (Function.update c.heap p (some st')) rdy) :
    Links { c with
      heap := Function.update c.heap p (some st'), accept := acc, pending := pen,
      ready := rdy } := by
  have hlt := h.lt_next hp
  refine ⟨h1, h2, h3, h.all.set hp Iff.rfl, fun sid q => ?_, h.handed.set hc, fun q hq => ?_,
    fun x hx => ?_, h.once, h.served, h.ids, h.fd⟩
  · rw [h.reg sid q]
    by_cases hqp : q = p
    · subst hqp
      simp [hp, hsid, hreg]
    · simp [Function.update_of_ne hqp]
  · have hqp : q ≠ p := fun e => by
      dsimp only at hq
      omega
    exact (Function.update_of_ne hqp ..).trans (h.fresh q hq)
  · obtain ⟨h1, h2⟩ := h.freed x hx
    have hxp : x.1 ≠ p := fun e => by simp [e, hp] at h1
    exact ⟨(Function.update_of_ne hxp ..).trans h1, h2⟩

theorem set (h : Links c) (hp : c.heap p = some st) (hsid : st'.sid = st.sid)
    (hreg : st'.inReg = st.inReg) (hh : st'.handed = st.handed)
    (hc : st'.appClosed = true → st'.handed = true) (hpen : st'.inPending = st.inPending)
    (hrdy : st'.inReady = st.inReady) :
    Links { c with heap := Function.update c.heap p (some st') } :=
  h.put _ hp hsid hreg hc (h.accept.set hp (by rw [hh])) (h.pending.set hp (by rw [hpen]))
    (h.ready.set hp (by rw [hrdy]))

theorem congr (h : Links c) (h1 : c'.heap = c.heap) (h2 : c'.accept = c.accept)
    (h3 : c'.pending = c.pending) (h4 : c'.ready = c.ready) (h5 : c'.all = c.all)
    (h6 : c'.reg = c.reg) (h7 : c'.next = c.next) (h8 : c'.freed = c.freed)
    (h9 : c'.mux = c.mux) (h10 : c'.fd = c.fd) : Links c' := by
  refine ⟨?_, ?_, ?_, ?_, ?_, ?_, ?_, ?_, ?_, ?_, ?_, ?_⟩
  · rw [h1, h2]; exact h.accept
  · rw [h1, h3]; exact h.pending
  · rw [h1, h4]; exact h.ready
  · rw [h1, h5]; exact h.all
  · rw [h1, h6]; exact h.reg
  · rw [h1]; exact h.handed
  · rw [h1, h7]; exact h.fresh
  · rw [h1, h7, h8]; exact h.freed
  · rw [h8]; exact h.once
  · rw [h9]; exact h.served
  · rw [h6, h9]; exact h.ids
  · rw [h9, h10]; exact h.fd

theorem readyMark (h : Links c) (hp : c.heap p = some st) : Links (c.readyMark p bits) := by
  have hh := h.handed p st hp
  have hacc := h.accept.set hp
    (by simp : (st.news c.pollMode bits).handed = false ↔ st.handed = false)
  have hpen := h.pending.set hp
    (by simp : (st.news c.pollMode bits).inPending = true ↔ st.inPending = true)
  rw [readyMark_eq hp]
  refine (h.put _ hp (by simp) (by simp) (by simpa using hh) hacc hpen ?_).congr
    rfl rfl rfl rfl rfl rfl rfl rfl rfl rfl
  · rcases hm : c.pollMode
    · simpa [news] using h.ready.set hp Iff.rfl
    · rcases hin : st.inReady
      · exact h.ready.push (fun st₁ hst => by simp_all) rfl
      · exact h.ready.set hp (by simp [news, mark, hin])

theorem pendingPush (h : Links c) (hp : c.heap p = some st) : Links (c.pendingPush p) := by
  rw [pendingPush_eq hp]
  refine (h.put st.pend hp rfl rfl (h.handed p st hp)
    (h.accept.set hp Iff.rfl) ?_ (h.ready.set hp Iff.rfl)).congr
      rfl rfl rfl rfl rfl rfl rfl rfl rfl rfl
  rcases hin : st.inPending
  · exact h.pending.push (fun st₁ hst => by simp_all) rfl
  · exact h.pending.set hp (by simp [pend, hin])

theorem streamTryFree (h : Links c) (p : ℕ) : Links (c.streamTryFree p) := by
  rcases streamTryFree_cases c p with heq | ⟨st, hp, hd, hc, hpen, hrdy⟩
  · rwa [heq]
  have hlt := h.lt_next hp
  have hh := h.handed p st hp hc
  -- the registry without the stream
  have hreg : ∀ sid q, (if st.inReg then c.reg.erase st.sid else c.reg).lookup sid = some q
      ↔ c.reg.lookup sid = some q ∧ q ≠ p := by
    intro sid q
    by_cases hin : st.inReg = true
    · have hl := (h.reg st.sid p).2 ⟨st, hp, hin, rfl⟩
      rw [if_pos hin]
      by_cases hsid : sid = st.sid
      · subst hsid
        simp [hl, eq_comm]
      · rw [AList.lookup_erase_ne hsid]
        refine ⟨fun hq => ⟨hq, fun e => hsid ?_⟩, And.left⟩
        obtain ⟨st₁, h1, -, h2⟩ := (h.reg sid q).1 hq
        rw [e, hp, some_inj] at h1
        rw [← h2, h1]
    · rw [if_neg hin]
      refine ⟨fun hq => ⟨hq, fun e => hin ?_⟩, And.left⟩
      obtain ⟨st₁, h1, h2, -⟩ := (h.reg sid q).1 hq
      rw [e, hp, some_inj] at h1
      rw [h1, h2]
  rw [streamTryFree_eq hp hd hc hpen hrdy]
  refine ⟨h.accept.drop hp (by simp [hh]), h.pending.drop hp (by simp [hpen]),
    h.ready.drop hp (by simp [hrdy]), h.all.erase, fun sid q => ?_, h.handed.drop,
    fun q hq => ?_, fun x hx => ?_, ?_, h.served, fun sid q hq => ?_, h.fd⟩
  · rw [hreg sid q, h.reg sid q]
    by_cases hqp : q = p
    · subst hqp
      simp
    · simp [hqp]
  · have hqp : q ≠ p := fun e => by
      dsimp only at hq
      omega
    exact (Function.update_of_ne hqp ..).trans (h.fresh q hq)
  · rcases mem_append.1 hx with hx | hx
    · obtain ⟨h1, h2⟩ := h.freed x hx
      have hxp : x.1 ≠ p := fun e => by simp [e, hp] at h1
      exact ⟨(Function.update_of_ne hxp ..).trans h1, h2⟩
    · obtain rfl := mem_singleton.1 hx
      exact ⟨Function.update_self .., hlt, hd, hc⟩
  · rw [map_append, nodup_append]
    refine ⟨h.once, nodup_singleton _, ?_⟩
    rintro q hq _ hm rfl
    obtain ⟨x, hx, rfl⟩ := mem_map.1 hq
    have := (h.freed x hx).1
    rw [mem_singleton.1 hm] at this
    simp [hp] at this
  · exact h.ids sid q ((hreg sid q).1 hq).1

theorem call (h : Links c) (ha : ∀ m, a ≠ .open m) : Links (c.call a) := by
  rcases hs : c.mux with _ | s
  · rwa [call_none hs]
  · have hsv := h.served s hs
    rw [call_eq hs]
    refine ⟨h.accept, h.pending, h.ready, h.all, h.reg, h.handed, h.fresh, h.freed, h.once, ?_, ?_,
      h.fd.trans (by simp [hs])⟩
    · rintro _ ⟨⟩
      exact hsv.call a (Session.call_few hsv.wf hsv.few ha)
    · intro sid q hq
      obtain ⟨s', hs', hm⟩ := h.ids sid q hq
      obtain rfl := some.inj (hs.symm.trans hs')
      exact ⟨_, rfl, openedIds_mono (hsv.popped_call a) hm⟩

theorem issue (h : Links c) (ha : ∀ m, a ≠ .open m) : Links (c.issue st a) :=
  (h.call ha).congr rfl rfl rfl rfl rfl rfl rfl rfl rfl rfl

end Links

end LpClient

end MuxProtocol
