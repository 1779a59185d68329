import MuxProtocol.Proofs.LocalClose
import MuxProtocol.Proofs.RelayCredit

/-!
# Streams and sockets of the relay

Every stream of the tunnel that the relay knows has one connection, as long as no socket fails to be
read: a connection is destroyed when the stream is gone, or is reset with it.
-/

namespace MuxProtocol

open Machine Index List Option Function RelayConn Session Event

namespace Relay

variable {r r' : Relay} {i j : ℕ} {c c' : RelayConn} {a : Act} {t : Terms} {sid : UInt32}
  {s : Session} {e : Option Event}

/-! ### A connection and its stream -/

/-- What the session knows of the stream of a connection. -/
structure Tidy (s : Session) (c : RelayConn) : Prop where
  known : s.Knows c.sid
  gone : c.gone = false
  ended : c.finSent = c.sockEof
  fin : c.finSent = true → s.Closing c.sid
  unfinished : c.finSent = false → s.Unclosed c.sid
  told : c.streamFin = true → .closed c.sid ∈ s.popped

theorem Tidy.call (h : Tidy s c) (hs : Served s) {b} (hf : Few (s.call b).toCore)
    (hb : b ≠ .close c.sid) : Tidy (s.call b) c where
  known := hs.knows_call b h.known
  gone := h.gone
  ended := h.ended
  fin hfin := hs.closing_call b hf (hs.born_of_knows h.known) (h.fin hfin)
  unfinished hfin := (h.unfinished hfin).call hs.wf hb
  told hfin := (hs.popped_call b).subset (h.told hfin)

theorem Tidy.congr (h : Tidy s c) (hsid : c'.sid = c.sid) (hgone : c'.gone = c.gone)
    (hfin : c'.finSent = c.finSent) (heof : c'.sockEof = c.sockEof)
    (hstream : c'.streamFin = c.streamFin) : Tidy s c' := by
  refine ⟨?_, hgone.trans h.gone, by rw [hfin, heof, h.ended], ?_, ?_, ?_⟩
  · rw [hsid]
    exact h.known
  · rw [hsid, hfin]
    exact h.fin
  · rw [hsid, hfin]
    exact h.unfinished
  · rw [hsid, hstream]
    exact h.told

theorem Tidy.close (h : Tidy s c) (hs : Served s)
    (hd : (s.call (.close c.sid)).dead = false) (hc : c'.sid = c.sid ∧ c'.gone = c.gone
      ∧ c'.finSent = true ∧ c'.sockEof = true ∧ c'.streamFin = c.streamFin) :
    Tidy (s.call (.close c.sid)) c' := by
  obtain ⟨hsid, hgone, hfin, heof, hstream⟩ := hc
  refine ⟨?_, hgone.trans h.gone, hfin.trans heof.symm, fun _ => ?_, fun h => ?_, fun h' => ?_⟩
  · rw [hsid]
    exact hs.knows_call _ h.known
  · rw [hsid]
    exact (hs.close_closing c.sid).resolve_left (by simp [hd])
  · simp [hfin] at h
  · rw [hsid]
    exact (hs.popped_call _).subset (h.told (hstream.symm.trans h'))

/-! ### The map -/

/-- The map leads from every stream with a connection to the connection, and nowhere else. -/
structure Mapped (r : Relay) : Prop where
  index : Indexed (fun _ : Unit => RelayConn.sid) r.conns r.sidmapGet
  keys : (r.sidmap.map Prod.fst).Nodup

theorem ConnStep.sid_eq (h : ConnStep r i c a c') : c'.sid = c.sid := by
  cases h with
  | pass =>
    rw [eased]
    split <;> rfl
  | input =>
    split <;> rfl
  | _ => rfl

theorem Mapped.unique (h : Mapped r) {d : RelayConn} (hc : r.conns i = some c)
    (hd : r.conns j = some d) (he : c.sid = d.sid) : i = j :=
  h.index.unique hc hd (i := ()) (j := ()) he

theorem Mapped.owner (h : Mapped r) (hg : r.sidmapGet sid = some i) (hc : r.conns i = some c) :
    c.sid = sid := by
  obtain ⟨c', hc', -, he⟩ := h.index.owned sid i hg
  rw [hc, some_inj] at hc'
  exact hc' ▸ he

/-- A deed enters a new stream and removes an old one, and no other. -/
theorem Outcome.mapped (h : Outcome r a r') (hm : Mapped r)
    (hnew : ∀ sid, r.Opens a sid → r.sidmapGet sid = none) : Mapped r' := by
  have hget : r'.sidmapGet = fun sid => r'.sidmap.lookup sid := rfl
  cases h with
  | same hcn _ _ hmap =>
    refine ⟨?_, by rw [hmap]; exact hm.keys⟩
    rw [hget, hcn, hmap]
    exact hm.index
  | step hc hs hcn _ _ hmap =>
    refine ⟨?_, by rw [hmap]; exact hm.keys⟩
    rw [hget, hcn, hmap]
    exact hm.index.set hc fun _ => hs.sid_eq
  | @born i c _ hopen hroom hcn hmap =>
    have hnone := hnew c.sid hopen
    refine ⟨?_, by rw [hmap]; exact nodup_keys_concat hm.keys hnone⟩
    rw [hget, hcn, hmap]
    exact hm.index.insert hroom.slot (fun _ => hnone) (fun _ => lookup_concat_self hnone)
      fun k hk => lookup_concat_of_ne (Ne.symm (hk ()))
  | gone hc _ hcn _ _ hmap =>
    refine ⟨?_, by rw [hmap]; exact nodup_keys_eraseP hm.keys⟩
    rw [hget, hcn, hmap]
    exact hm.index.erase hc (fun _ => lookup_eraseP_self hm.keys)
      fun k hk => lookup_eraseP_of_ne (Ne.symm (hk ()))

/-! ### The invariant -/

structure Tended (r : Relay) : Prop where
  served : Served r.mux
  mapped : Mapped r
  tidy : ∀ i c, r.conns i = some c → Tidy r.mux c
  /-- The relay closes no stream that it does not know. -/
  strange : ∀ sid, ¬ r.mux.Knows sid → r.mux.Unclosed sid

/-- Every live stream that the relay knows has a connection. -/
def Whole (r : Relay) : Prop := ∀ sid, r.mux.Carries sid → ∃ i c, r.conns i = some c ∧ c.sid = sid

theorem Called.served (h : Called r a r') (hs : Served r.mux) (hf : Few r'.mux.toCore) :
    Served r'.mux := by
  cases h with
  | none hm => exact hm ▸ hs
  | issue _ b _ _ _ _ hm | call b _ _ _ _ hm => exact hm ▸ hs.call b (hm ▸ hf)
  | event _ _ _ _ hm | dial _ _ _ _ _ hm | accept _ _ _ _ _ hm => exact hm ▸ hs.call _ (hm ▸ hf)
  | refuse _ _ code _ _ hm =>
    have hs₁ := hs.call .nextEvent (call_few hs.wf hs.few (by simp))
    exact hm ▸ hs₁.call _ (hm ▸ hf)

theorem Called.carries (h : Called r a r') (hs : Served r.mux) (hf : Few r'.mux.toCore)
    (hd : r'.mux.dead = false) (hc : r'.mux.Carries sid) :
    r.mux.Carries sid ∨ ∃ i c, r'.conns i = some c ∧ c.sid = sid := by
  cases h with
  | none hm => exact .inl (hm ▸ hc)
  | issue _ b _ hb hret _ hm | call b hb hret _ _ hm =>
    rw [hm] at hc hf
    refine .inl ((hs.carries_call hb hf hc).resolve_right ?_)
    simp [hret]
  | event ev _ hfr hno hm =>
    rw [hm] at hc
    refine .inl ((Served.carries_front hfr hc).resolve_right ?_)
    simp [hno]
  | refuse id m code _ hfr hm =>
    have hs₁ := hs.call .nextEvent (call_few hs.wf hs.few (by simp))
    rw [hm] at hc hf hd
    have hc₁ := (hs₁.carries_call (by simp) hf hc).resolve_right (by simp [returned])
    refine .inl ((Served.carries_front hfr hc₁).resolve_right fun he => ?_)
    rw [openedId, some_inj] at he
    have := (hs₁.reset_gone id code).resolve_left (by simp [hd])
    exact this (he ▸ hc.1)
  | dial id m _ hfr hnew hm =>
    rw [hm] at hc
    refine (Served.carries_front hfr hc).imp_right fun he => ?_
    rw [openedId, some_inj] at he
    exact he ▸ hnew
  | accept id peer _ ho hnew hm =>
    rw [hm] at hc hf
    refine (hs.carries_call (by simp) hf hc).imp_right fun he => ?_
    have : sid = id := by simpa [returned, ho, Except.toOption] using he
    exact this ▸ hnew

theorem Called.tidy (h : Called r a r') (ht : Tended r) (hf : Few r'.mux.toCore)
    (hc : r.conns i = some c) (ha : ∀ b, a ≠ .issue i b) : Tidy r'.mux c := by
  have htidy := ht.tidy i c hc
  cases h with
  | none hm => exact hm ▸ htidy
  | @issue j d hj b hab _ _ hclose hm =>
    rw [hm] at hf ⊢
    refine htidy.call ht.served hf fun hb => ?_
    have := ht.mapped.unique hj hc (hclose _ hb).symm
    exact ha b (this ▸ hab)
  | call b _ _ hclose _ hm =>
    rw [hm] at hf ⊢
    exact htidy.call ht.served hf (hclose _)
  | event _ _ _ _ hm | dial _ _ _ _ _ hm | accept _ _ _ _ _ hm =>
    rw [hm] at hf ⊢
    exact htidy.call ht.served hf (by simp)
  | refuse _ _ code _ _ hm =>
    have hf₁ : Few (r.mux.call .nextEvent).toCore :=
      call_few ht.served.wf ht.served.few (by simp)
    rw [hm] at hf ⊢
    exact (htidy.call ht.served hf₁ (by simp)).call (ht.served.call _ hf₁) hf (by simp)

theorem Called.unclosed (h : Called r a r') (hs : Served r.mux) (hu : r.mux.Unclosed sid)
    (ha : ∀ i, a ≠ .issue i (.close sid)) : r'.mux.Unclosed sid := by
  cases h with
  | none hm => exact hm ▸ hu
  | @issue i c _ b hab _ _ _ hm => exact hm ▸ hu.call hs.wf fun hb => ha i (hb ▸ hab)
  | call b _ _ hclose _ hm => exact hm ▸ hu.call hs.wf (hclose sid)
  | event _ _ _ _ hm | dial _ _ _ _ _ hm | accept _ _ _ _ _ hm => exact hm ▸ hu.call hs.wf (by simp)
  | refuse _ _ code _ _ hm =>
    have hs₁ := hs.call .nextEvent (call_few hs.wf hs.few (by simp))
    exact hm ▸ (hu.call hs.wf (by simp)).call hs₁.wf (by simp)

theorem Called.knows (h : Called r a r') (hs : Served r.mux) (hk : r.mux.Knows sid) :
    r'.mux.Knows sid := by
  cases h with
  | none hm => exact hm ▸ hk
  | issue _ b _ _ _ _ hm | call b _ _ _ _ hm => exact hm ▸ hs.knows_call b hk
  | event _ _ _ _ hm | dial _ _ _ _ _ hm | accept _ _ _ _ _ hm => exact hm ▸ hs.knows_call _ hk
  | refuse _ _ code _ _ hm =>
    have hs₁ := hs.call .nextEvent (call_few hs.wf hs.few (by simp))
    exact hm ▸ hs₁.knows_call _ (hs.knows_call _ hk)

theorem Called.of_issue {b} (h : Called r (.issue i b) r') : r'.mux = r.mux.call b := by
  cases h with
  | none _ _ _ hact | call _ _ _ _ hact => exact absurd rfl (hact i b)
  | issue _ _ ha _ _ _ hm =>
    cases ha
    exact hm
  | event _ ha | refuse _ _ _ ha | dial _ _ ha | accept _ _ ha => cases ha

/-- A change of a connection keeps what the session knows of its stream. -/
theorem ConnStep.tidy (h : ConnStep r i c a c') (hcall : Called r a r') (ht : Tended r)
    (hc : r.conns i = some c) (hf : Few r'.mux.toCore) (hd : r'.mux.dead = false) :
    Tidy r'.mux c' := by
  have htidy := ht.tidy i c hc
  -- a call for the connection other than `mux_close`
  have hissue : ∀ {b : Call}, a = .issue i b → b ≠ .close c.sid → Tidy r'.mux c := by
    rintro b rfl hb
    have hm := hcall.of_issue
    rw [hm] at hf ⊢
    exact htidy.call ht.served hf hb
  cases h with
  | arrive b hg => exact (hcall.tidy ht hf hc (by simp)).congr rfl rfl rfl rfl rfl
  | @closed id hg =>
    have h' := hcall.tidy ht hf hc (by simp)
    refine ⟨h'.known, h'.gone, h'.ended, h'.fin, h'.unfinished, fun _ => ?_⟩
    rw [hcall.popped ht.served.waiting, show c.closed.sid = id from ht.mapped.owner (c := c) hg hc]
    exact mem_append_right _ (mem_singleton_self _)
  | drain => exact (hissue rfl (by simp)).congr rfl rfl rfl rfl rfl
  | pass =>
    have h' := hissue rfl (by simp)
    rw [eased]
    split
    · exact h'.congr rfl rfl rfl rfl rfl
    · exact h'.congr rfl rfl rfl rfl rfl
  | stick => exact (hissue rfl (by simp)).congr rfl rfl rfl rfl rfl
  | fin he =>
    have hm := hcall.of_issue
    rw [hm] at hd ⊢
    exact htidy.close ht.served hd ⟨rfl, rfl, rfl, he, rfl⟩
  | eof =>
    have hm := hcall.of_issue
    rw [hm] at hd ⊢
    exact htidy.close ht.served hd ⟨rfl, rfl, rfl, rfl, rfl⟩
  | shut | unblock | connected =>
    exact (hcall.tidy ht hf hc (by simp)).congr rfl rfl rfl rfl rfl
  | input =>
    have h' := hcall.tidy ht hf hc (by simp)
    split
    · exact h'.congr rfl rfl rfl rfl rfl
    · exact h'.congr rfl rfl rfl rfl rfl

theorem Deed.accept_mux {peer} (h : Deed r (.accept peer) r') (hi : Slots r) :
    r'.mux = r.mux.call (.open peer) := by
  cases h with
  | @accept sid =>
    obtain ⟨i, free, cap, w, -, heq⟩ := hi.accept sid peer
    rw [heq]
    rfl
  | busy => rfl

theorem Deed.fresh (h : Deed r a r') (hi : Slots r) (hs : Served r.mux) (hf : Few r'.mux.toCore)
    (ho : r.Opens a sid) : ¬ r.mux.Knows sid := by
  rcases ho with ⟨m, -, hfr⟩ | ⟨peer, rfl, ho⟩
  · exact hs.not_knows_front hfr
  · rw [h.accept_mux hi] at hf
    exact hs.not_knows_open hf ho

theorem Deed.known (h : Deed r a r') (hi : Slots r) (hs : Served r.mux) (ho : r.Opens a sid) :
    r'.mux.Knows sid := by
  rcases ho with ⟨m, rfl, hfr⟩ | ⟨peer, rfl, ho⟩
  · refine .inr ?_
    rw [(h.called hi).popped hs.waiting, openedIds_append]
    exact mem_append_right _ (by simp [Act.events, openedIds, openedId])
  · refine .inl ?_
    rw [h.accept_mux hi, call_synIds hs.wf]
    exact mem_append_right _ (by simp [returned, ho, Except.toOption])

theorem setConn_ne_none (hc : r.conns i = some c) : (r.setConn j c').conns i ≠ none := by
  by_cases h : i = j
  · subst h
    rw [setConn_conns]
    simp
  · simp only [setConn]
    rw [update_of_ne h, hc]
    simp

theorem released_self {n : ℕ} {p} (hc : r.conns i = some c)
    (hn : (r.released j c' n p).conns i = none) : i = j := by
  by_contra h
  simp only [released] at hn
  rw [update_of_ne h, hc] at hn
  cases hn

/-- A connection goes only when its stream is over. -/
theorem Deed.over (h : Deed r a r') (hi : Slots r) (ht : Tended r) (ha : Fit t e r a)
    (hended : t.ended = true) (hwhole : t.whole = true) (hd : r'.mux.dead = false)
    (hc : r.conns i = some c) (hn : r'.conns i = none) : ¬ r'.mux.Live c.sid := by
  have hs := ht.served
  have hnext := hs.call .nextEvent (call_few hs.wf hs.few (by simp))
  have htidy := ht.tidy i c hc
  cases h with
  | call | note | stash | pause | skip | stray | refuse | busy =>
    exact absurd (hc.symm.trans hn) (by simp)
  | data | closed | drain | shut | pass | stick | unblock | fin | connected | eof | input =>
    exact absurd hn (setConn_ne_none (r := r) hc)
  | @dial sid =>
    obtain ⟨j, free, cap, w, -, heq⟩ := hi.dial sid
    rw [heq] at hn
    exact absurd hn (setConn_ne_none (r := r) hc)
  | @accept sid peer =>
    obtain ⟨j, free, cap, w, -, heq⟩ := hi.accept sid peer
    rw [heq] at hn
    exact absurd hn (setConn_ne_none (r := r) hc)
  | @reset sid code j d hfr hg hj =>
    obtain ⟨n, p, heq⟩ := giveUp_eq (r := r.call .nextEvent) hj
    rw [heq] at hn ⊢
    obtain rfl := released_self (r := r.call .nextEvent) hc hn
    rw [ht.mapped.owner hg hc]
    refine hnext.not_live_of_reset (hnext.popped_mem (?_ : Event.reset sid code ∈ _))
    rw [hs.popped_front hfr]
    exact mem_append_right _ (mem_singleton_self _)
  | @broken j d p e hj hp hw =>
    obtain ⟨n, q, heq⟩ := giveUp_eq (r := r.call (.write d.sid p)) hj
    rw [heq] at hn hd ⊢
    obtain rfl := released_self (r := r.call (.write d.sid p)) hc hn
    obtain rfl := some.inj (hc.symm.trans hj)
    obtain ⟨hsame, hwhy⟩ := muxWrite_error hw
    have hsame' : (r.call (.write c.sid p)).mux = r.mux := hsame
    change (r.call (.write c.sid p)).mux.dead = false at hd
    change ¬ (r.call (.write c.sid p)).mux.Live c.sid
    rw [hsame'] at hd ⊢
    rcases hwhy with hdead | hnone | ⟨k, st, hfind, hlife⟩
    · simp [hdead] at hd
    · simp [Session.Live, hnone]
    · -- our side is open, as the socket has not ended
      obtain ⟨hget, hsid⟩ := stFind_some hs.wf.tab hfind
      have hopen := htidy.unfinished (htidy.ended.trans ((ha c hc).1 hended))
      exact absurd hlife (hopen k st hget hsid)
  | fail => exact absurd hwhole ha.1
  | @done j d hj hf =>
    obtain ⟨n, p, heq⟩ := connDestroy_eq hj
    rw [heq] at hn ⊢
    obtain rfl := released_self hc hn
    obtain rfl := some.inj (hc.symm.trans hj)
    rw [htidy.gone, Bool.false_or, finished_iff] at hf
    exact hs.not_live_of_closed (hs.popped_mem (htidy.told hf.2.1))
      (htidy.fin (htidy.ended.trans hf.1))
  | @kill j d hj =>
    obtain ⟨n, p, heq⟩ := giveUp_eq (r := r.call (.reset d.sid muxCodeInternal)) hj
    rw [heq] at hn hd ⊢
    obtain rfl := released_self (r := r.call (.reset d.sid muxCodeInternal)) hc hn
    obtain rfl := some.inj (hc.symm.trans hj)
    exact (hs.reset_gone c.sid muxCodeInternal).resolve_left fun h =>
      absurd (h.symm.trans hd) (by simp)

theorem Outcome.conns_of (h : Outcome r a r') (hc : r.conns i = some c) :
    r'.conns i = none ∨ ∃ c', r'.conns i = some c' ∧ c'.sid = c.sid := by
  cases h with
  | same hcn => exact .inr ⟨c, by rw [hcn, hc], rfl⟩
  | @step j d d' hd hs hcn =>
    by_cases h : i = j
    · subst h
      obtain rfl := some.inj (hc.symm.trans hd)
      exact .inr ⟨d', by rw [hcn, update_self], hs.sid_eq⟩
    · exact .inr ⟨c, by rw [hcn, update_of_ne h, hc], rfl⟩
  | @born j d _ _ hroom hcn =>
    have h : i ≠ j := fun h => by
      have := hroom.slot
      simp [← h, hc] at this
    exact .inr ⟨c, by rw [hcn, update_of_ne h, hc], rfl⟩
  | @gone j d d' hd _ hcn =>
    by_cases h : i = j
    · exact .inl (by rw [hcn, h, update_self])
    · exact .inr ⟨c, by rw [hcn, update_of_ne h, hc], rfl⟩

/-- A deed is not about the connection `c` of slot `i`. -/
structure Apart (a : Act) (i : ℕ) (c : RelayConn) : Prop where
  issue : ∀ b, a ≠ .issue i b
  data : ∀ b, a ≠ .event (.data c.sid b)

/-- The connections after a deed: those that it is not about, the one that it is about, and one that
is new. -/
theorem Deed.conns (h : Deed r a r') (hi : Slots r) (hm : Mapped r) {P : RelayConn → Prop}
    (hold : ∀ j d, r.conns j = some d → Apart a j d → P d)
    (hstep : ∀ i c c', r.conns i = some c → ConnStep r i c a c' → P c')
    (hborn : ∀ sid connecting, r.Opens a sid → (∀ i b, a ≠ .issue i b) →
      P { sid, connecting }) : ∀ j d, r'.conns j = some d → P d := by
  intro j d hj
  cases h.outcome hi with
  | same hcn _ _ _ _ _ hact hdata =>
    rw [hcn] at hj
    refine hold j d hj ⟨hact j, fun b hb => ?_⟩
    have := hdata _ b hb
    rw [connOf, hm.index.reach j d hj ()] at this
    exact absurd (hj.symm.trans this) (by simp)
  | @step i c c' hc hs hcn =>
    rw [hcn] at hj
    by_cases hji : j = i
    · subst hji
      rw [update_self, some_inj] at hj
      exact hj ▸ hstep j c c' hc hs
    · rw [update_of_ne hji] at hj
      refine hold j d hj ⟨fun b hb => hji ?_, fun b hb => hji ?_⟩
      · subst hb
        cases hs <;> rfl
      · subst hb
        cases hs with
        | arrive _ hg => exact some.inj ((hm.index.reach j d hj ()).symm.trans hg)
  | @born i c hnew hopen _ hcn _ _ _ _ hact hdata =>
    rw [hcn] at hj
    by_cases hji : j = i
    · subst hji
      rw [update_self, some_inj] at hj
      rw [← hj, hnew]
      exact hborn c.sid c.connecting hopen hact
    · rw [update_of_ne hji] at hj
      exact hold j d hj ⟨hact j, hdata _⟩
  | @gone i c c' hc _ hcn _ _ _ _ _ _ hact hdata =>
    rw [hcn] at hj
    by_cases hji : j = i
    · simp [hji] at hj
    · rw [update_of_ne hji] at hj
      exact hold j d hj ⟨hact j, hdata _⟩

theorem Deed.tidy (h : Deed r a r') (hi : Slots r) (ht : Tended r) (hf : Few r'.mux.toCore)
    (hd : r'.mux.dead = false) : ∀ j d, r'.conns j = some d → Tidy r'.mux d := by
  have hcall := h.called hi
  refine h.conns hi ht.mapped (fun j d hj hap => hcall.tidy ht hf hj hap.issue)
    (fun i c c' hc hs => hs.tidy hcall ht hc hf hd) fun sid _ hopen hact => ?_
  have hu := ht.strange sid (h.fresh hi ht.served hf hopen)
  exact ⟨h.known hi ht.served hopen, rfl, rfl, fun h => by simp at h,
    fun _ => hcall.unclosed ht.served hu fun i => hact i _, fun h => by simp at h⟩

theorem Deed.tended (h : Deed r a r') (hi : Slots r) (ht : Tended r) (hf : Few r'.mux.toCore)
    (hd : r'.mux.dead = false) : Tended r' := by
  have hcall := h.called hi
  refine ⟨hcall.served ht.served hf, (h.outcome hi).mapped ht.mapped fun sid ho => ?_,
    h.tidy hi ht hf hd, fun sid hk => ?_⟩
  · rcases hg : r.sidmapGet sid with _ | i
    · rfl
    · obtain ⟨c, hc, -, hsid⟩ := ht.mapped.index.owned sid i hg
      exact absurd (hsid ▸ (ht.tidy i c hc).known) (h.fresh hi ht.served hf ho)
  · have hk' : ¬ r.mux.Knows sid := fun h => hk (hcall.knows ht.served h)
    refine hcall.unclosed ht.served (ht.strange sid hk') fun i hab => ?_
    subst hab
    cases hcall with
    | none _ _ _ hact | call _ _ _ _ hact => exact absurd rfl (hact i _)
    | @issue j c hc b hab _ _ hclose =>
      cases hab
      exact hk' (hclose sid rfl ▸ (ht.tidy _ c hc).known)
    | event _ ha | refuse _ _ _ ha | dial _ _ ha | accept _ _ ha => cases ha

/-- No deed leaves a live stream without a connection. -/
theorem Deed.whole (h : Deed r a r') (hi : Slots r) (ht : Tended r) (hw : Whole r)
    (ha : Fit t e r a) (hended : t.ended = true) (hwhole : t.whole = true)
    (hf : Few r'.mux.toCore) (hd : r'.mux.dead = false) : Whole r' := by
  intro sid hc
  rcases (h.called hi).carries ht.served hf hd hc with hold | hnew
  · obtain ⟨i, c, hi', rfl⟩ := hw sid hold
    rcases (h.outcome hi).conns_of hi' with hn | ⟨c', hc', hsid⟩
    · exact absurd hc.1 (h.over hi ht ha hended hwhole hd hi' hn)
    · exact ⟨i, c', hc', hsid⟩
  · exact hnew

/-! ### Runs -/

theorem Called.before (h : Called r a r') (hw : r.mux.toCore.Wf) : r'.mux.toCore.Wf
    ∧ (Few r'.mux.toCore → Few r.mux.toCore) ∧ (r'.mux.dead = false → r.mux.dead = false) :=
  h.inv (I := fun s => s.toCore.Wf ∧ (Few s.toCore → Few r.mux.toCore)
      ∧ (s.dead = false → r.mux.dead = false)) ⟨hw, id, id⟩ fun s b hs => by
    have hsteps := call_steps hs.1 (permits_any s b)
    exact ⟨Steps.wf hsteps hs.1, fun hf => hs.2.1 (Steps.few hsteps hf),
      fun hd => hs.2.2 (call_alive hs.1 hd)⟩

theorem tended_new {hmac opt} {nonce : Nonce}
    (h : relayNew hmac opt nonce = some r) : Tended r ∧ Whole r := by
  obtain ⟨s, hs, rfl⟩ := map_eq_some_iff.1 h
  obtain ⟨hserved, hpop⟩ := served_new hs
  have hlive := not_live_new hs
  refine ⟨⟨hserved, ⟨⟨by simp, by simp [sidmapGet]⟩, nodup_nil⟩, by simp, fun sid _ => ?_⟩,
    fun sid hc => absurd hc.1 (hlive sid)⟩
  intro i st hg
  obtain ⟨-, hnone⟩ := startCore_tab (buildCfg hmac opt nonce) opt.role
  rw [(muxSessionNew_spec hs).1, hnone] at hg
  cases hg

theorem Called.served_acceptor (h : Called r a r') (hs : Served r.mux)
    (hr : r.opt.publicListen = true → r.mux.role = .acceptor) : Served r'.mux := by
  have hquiet : ∀ {s : Session} {b}, Served s → s.returned b = [] → Served (s.call b) :=
    fun {s b} hs hret => hs.call b <| by
      rw [Few, call_synIds hs.wf, hret, append_nil]
      exact hs.few
  cases h with
  | none hm => exact hm ▸ hs
  | issue _ b _ _ hret _ hm | call b _ hret _ _ hm => exact hm ▸ hquiet hs hret
  | event _ _ _ _ hm | dial _ _ _ _ _ hm => exact hm ▸ hquiet hs rfl
  | refuse _ _ code _ _ hm => exact hm ▸ hquiet (hquiet hs rfl) rfl
  | accept _ _ _ _ _ hm _ hl => exact hm ▸ hs.call_acceptor (hr hl) _

theorem Deed.opt_eq (h : Deed r a r') (hi : Slots r) : r'.opt = r.opt := by
  cases h with
  | reset _ _ hc | broken hc | kill hc =>
    obtain ⟨n, p, heq⟩ := giveUp_eq (r := r.call _) hc
    rw [heq]
    rfl
  | fail hc =>
    obtain ⟨n, p, heq⟩ := giveUp_eq hc
    rw [heq]
    rfl
  | done hc =>
    obtain ⟨n, p, heq⟩ := connDestroy_eq hc
    rw [heq]
    rfl
  | @dial sid =>
    obtain ⟨i, free, cap, w, -, heq⟩ := hi.dial sid
    rw [heq]
    rfl
  | @accept sid peer =>
    obtain ⟨i, free, cap, w, -, heq⟩ := hi.accept sid peer
    rw [heq]
    rfl
  | _ => rfl

/-- A relay that opens streams only as an acceptor takes no id twice. -/
structure Sparse (opt : RelayOpts) (r : Relay) : Prop where
  slots : Slots r
  same : r.opt = opt
  role : r.mux.role = opt.role
  served : Served r.mux

theorem Deed.sparse {opt} (h : Deed r a r') (hi : Sparse opt r)
    (hopt : opt.publicListen = true → opt.role = .acceptor) : Sparse opt r' := by
  have hcall := h.called hi.slots
  refine ⟨(h.outcome hi.slots).slots hi.slots, (h.opt_eq hi.slots).trans hi.same, ?_, ?_⟩
  · exact (hcall.inv (I := fun s => s.toCore.Wf ∧ s.role = opt.role) ⟨hi.served.wf, hi.role⟩
      fun s b hs => ⟨Steps.wf (call_steps hs.1 (permits_any s b)) hs.1,
        (call_role hs.1).trans hs.2⟩).2
  · refine hcall.served_acceptor hi.served fun hl => ?_
    rw [hi.role, hopt (hi.same ▸ hl)]

theorem Runs.few {hmac opt} (h : Runs hmac opt t r)
    (hopt : opt.publicListen = true → opt.role = .acceptor) : Few r.mux.toCore := by
  have hi : Sparse opt r := h.inv (fun nonce r₀ hnew => ?_) fun _ _ _ _ hi _ hd => hd.sparse hi hopt
  · exact hi.served.few
  · have hserved := (tended_new hnew).1.served
    have hslots := (accounts_new hnew).1.slots
    obtain ⟨s, hs, rfl⟩ := map_eq_some_iff.1 hnew
    refine ⟨hslots, rfl, ?_, hserved⟩
    change s.role = opt.role
    rw [(muxSessionNew_spec hs).1, startCore_role]

/-- What holds while the session is not dead and has opened fewer than `2 ^ 31` streams. -/
structure Kept (I : Relay → Prop) (r : Relay) : Prop where
  slots : Slots r
  wf : r.mux.toCore.Wf
  inv : Few r.mux.toCore → r.mux.dead = false → Tended r ∧ I r

theorem Kept.deed {I J : Relay → Prop} (hk : Kept I r) (h : Deed r a r')
    (hs : Slots r → Tended r → I r → Few r'.mux.toCore → r'.mux.dead = false → J r') :
    Kept J r' := by
  obtain ⟨hw, hfew, halive⟩ := (h.called hk.slots).before hk.wf
  refine ⟨(h.outcome hk.slots).slots hk.slots, hw, fun hf hd => ?_⟩
  obtain ⟨ht, hI⟩ := hk.inv (hfew hf) (halive hd)
  exact ⟨h.tended hk.slots ht hf hd, hs hk.slots ht hI hf hd⟩

theorem Kept.imp {I J : Relay → Prop} (hk : Kept I r) (h : I r → J r) : Kept J r :=
  ⟨hk.slots, hk.wf, fun hf hd => (hk.inv hf hd).imp_right h⟩

theorem Kept.deeds {I : Relay → Prop} (hk : Kept I r) (h : Deeds t e r r')
    (hs : ∀ r a r', Fit t e r a → Deed r a r' → Slots r → Tended r → I r →
      Few r'.mux.toCore → r'.mux.dead = false → I r') : Kept I r' :=
  Reach.inv hk (fun r a r' hk ha hd => hk.deed hd (hs r a r' ha hd)) h

theorem Kept.before {I : Relay → Prop} (hk : Kept I r) (h : Deeds t e r r')
    (hf : Few r'.mux.toCore) (hd : r'.mux.dead = false) : Tended r ∧ I r :=
  have hconst : Kept (fun _ => Tended r ∧ I r) r :=
    ⟨hk.slots, hk.wf, fun hf hd => ⟨(hk.inv hf hd).1, hk.inv hf hd⟩⟩
  ((hconst.deeds h fun _ _ _ _ _ _ _ hI _ _ => hI).inv hf hd).2

theorem kept_new {hmac opt} {I : Relay → Prop} {nonce : Nonce}
    (h : relayNew hmac opt nonce = some r) (hI : I r) : Kept I r :=
  ⟨(accounts_new h).1.slots, (tended_new h).1.served.wf, fun _ _ => ⟨(tended_new h).1, hI⟩⟩

theorem Runs.kept {hmac opt} {I : Relay → Prop} (h : Runs hmac opt t r)
    (h₀ : ∀ nonce r₀, relayNew hmac opt nonce = some r₀ → I r₀)
    (hs : ∀ e r a r', Fit t e r a → Deed r a r' → Slots r → Tended r → I r →
      Few r'.mux.toCore → r'.mux.dead = false → I r') : Kept I r :=
  h.inv (fun nonce r₀ h => kept_new h (h₀ nonce r₀ h))
    fun e r a r' hk ha hdeed => hk.deed hdeed (hs e r a r' ha hdeed)

/-- The terms on which no stream loses its connection. -/
def sound : Terms := ⟨true, true, false⟩

/-- In every run in which no socket fails to be read and the session opens fewer than `2 ^ 31`
streams: every live stream that the relay knows has exactly one connection. -/
theorem streams_have_sockets {hmac : Hmac} {opt : RelayOpts}
    (h : Runs hmac opt sound r) (hf : Few r.mux.toCore) (hd : r.mux.dead = false)
    (hc : r.mux.Carries sid) : ∃! i, ∃ c, r.conns i = some c ∧ c.sid = sid := by
  obtain ⟨ht, hw⟩ := (h.kept (fun _ _ h => (tended_new h).2) fun _ _ _ _ ha hdeed hi ht hw =>
    hdeed.whole hi ht hw ha rfl rfl).inv hf hd
  obtain ⟨i, c, hi, hsid⟩ := hw sid hc
  refine ⟨i, ⟨c, hi, hsid⟩, ?_⟩
  rintro j ⟨d, hj, hsid'⟩
  exact ht.mapped.unique hj hi (hsid'.trans hsid.symm)

/-- The backend is connected, and the peer closes its side. -/
def halfClosedRun : List Move :=
  plugIn .acceptor {} ++ hears (synFrame 2 []) ++ [.writable 0 false []] ++ hears (finFrame 2)

theorem streams_have_sockets_halfClosedRun :
    ∃ r, Runs nullHmac backendOpts sound r ∧ r.mux.Carries 2
      ∧ ∃! i, ∃ c, r.conns i = some c ∧ c.sid = 2 := by
  obtain ⟨r, hr, h⟩ := Runs.of_moves nullHmac backendOpts sound zeroNonce
    (fun r => decide (r.mux.Carries 2)
      && decide ((synIds r.mux.sent).length < 2 ^ 31) && !r.mux.dead)
    halfClosedRun (by decide +kernel)
  simp only [Bool.and_eq_true, decide_eq_true_eq, Bool.not_eq_true'] at h
  exact ⟨r, hr, h.1.1, streams_have_sockets hr h.1.2 h.2 h.1.1⟩

/-- The backend is connected, and a read from its socket fails. -/
def brokenRun : List Move :=
  plugIn .acceptor {} ++ hears (synFrame 2 []) ++ [.writable 0 false [], .readable 0 [.error]]

theorem read_error_strands_stream :
    ∃ r, Runs nullHmac backendOpts ⟨true, false, true⟩ r ∧ Few r.mux.toCore ∧ r.mux.dead = false
      ∧ r.mux.Carries 2 ∧ ∀ i, r.conns i = none := by
  obtain ⟨r, hr, h⟩ := Runs.of_moves nullHmac backendOpts ⟨true, false, true⟩ zeroNonce
    (fun r => decide (r.mux.Carries 2) && decide ((synIds r.mux.sent).length < 2 ^ 31)
      && !r.mux.dead && (List.range r.connsCap).all fun i => (r.conns i).isNone)
    brokenRun (by decide +kernel)
  simp only [Bool.and_eq_true, decide_eq_true_eq, Bool.not_eq_true', List.all_eq_true,
    List.mem_range, Option.isNone_iff_eq_none] at h
  refine ⟨r, hr, h.1.1.2, h.1.2, h.1.1.1, fun i => ?_⟩
  by_contra hne
  obtain ⟨c, hc⟩ := Option.ne_none_iff_exists'.1 hne
  exact hne (h.2 i (hr.accounts.slots.lt i c hc))

end Relay

end MuxProtocol
