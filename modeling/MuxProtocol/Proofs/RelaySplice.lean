import MuxProtocol.Proofs.RelayMap

/-!
# Fidelity of the relay

A connection passes the bytes of its socket to its stream and those of its stream to its socket, in
order, and ends either direction after the last of them. What waits for the session is owed a
WRITABLE. The handlers leave no connection behind that is finished.
-/

namespace MuxProtocol

open Machine Index List Option Function RelayConn Session Event

namespace Relay

variable {r r' : Relay} {i j : ℕ} {c c' : RelayConn} {a : Act} {t : Terms} {sid : UInt32}
  {s : Session} {e : Option Event}

/-! ### Both directions -/

/-- The bytes of a connection, from its socket and from its stream. -/
structure Spliced (s : Session) (c : RelayConn) : Prop where
  read : c.read = c.sent ++ c.s2m
  eof : c.sockEof = true → c.s2m = []
  surfaced : streamBytes c.sid s.popped = c.written ++ c.m2s
  shut : c.shut = true → c.streamFin = true ∧ c.m2s = []
  blocked : c.sendBlocked = true ↔ c.s2m ≠ []

theorem Spliced.congr {s' : Session} (h : Spliced s c)
    (hb : streamBytes c.sid s'.popped = streamBytes c.sid s.popped) : Spliced s' c :=
  ⟨h.read, h.eof, hb.trans h.surfaced, h.shut, h.blocked⟩

theorem Spliced.pass (h : Spliced s c) (hs : c.s2m ≠ []) (w : ℕ) :
    Spliced s (c.pass w).eased ∧ ((c.pass w).s2m ≠ [] → Spliced s (c.pass w).block) := by
  have hread : c.read = (c.sent ++ c.s2m.take w) ++ c.s2m.drop w := by
    rw [append_assoc, take_append_drop, h.read]
  have heof : c.sockEof = true → c.s2m.drop w = [] := fun he => absurd (h.eof he) hs
  have hblocked := h.blocked.2 hs
  refine ⟨?_, fun hne => ⟨hread, heof, h.surfaced, h.shut, by simpa [block] using hne⟩⟩
  rw [eased]
  split
  · rename_i hnil
    exact ⟨hread, heof, h.surfaced, h.shut, by simpa [unblock] using hnil⟩
  · rename_i hne
    exact ⟨hread, heof, h.surfaced, h.shut, iff_of_true hblocked hne⟩

theorem Spliced.input (h : Spliced s c) (hs : c.s2m = []) (he : c.sockEof = false) (p : Bytes)
    (w : ℕ) :
    Spliced s (if w < p.length then (c.input p w).block else c.input p w) := by
  have hread : c.read ++ p = (c.sent ++ p.take w) ++ (c.s2m ++ p.drop w) := by
    rw [h.read, hs, nil_append, append_nil, append_assoc, take_append_drop]
  have heof : c.sockEof = true → c.s2m ++ p.drop w = [] := fun h => by simp [he] at h
  have hrest : c.s2m ++ p.drop w = [] ↔ p.length ≤ w := by
    rw [hs, nil_append, drop_eq_nil_iff]
  split
  · rename_i hlt
    exact ⟨hread, heof, h.surfaced, h.shut,
      iff_of_true rfl fun hnil => absurd (hrest.1 hnil) (Nat.not_le.2 hlt)⟩
  · rename_i hle
    have hfree : ¬ c.sendBlocked = true := fun hb => h.blocked.1 hb hs
    exact ⟨hread, heof, h.surfaced, h.shut,
      iff_of_false hfree (not_not.2 (hrest.2 (Nat.not_lt.1 hle)))⟩

theorem streamBytes_called (h : Called r a r') (hq : r.mux.Queues) (sid) :
    streamBytes sid r'.mux.popped = streamBytes sid r.mux.popped ++ streamBytes sid a.events := by
  rw [h.popped hq, streamBytes_append]

/-- Bytes go from the one buffer to the session, and from the stream to the other, in order. -/
theorem ConnStep.spliced (h : ConnStep r i c a c') (hcall : Called r a r') (ht : Tended r)
    (ha : Fit t e r a) (hended : t.ended = true) (hc : r.conns i = some c)
    (hi : Spliced r.mux c) : Spliced r'.mux c' := by
  have hb := streamBytes_called hcall ht.served.waiting c.sid
  -- the deeds that take no event of the stream
  have hsame : streamBytes c.sid a.events = [] → Spliced r'.mux c := fun h =>
    hi.congr (by rw [hb, h, append_nil])
  cases h with
  | @arrive id p hg =>
    have hid : c.sid = id := ht.mapped.owner hg hc
    subst hid
    have hfr : r.mux.front = some (.data c.sid p) := by
      cases hcall with
      | none _ _ hev => simp [Act.events] at hev
      | issue _ _ ha | dial _ _ ha | refuse _ _ _ ha | accept _ _ ha => cases ha
      | call _ _ _ _ _ _ _ hev => simp [Act.events] at hev
      | event _ ha hf =>
        cases ha
        exact hf
    refine ⟨hi.read, hi.eof, ?_, fun hsh => ?_, hi.blocked⟩
    · change streamBytes c.sid r'.mux.popped = c.written ++ (c.m2s ++ p)
      rw [hb, hi.surfaced]
      simp [Act.events, bytesOn]
    · -- the stream has ended before the socket was shut down
      have htidy := ht.tidy i c hc
      exact absurd (htidy.told (hi.shut hsh).1) (ht.served.not_closed_of_data htidy.known hfr)
  | closed =>
    have h' := hsame (by simp [Act.events, bytesOn])
    exact ⟨h'.read, h'.eof, h'.surfaced, fun hsh => ⟨rfl, (h'.shut hsh).2⟩, h'.blocked⟩
  | @drain w hw hl =>
    have h' := hsame rfl
    refine ⟨h'.read, h'.eof, ?_, fun hsh => ⟨(h'.shut hsh).1, ?_⟩, h'.blocked⟩
    · change _ = (c.written ++ c.m2s.take w) ++ c.m2s.drop w
      rw [append_assoc, take_append_drop]
      exact h'.surfaced
    · simp [RelayConn.drain, (h'.shut hsh).2]
  | shut hf hm =>
    have h' := hsame rfl
    exact ⟨h'.read, h'.eof, h'.surfaced, fun _ => ⟨hf, hm⟩, h'.blocked⟩
  | pass hs => exact ((hsame rfl).pass hs _).1
  | stick hs hw => exact ((hsame rfl).pass hs _).2 hw
  | unblock hs =>
    have h' := hsame rfl
    exact ⟨h'.read, h'.eof, h'.surfaced, h'.shut, by simpa [RelayConn.unblock] using hs⟩
  | connected | fin =>
    have h' := hsame rfl
    exact ⟨h'.read, h'.eof, h'.surfaced, h'.shut, h'.blocked⟩
  | eof hs =>
    have h' := hsame rfl
    exact ⟨h'.read, fun _ => hs, h'.surfaced, h'.shut, h'.blocked⟩
  | input hs hp hw => exact (hsame rfl).input hs ((ha c hc).1 hended) _ _

theorem Deed.silent (h : Deed r a r') (hi : Slots r) (hs : Served r.mux) (hf : Few r'.mux.toCore)
    (ho : r.Opens a sid) : streamBytes sid r.mux.popped = [] := by
  have hnone : notices sid r.mux.popped = [] := by
    rcases ho with ⟨m, -, hfr⟩ | ⟨peer, rfl, ho⟩
    · exact (hs.front_fresh hfr).2.1
    · rw [h.accept_mux hi] at hf
      have := (hs.open_fresh hf ho).2.2.1
      rw [hs.queued_eq, notices, filterMap_append, append_eq_nil_iff] at this
      exact this.1
  rw [streamBytes, hnone]
  rfl

theorem Deed.spliced (h : Deed r a r') (hi : Slots r) (ht : Tended r) (ha : Fit t e r a)
    (hended : t.ended = true) (hf : Few r'.mux.toCore)
    (hsp : ∀ i c, r.conns i = some c → Spliced r.mux c) :
    ∀ i c, r'.conns i = some c → Spliced r'.mux c := by
  have hcall := h.called hi
  have hb := streamBytes_called hcall ht.served.waiting
  refine h.conns hi ht.mapped (fun j d hj hap => (hsp j d hj).congr ?_)
    (fun i c c' hc hs => hs.spliced hcall ht ha hended hc (hsp i c hc)) fun sid _ hopen _ => ?_
  · rw [hb]
    cases a with
    | event ev =>
      cases ev with
      | data id p =>
        have hid : id ≠ d.sid := fun h => hap.data p (h ▸ rfl)
        simp [Act.events, bytesOn, hid]
      | _ => simp [Act.events, bytesOn]
    | _ => simp [Act.events]
  · refine ⟨rfl, fun _ => rfl, ?_, fun h => by simp at h, by simp⟩
    rw [hb, h.silent hi ht.served hf hopen, nil_append]
    rcases hopen with ⟨m, rfl, -⟩ | ⟨peer, rfl, -⟩
    · simp [Act.events, bytesOn]
    · rfl

/-! ### WRITABLE -/

/-- What waits for the session, but for the stream `x`, is owed a WRITABLE. -/
def Owed (x : Option UInt32) (r : Relay) : Prop :=
  ∀ i c, r.conns i = some c → c.s2m ≠ [] → x ≠ some c.sid →
    Every r.mux.tab (Marked r.mux.popped c.sid)

theorem Called.marked (h : Called r a r') (hs : Served r.mux) (hf : Few r'.mux.toCore)
    (hd : r'.mux.dead = false) (hk : r.mux.Knows sid) (hev : a ≠ .event (.writable sid))
    (hm : Every r.mux.tab (Marked r.mux.popped sid)) :
    Every r'.mux.tab (Marked r'.mux.popped sid) := by
  cases h with
  | none hmux => exact hmux ▸ hm
  | issue _ b _ hb _ _ hmux | call b hb _ _ _ hmux =>
    rw [hmux] at hf hd ⊢
    exact hs.marked_next hk hb hf hd hm
  | event ev ha hfr _ hmux =>
    rw [hmux]
    exact hs.marked_pop hfr (fun h => hev (h ▸ ha)) hm
  | dial id m ha hfr _ hmux =>
    rw [hmux]
    exact hs.marked_pop hfr (by simp) hm
  | accept id peer _ _ _ hmux =>
    rw [hmux] at hf hd ⊢
    exact hs.marked_next hk (by simp) hf hd hm
  | refuse id m code _ hfr hmux =>
    have hs₁ := hs.call .nextEvent (call_few hs.wf hs.few (by simp))
    rw [hmux] at hf hd ⊢
    exact hs₁.marked_next (hs.knows_call _ hk) (by simp) hf hd (hs.marked_pop hfr (by simp) hm)

/-- What the session does not take of what has waited is owed a WRITABLE. -/
theorem marked_pass (hs : Served r.mux)
    (hrest : (c.pass (accepted (muxWrite r.mux c.sid c.s2m).2)).s2m ≠ [])
    (hd : (r.mux.call (.write c.sid c.s2m)).dead = false) :
    Every (r.mux.call (.write c.sid c.s2m)).tab
      (Marked (r.mux.call (.write c.sid c.s2m)).popped c.sid) := by
  refine hs.marked_write ?_ hd
  rw [RelayConn.pass, ne_eq, drop_eq_nil_iff] at hrest
  exact Nat.not_le.1 hrest

theorem eased_s2m (c : RelayConn) : c.eased.s2m = c.s2m ∧ c.eased.sid = c.sid := by
  rw [eased]
  split <;> exact ⟨rfl, rfl⟩

theorem Deed.input_mux {p} (h : Deed r (.input i p) r') (hc : r.conns i = some c) :
    r'.mux = r.mux.call (.write c.sid p) := by
  cases h with
  | input hc' =>
    obtain rfl := some.inj (hc.symm.trans hc')
    rfl
  | broken hc' =>
    obtain rfl := some.inj (hc.symm.trans hc')
    obtain ⟨n, q, heq⟩ := giveUp_eq (r := r.call _) hc'
    rw [heq]
    rfl

/-- What waits for the session is owed a WRITABLE after a deed as before. -/
theorem Deed.owed {x} (h : Deed r a r') (hi : Slots r) (ht : Tended r)
    (hx : ∀ sid, a = .event (.writable sid) → x = some sid) (hf : Few r'.mux.toCore)
    (hd : r'.mux.dead = false) (ho : Owed x r) : Owed x r' := by
  have hcall := h.called hi
  -- a connection that waits as before
  have hkeep : ∀ j d, r.conns j = some d → d.s2m ≠ [] → x ≠ some d.sid →
      Every r'.mux.tab (Marked r'.mux.popped d.sid) := fun j d hj hne hxd =>
    hcall.marked ht.served hf hd (ht.tidy j d hj).known (fun ha => hxd (hx _ ha))
      (ho j d hj hne hxd)
  refine h.conns hi ht.mapped (fun j d hj _ => hkeep j d hj) (fun i c c' hc hs hne hxc => ?_)
    fun _ _ _ _ hne => absurd rfl hne
  cases hs with
  | pass =>
    rw [(eased_s2m _).1] at hne
    rw [(eased_s2m _).2]
    rw [hcall.of_issue] at hd ⊢
    exact marked_pass ht.served hne hd
  | stick =>
    rw [hcall.of_issue] at hd ⊢
    exact marked_pass ht.served hne hd
  | @input p w hs hp hw =>
    have hmux := h.input_mux hc
    rw [hmux] at hd ⊢
    by_cases hlt : w < p.length
    · rw [if_pos hlt]
      refine ht.served.marked_write ?_ hd
      rwa [hw]
    · rw [if_neg hlt] at hne
      refine absurd ?_ hne
      rw [RelayConn.input, hs, List.nil_append, List.drop_eq_nil_iff]
      exact Nat.not_lt.1 hlt
  | unblock hs => exact absurd hs hne
  | _ => exact hkeep i c hc hne hxc

theorem Deed.write_owed {b} (h : Deed r (.issue i (.write sid b)) r') (hs : Served r.mux)
    (hd : r'.mux.dead = false) (hc : r'.conns i = some c) (hne : c.s2m ≠ []) :
    Every r'.mux.tab (Marked r'.mux.popped c.sid) := by
  cases h with
  | pass =>
    obtain rfl := some.inj ((setConn_conns ..).symm.trans hc)
    rw [(eased_s2m _).1] at hne
    rw [(eased_s2m _).2]
    exact marked_pass hs hne hd
  | stick _ _ hw =>
    obtain rfl := some.inj ((setConn_conns ..).symm.trans hc)
    exact marked_pass hs hw hd

/-! ### Finished connections -/

/-- No connection is finished. -/
def Unfinished (r : Relay) : Prop := ∀ i c, r.conns i = some c → c.finished = false

/-- The slots other than `i` are as before. -/
def Only (i : ℕ) (r r' : Relay) : Prop := ∀ j, j ≠ i → r'.conns j = r.conns j

theorem Only.trans {r''} (h : Only i r r') (h' : Only i r' r'') : Only i r r'' :=
  fun j hj => (h' j hj).trans (h j hj)

theorem Only.unfinished (h : Only i r r') (hu : Unfinished r)
    (hi : ∀ c, r'.conns i = some c → c.finished = false) : Unfinished r' := by
  intro j c hj
  by_cases hji : j = i
  · exact hi c (hji ▸ hj)
  · exact hu j c (h j hji ▸ hj)

theorem setConn_only (r : Relay) (i : ℕ) (c) : Only i r (r.setConn i c) :=
  fun _ hj => update_of_ne hj ..

theorem setConn_unfinished (hu : Unfinished r) (hc : c.finished = false) :
    Unfinished (r.setConn i c) :=
  (setConn_only r i c).unfinished hu fun d hd => by
    obtain rfl := some.inj ((setConn_conns ..).symm.trans hd)
    exact hc

theorem connDestroy_only (r : Relay) (i : ℕ) : Only i r (r.connDestroy i) := by
  intro j hj
  rcases hc : r.conns i with _ | c
  · rw [connDestroy, hc]
  · obtain ⟨n, p, h⟩ := connDestroy_eq hc
    rw [h]
    exact update_of_ne hj ..

theorem giveUp_only (r : Relay) (i : ℕ) : Only i r (r.giveUp i) := by
  refine Only.trans ?_ (connDestroy_only _ i)
  unfold modify
  split
  · exact fun _ _ => rfl
  · exact setConn_only r i _

theorem connMaybeFinish_only (r : Relay) (i : ℕ) : Only i r (r.connMaybeFinish i) := by
  unfold connMaybeFinish
  split
  · exact fun _ _ => rfl
  split
  · exact connDestroy_only r i
  · exact fun _ _ => rfl

theorem connMaybeFinish_conns (r : Relay) (i : ℕ) :
    ∀ c, (r.connMaybeFinish i).conns i = some c → c.finished = false := by
  intro c h
  unfold connMaybeFinish at h
  split at h
  · rename_i hn
    rw [hn] at h
    cases h
  rename_i d hd
  split at h
  · obtain ⟨n, p, heq⟩ := connDestroy_eq hd
    rw [heq] at h
    have hnone : (r.released i d n p).conns i = none := update_self ..
    exact absurd (hnone.symm.trans h) (by simp)
  · rename_i hf
    rw [hd, some_inj] at h
    simp only [Bool.not_eq_true, Bool.or_eq_false_iff] at hf
    exact h ▸ hf.2

theorem Only.finish (h : Only i r r') (hu : Unfinished r) : Unfinished (r'.connMaybeFinish i) :=
  (h.trans (connMaybeFinish_only r' i)).unfinished hu (connMaybeFinish_conns r' i)

theorem Only.giveUp (h : Only i r r') (hu : Unfinished r) : Unfinished (r'.giveUp i) :=
  (h.trans (giveUp_only r' i)).unfinished hu fun c hc => by
    rw [giveUp_conns] at hc
    cases hc

theorem socketLoop_only (i : ℕ) : ∀ (answers : List WriteAnswer) (r : Relay),
    Only i r (socketLoop i answers r).1 ∧ (socketLoop i answers r).1.interest = r.interest
      ∧ ∀ c', (socketLoop i answers r).1.conns i = some c' →
        ∃ c, r.conns i = some c ∧ c'.streamFin = c.streamFin
  | [], r => ⟨fun _ _ => rfl, rfl, fun c' h => ⟨c', h, rfl⟩⟩
  | a :: as, r => by
    have hrefl : Only i r r ∧ r.interest = r.interest ∧ ∀ c', r.conns i = some c' →
        ∃ c, r.conns i = some c ∧ c'.streamFin = c.streamFin :=
      ⟨fun _ _ => rfl, rfl, fun c' h => ⟨c', h, rfl⟩⟩
    unfold socketLoop
    split
    · exact hrefl
    rename_i c hc
    split
    · exact hrefl
    split
    · rename_i n
      dsimp only
      split
      · exact hrefl
      · obtain ⟨h1, hw, h2⟩ := socketLoop_only i as
          ((r.setConn i (c.drain (min n c.m2s.length))).call (.consume c.sid (min n c.m2s.length)))
        refine ⟨(setConn_only r i _).trans h1, hw, fun c' h => ?_⟩
        obtain ⟨d, hd, hfin⟩ := h2 c' h
        obtain rfl := some.inj ((setConn_conns ..).symm.trans hd)
        exact ⟨c, hc, hfin⟩
    · exact hrefl
    · exact hrefl

theorem flushToSocket_only (r : Relay) (i : ℕ) (answers) : Only i r (r.flushToSocket i answers).1
      ∧ ∀ c', (r.flushToSocket i answers).1.conns i = some c' →
        ∃ c, r.conns i = some c ∧ c'.streamFin = c.streamFin := by
  obtain ⟨h1, -, h2⟩ := socketLoop_only i answers r
  unfold flushToSocket
  split
  · rename_i r₁ heq
    rw [heq] at h1 h2
    dsimp only at h1 h2 ⊢
    unfold shutdown
    split
    · exact ⟨h1, h2⟩
    rename_i c hc
    split
    · refine ⟨h1.trans (setConn_only r₁ i _), fun c' h => ?_⟩
      obtain rfl := some.inj ((setConn_conns ..).symm.trans h)
      exact h2 c hc
    · exact ⟨h1, h2⟩
  · rename_i r₁ heq
    rw [heq] at h1 h2
    exact ⟨h1, h2⟩

/-- What `flush_to_mux` leaves as it is of a connection. -/
structure Pumps (c c' : RelayConn) : Prop where
  sid : c'.sid = c.sid
  sockEof : c'.sockEof = c.sockEof
  streamFin : c'.streamFin = c.streamFin
  m2s : c'.m2s = c.m2s
  s2m : c.s2m = [] → c'.s2m = []

theorem Pumps.trans {c''} (h : Pumps c c') (h' : Pumps c' c'') : Pumps c c'' :=
  ⟨h'.sid.trans h.sid, h'.sockEof.trans h.sockEof, h'.streamFin.trans h.streamFin,
    h'.m2s.trans h.m2s, fun hs => h'.s2m (h.s2m hs)⟩

theorem muxLoop_only (i : ℕ) : ∀ (n : ℕ) (r : Relay) (c : RelayConn), r.conns i = some c →
    Only i r (muxLoop i n r).1 ∧ (muxLoop i n r).1.interest = r.interest
      ∧ ∃ c', (muxLoop i n r).1.conns i = some c' ∧ Pumps c c'
  | 0, r, c, hc => ⟨fun _ _ => rfl, rfl, c, hc, rfl, rfl, rfl, rfl, id⟩
  | n + 1, r, c, hc => by
    rw [muxLoop, hc]
    dsimp only
    split
    · exact ⟨fun _ _ => rfl, rfl, c, hc, rfl, rfl, rfl, rfl, id⟩
    rename_i hs
    split
    · exact ⟨setConn_only r i _, rfl, _, setConn_conns .., rfl, rfl, rfl, rfl,
        fun h => absurd h hs⟩
    · obtain ⟨h1, hw, c', hc', h2⟩ :=
        muxLoop_only i n _ _ (setConn_conns (r.call (.write c.sid c.s2m)) i
        (c.pass (accepted (muxWrite r.mux c.sid c.s2m).2)))
      exact ⟨(setConn_only r i _).trans h1, hw, c', hc', h2.sid, h2.sockEof, h2.streamFin, h2.m2s,
        fun h => absurd h hs⟩

theorem flushToMux_only (hc : r.conns i = some c) :
    Only i r (r.flushToMux i) ∧ ∃ c', (r.flushToMux i).conns i = some c' ∧ Pumps c c' := by
  unfold flushToMux
  obtain ⟨h1, -, c', hc', h2⟩ := muxLoop_only i (((r.conns i).map (·.s2m.length)).getD 0) r c hc
  split
  · rename_i r₁ heq
    rw [heq] at h1 hc'
    rw [flushed, hc']
    dsimp only
    split
    · rw [closeStream, setConn_conns]
      dsimp only
      rw [setConn_setConn]
      exact ⟨h1.trans (setConn_only r₁ i _), _, setConn_conns ..,
        h2.trans ⟨rfl, rfl, rfl, rfl, id⟩⟩
    · exact ⟨h1.trans (setConn_only r₁ i _), _, setConn_conns ..,
        h2.trans ⟨rfl, rfl, rfl, rfl, id⟩⟩
  · rename_i r₁ heq
    rw [heq] at h1 hc'
    exact ⟨h1, c', hc', h2⟩

/-- The sockets that have ended have nothing to pass on. -/
def Ends (r : Relay) : Prop := ∀ i c, r.conns i = some c → c.sockEof = true → c.s2m = []

theorem flushToMux_none (hc : r.conns i = none) : r.flushToMux i = r := by
  simp only [flushToMux, hc, map_none, getD_none, muxLoop, flushed]

theorem flushToMux_unfinished (i : ℕ) (hu : Unfinished r) (he : Ends r) :
    Unfinished (r.flushToMux i) ∧ Ends (r.flushToMux i) := by
  rcases hc : r.conns i with _ | c
  · rw [flushToMux_none hc]
    exact ⟨hu, he⟩
  obtain ⟨honly, c', hc', hp⟩ := flushToMux_only hc
  refine ⟨honly.unfinished hu fun d hd => ?_, fun j d hj heof => ?_⟩
  · obtain rfl := some.inj (hc'.symm.trans hd)
    by_contra hfin
    rw [Bool.not_eq_false, finished_iff, hp.sockEof, hp.streamFin, hp.m2s] at hfin
    have := hu i c hc
    rw [← Bool.not_eq_true, finished_iff] at this
    exact this ⟨hfin.1, hfin.2.1, hfin.2.2.1, he i c hc hfin.1⟩
  · by_cases hji : j = i
    · subst hji
      obtain rfl := some.inj (hc'.symm.trans hj)
      exact hp.s2m (he j c hc (hp.sockEof ▸ heof))
    · exact he j d (honly j hji ▸ hj) heof

theorem flushAll_unfinished : ∀ (l : List ℕ) {r : Relay}, Unfinished r → Ends r →
    Unfinished
      (l.foldl (fun r i => if (r.conns i).any (·.sendBlocked) then r.flushToMux i else r) r)
  | [], _, hu, _ => hu
  | i :: l, r, hu, he => by
    rw [foldl_cons]
    split
    · obtain ⟨hu', he'⟩ := flushToMux_unfinished i hu he
      exact flushAll_unfinished l hu' he'
    · exact flushAll_unfinished l hu he

/-- After an event, a connection that is finished is gone. -/
theorem onEvent_unfinished (hmac) {ev} (an) (hfr : r.mux.front = some ev) (hi : Slots r)
    (ht : Tended r) (hu : Unfinished r) (he : Ends r) :
    Unfinished ((r.call .nextEvent).onEvent hmac an ev) := by
  have hu₁ : Unfinished (r.call .nextEvent) := hu
  cases ev with
  | peerHello _ _ _ _ auth nonce =>
    simp only [onEvent, onPeerHello]
    split
    · exact hu
    split
    · exact hu
    · exact hu
  | opened sid m =>
    simp only [onEvent]
    split
    · by_cases hdial : an.dialled = false
      · rw [openBackendConn, if_pos hdial]
        exact hu
      rw [Bool.not_eq_false] at hdial
      rw [hdial]
      obtain ⟨i, free, cap, w, -, heq⟩ := hi.dial sid
      rw [heq]
      exact setConn_unfinished hu rfl
    · exact hu
  | data sid data =>
    simp only [onEvent, onStreamData]
    split
    · exact hu
    rename_i i hg
    split
    · exact hu
    rename_i c hc
    have htidy := ht.tidy i c hc
    -- the stream goes on
    have hopen : c.streamFin = false := by
      by_contra hfin
      have hsid : c.sid = sid := ht.mapped.owner hg hc
      exact ht.served.not_closed_of_data htidy.known (hsid.symm ▸ hfr)
        (htidy.told (by simpa using hfin))
    have hfin : ∀ {d : RelayConn}, d.streamFin = false → d.finished = false := fun h => by
      simp [finished, h]
    split
    · exact setConn_unfinished hu₁ (hfin hopen)
    · obtain ⟨h1, h2⟩ :=
        flushToSocket_only ((r.call .nextEvent).setConn i (c.arrive data)) i an.writes
      refine ((setConn_only (r.call .nextEvent) i _).trans h1).unfinished hu₁ fun d hd => ?_
      obtain ⟨c', hc', heq⟩ := h2 d hd
      obtain rfl := some.inj ((setConn_conns ..).symm.trans hc')
      exact hfin (heq.trans hopen)
  | closed sid =>
    simp only [onEvent, onStreamClosed]
    split
    · exact hu
    rename_i i hg
    refine Only.finish (r := r.call .nextEvent) ?_ hu₁
    have hmod : Only i (r.call .nextEvent) ((r.call .nextEvent).modify i (·.closed)) := by
      unfold modify
      split
      · exact fun _ _ => rfl
      · exact setConn_only _ i _
    split
    · exact hmod
    · exact hmod.trans (flushToSocket_only _ i an.writes).1
  | reset sid code =>
    simp only [onEvent]
    split
    · exact hu
    · exact Only.giveUp (r := r.call .nextEvent) (fun _ _ => rfl) hu₁
  | writable sid =>
    simp only [onEvent, onWritable]
    split
    · exact flushAll_unfinished _ hu₁ he
    split
    · exact hu
    · exact (flushToMux_unfinished _ hu₁ he).1
  | goaway | capacity | fatal => exact hu

theorem acceptOne_unfinished (hi : Slots r) (hu : Unfinished r) (peer) :
    Unfinished (r.acceptOne peer) := by
  unfold acceptOne
  split
  · exact hu
  split
  · exact hu
  rename_i sid ho
  obtain ⟨i, free, cap, w, -, heq⟩ := hi.accept sid peer
  change Unfinished ((r.call (.open peer)).opened sid)
  rw [heq]
  exact setConn_unfinished hu rfl

theorem acceptPublic_unfinished : ∀ (peers : List Bytes) {r : Relay}, r.opt.publicListen = true →
    Slots r → Unfinished r → Unfinished (acceptPublic peers r)
  | [], r, _, _, hu => by
    unfold acceptPublic
    split
    · exact hu
    · exact hu
  | peer :: peers, r, hl, hi, hu => by
    unfold acceptPublic
    split
    · exact hu
    rename_i hf
    exact acceptPublic_unfinished peers (by rwa [acceptOne_opt])
      (hi.deeds (acceptOne_deeds (t := anyhow) (e := none) hl hf peer))
      (acceptOne_unfinished hi hu peer)

theorem onSockEof_unfinished (hu : Unfinished r) : Unfinished (r.onSockEof i) := by
  unfold onSockEof
  split
  · exact hu
  refine Only.finish (r := r) ?_ hu
  split
  · rw [closeStream, setConn_conns]
    dsimp only
    rw [setConn_setConn]
    exact setConn_only r i _
  · exact setConn_only r i _

theorem readLoop_unfinished (i : ℕ) : ∀ (answers : List ReadAnswer) (r : Relay), Unfinished r →
    (∀ c, r.conns i = some c → c.s2m = []) → Unfinished (readLoop i answers r)
  | [], _, hu, _ => hu
  | a :: as, r, hu, hs => by
    unfold readLoop
    split
    · exact hu
    rename_i c hc
    have hs := hs c hc
    cases a with
    | eof => exact onSockEof_unfinished hu
    | again => exact hu
    | error => exact Only.giveUp (r := r) (fun _ _ => rfl) hu
    | bytes b =>
      dsimp only
      split
      · exact onSockEof_unfinished hu
      split
      · exact Only.giveUp (r := r.call _) (fun _ _ => rfl) hu
      rename_i w hw
      have hu₁ : Unfinished (r.call (.write c.sid (b.take readMax))) := hu
      have hfin : (c.input (b.take readMax) w).finished = false := by
        by_contra h
        have hold := hu i c hc
        rw [← Bool.not_eq_true, finished_iff] at hold
        rw [Bool.not_eq_false, finished_iff] at h
        exact hold ⟨h.1, h.2.1, h.2.2.1, hs⟩
      split
      · exact setConn_unfinished hu₁ hfin
      · rename_i hlt
        refine readLoop_unfinished i as _ (setConn_unfinished hu₁ hfin) fun d hd => ?_
        obtain rfl := some.inj ((setConn_conns ..).symm.trans hd)
        rw [input, hs, nil_append, drop_eq_nil_iff]
        exact Nat.not_lt.1 hlt

theorem resetConn_unfinished {r₁ : Relay} (h : Only i r r₁) (hu : Unfinished r) :
    Unfinished (r₁.resetConn i) := by
  unfold resetConn
  split
  · rename_i hn
    refine h.unfinished hu fun c hc => ?_
    rw [hn] at hc
    cases hc
  · exact Only.giveUp (r := r) h hu

theorem sockConnected_only (r : Relay) (i : ℕ) (c) : Only i r (r.sockConnected i c) := by
  unfold sockConnected
  split
  · exact setConn_only r i _
  · exact fun _ _ => rfl

theorem move_unfinished (hmac m) (hi : Slots r) (ht : Tended r) (hu : Unfinished r) (he : Ends r) :
    Unfinished (r.move hmac m) := by
  cases m with
  | timer | stash | recv | advance | halt | flushDirty => exact hu
  | event an =>
    simp only [move, nextEvent]
    split
    · exact hu
    · rename_i ev hf
      exact onEvent_unfinished hmac an hf hi ht hu he
  | listener peers =>
    simp only [move, onListener]
    split
    · exact acceptPublic_unfinished peers ‹_› hi hu
    · exact hu
  | readable i answers =>
    simp only [move, onSockReadable]
    split
    · exact hu
    rename_i c hc
    split
    · exact hu
    rename_i hs
    refine readLoop_unfinished i answers r hu fun d hd => ?_
    obtain rfl := some.inj (hc.symm.trans hd)
    exact not_not.1 hs
  | writable i sockErr answers =>
    simp only [move, onSockWritable]
    split
    · exact hu
    rename_i c hc
    split
    · exact resetConn_unfinished (fun _ _ => rfl) hu
    have h := (sockConnected_only r i c).trans
      (flushToSocket_only (r.sockConnected i c) i answers).1
    split
    · rename_i r₁ heq
      rw [heq] at h
      exact resetConn_unfinished h hu
    · rename_i r₁ heq
      rw [heq] at h
      exact h.finish hu

/-! ### Runs -/

/-- What holds between the handlers. -/
structure Faithful (r : Relay) : Prop where
  spliced : ∀ i c, r.conns i = some c → Spliced r.mux c
  owed : Owed none r
  unfinished : Unfinished r
  wakeful : Wakeful r.mux.toCore

/-- A stream that is told that it may be written goes on, or waits again. -/
theorem onWritable_owed (hk : Kept (Owed (some sid)) r) (h : Deeds t e r (r.onWritable sid))
    (he : e = some (.writable sid)) (hf : Few (r.onWritable sid).mux.toCore)
    (hd : (r.onWritable sid).mux.dead = false) : Owed none (r.onWritable sid) := by
  have hx : ∀ {r a}, Fit t e r a → ∀ id, a = .event (.writable id) → some sid = some id := by
    rintro r _ ha id rfl
    have := ha.1
    rw [he, some_inj, writable.injEq] at this
    rw [this]
  have hall : ∀ {r'}, Deeds t e r r' → Kept (Owed (some sid)) r' := fun h =>
    hk.deeds h fun r a r' ha hdeed hi ht ho hf hd => hdeed.owed hi ht (hx ha) hf hd ho
  obtain ⟨ht', ho'⟩ := (hall h).inv hf hd
  obtain ⟨ht, -⟩ := hk.before h hf hd
  intro j d hj hne _
  by_cases hsid : sid = d.sid
  swap
  · exact ho' j d hj hne (by simpa using hsid)
  subst hsid
  have h0 := ht'.served.knows_ne (ht'.tidy j d hj).known
  unfold onWritable at hf hd hj ht' ⊢
  rw [if_neg h0] at hf hd hj ht' ⊢
  rcases hg : r.sidmapGet d.sid with _ | i
  · rw [hg] at hj
    rw [ht.mapped.index.reach j d hj ()] at hg
    cases hg
  rw [hg] at hf hd hj ht'
  dsimp only at hf hd hj ht' ⊢
  obtain ⟨c, hc, -, hcid⟩ := ht.mapped.index.owned d.sid i hg
  obtain ⟨-, c', hc', hp⟩ := flushToMux_only hc
  obtain rfl : i = j := ht'.mapped.unique hc' hj (hp.sid.trans hcid)
  rcases (flushToMux_spec (t := t) (e := e) r i).2 with ⟨r₂, r₃, id, b, hds, hlast, heq⟩ | hnil
  · have hk₂ := hall hds
    rw [heq] at hf hd hj ⊢
    obtain ⟨-, hfew, halive⟩ := (hlast.called hk₂.slots).before hk₂.wf
    exact hlast.write_owed (hk₂.inv (hfew hf) (halive hd)).1.served hd hj hne
  · exact absurd (hnil d hj) hne

theorem Called.wakeful (h : Called r a r') (hw : r.mux.toCore.Wf) (hi : Wakeful r.mux.toCore) :
    Wakeful r'.mux.toCore :=
  (h.inv (I := fun s => s.toCore.Wf ∧ Wakeful s.toCore) ⟨hw, hi⟩ fun s b hs =>
    ⟨Steps.wf (call_steps hs.1 (permits_any s b)) hs.1,
      call_wakeful hs.1 hs.2 b⟩).2

/-- Every move within the terms keeps the bytes in order. -/
theorem move_faithful (hmac) {m} (hm : r.Meets t m) (hended : t.ended = true)
    (hk : Kept Faithful r) : Kept Faithful (r.move hmac m) := by
  have h := move_deeds hmac hm
  have hsp : Kept (fun r => ∀ i c, r.conns i = some c → Spliced r.mux c) (r.move hmac m) :=
    (hk.imp (·.spliced)).deeds h fun r a r' ha hdeed hi ht hI hf _ =>
      hdeed.spliced hi ht ha hended hf hI
  have hwake : Kept (fun r => Wakeful r.mux.toCore) (r.move hmac m) :=
    (hk.imp (·.wakeful)).deeds h fun r a r' _ hdeed hi ht hI _ _ =>
      (hdeed.called hi).wakeful ht.served.wf hI
  refine ⟨hsp.slots, hsp.wf, fun hf hd => ⟨(hsp.inv hf hd).1, (hsp.inv hf hd).2, ?_, ?_,
    (hwake.inv hf hd).2⟩⟩
  · by_cases hev : ∃ sid, m.takes r = some (.writable sid)
    · obtain ⟨sid, hev⟩ := hev
      cases m with
      | event an =>
        have hfr : r.mux.front = some (.writable sid) := hev
        have hmove : r.move hmac (.event an) = (r.call .nextEvent).onWritable sid := by
          rw [move, nextEvent, show (muxNextEvent r.mux).2 = some (.writable sid) from hfr]
          rfl
        have hsome : Kept (Owed (some sid)) r :=
          hk.imp fun h i c hc hne _ => h.owed i c hc hne (by simp)
        have hskip : Kept (Owed (some sid)) (r.call .nextEvent) :=
          hsome.deed (.skip hfr trivial) fun hi ht ho hf hd =>
            Deed.owed (.skip hfr trivial) hi ht (fun _ h => by cases h; rfl) hf hd ho
        rw [hmove] at hf hd ⊢
        exact onWritable_owed hskip (onWritable_deeds (t := t) _ sid) rfl hf hd
      | _ => cases hev
    · refine ((hk.imp (·.owed)).deeds h fun r₁ a r' ha hdeed hi ht hI hf hd =>
        hdeed.owed hi ht (fun sid heq => ?_) hf hd hI).inv hf hd |>.2
      subst heq
      exact absurd ⟨sid, ha.1⟩ hev
  · obtain ⟨ht, hI⟩ := hk.before h hf hd
    exact move_unfinished hmac m hk.slots ht hI.unfinished fun i c hc => (hI.spliced i c hc).eof

theorem faithful_new {hmac opt} {nonce : Nonce}
    (h : relayNew hmac opt nonce = some r) : Faithful r := by
  obtain ⟨s, hs, rfl⟩ := map_eq_some_iff.1 h
  exact ⟨by simp, fun i c hc => by simp at hc, fun i c hc => by simp at hc,
    (account_new hs).wakeful⟩

/-- The terms on which the relay is faithful. -/
def orderly : Terms := ⟨true, false, false⟩

theorem Runs.faithful {hmac opt} (h : Runs hmac opt orderly r) : Kept Faithful r := by
  obtain ⟨nonce, r₀, hnew, h⟩ := h
  refine h.inv (kept_new hnew (faithful_new hnew)) fun r m r' hk hm hr => ?_
  rw [show r' = r.move hmac m from hr]
  exact move_faithful hmac hm rfl hk

/-- A relay with a public listener is an acceptor. In every run in which a socket that has ended
gives no more bytes, between the handlers: a connection has passed on a part of what its socket has
given, and all of it before `mux_close`; it has written a part of what its stream has brought, and
all of it before `shutdown`; it is blocked exactly while bytes wait for the session, and a WRITABLE
is owed or queued then; and it is not finished. -/
theorem splice_faithful {hmac : Hmac} {opt : RelayOpts}
    (hopt : opt.publicListen = true → opt.role = .acceptor) (h : Runs hmac opt orderly r)
    (hd : r.mux.dead = false) (hc : r.conns i = some c) :
    c.sent <+: c.read ∧ (c.finSent = true → c.sockEof = true ∧ c.sent = c.read)
      ∧ c.written <+: streamBytes c.sid r.mux.popped
      ∧ (c.shut = true → .closed c.sid ∈ r.mux.popped
        ∧ c.written = streamBytes c.sid r.mux.popped)
      ∧ (c.sendBlocked = true ↔ c.s2m ≠ [])
      ∧ (c.s2m ≠ [] → ∀ k st, stFind r.mux.tab c.sid = some (k, st) →
        st.sendBlocked = true ∨ .writable c.sid ∈ r.mux.q.toList)
      ∧ c.finished = false := by
  obtain ⟨ht, hfaith⟩ := h.faithful.inv (h.few hopt) hd
  have htidy := ht.tidy i c hc
  have hsp := hfaith.spliced i c hc
  refine ⟨⟨c.s2m, hsp.read.symm⟩, fun hfin => ?_, ⟨c.m2s, hsp.surfaced.symm⟩, fun hsh => ?_,
    hsp.blocked, fun hne k st hst => ?_, hfaith.unfinished i c hc⟩
  · have heof := htidy.ended.symm.trans hfin
    exact ⟨heof, by rw [hsp.read, hsp.eof heof, List.append_nil]⟩
  · obtain ⟨hstream, hnil⟩ := hsp.shut hsh
    exact ⟨htidy.told hstream, by rw [hsp.surfaced, hnil, List.append_nil]⟩
  · -- the stream is not closed on our side, as the socket has not ended
    obtain ⟨hg, hsid⟩ := stFind_some ht.served.wf.tab hst
    have hopen : c.finSent = false := by
      rw [htidy.ended]
      by_contra heof
      exact hne (hsp.eof (by simpa using heof))
    exact ht.served.wakes hfaith.wakeful hd (hfaith.owed i c hc hne (by simp)) hst
      (htidy.unfinished hopen k st hg hsid)

/-- An edge with a cap of one, and no token. -/
def edgeOpts : RelayOpts where
  role := .acceptor
  publicListen := true
  maxStreams := 1

/-- A peer that grants one byte a stream, and a client that gives two. -/
def heldBackRun : List Move :=
  plugIn .dialer { initWindow := 1 } ++ [.listener [[]], .readable 0 [.bytes [7, 8]]]

theorem splice_faithful_heldBackRun :
    ∃ r, Runs nullHmac edgeOpts orderly r ∧ ∃ c, r.conns 0 = some c ∧ c.s2m = [8]
      ∧ c.sent <+: c.read ∧ c.sendBlocked = true := by
  obtain ⟨r, hr, h⟩ := Runs.of_moves nullHmac edgeOpts orderly zeroNonce
    (fun r => (r.conns 0).any (fun c : RelayConn => decide (c.s2m = [8])) && !r.mux.dead)
    heldBackRun (by decide +kernel)
  simp only [Bool.and_eq_true, decide_eq_true_eq, Bool.not_eq_true', Option.any_eq_true] at h
  obtain ⟨⟨c, hc, hs⟩, hd⟩ := h
  obtain ⟨hsent, -, -, -, hblock, -⟩ := splice_faithful (fun _ => rfl) hr hd hc
  exact ⟨r, hr, c, hc, hs, hsent, hblock.2 (by simp [hs])⟩

end Relay

end MuxProtocol
