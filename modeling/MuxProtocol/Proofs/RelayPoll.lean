import MuxProtocol.Proofs.RelaySplice

/-!
# The relay's interest in its sockets

Every handler marks the connection whose interest it may change, but for one way out of
`flush_to_socket`: where the socket fails. The handlers of a socket's own readiness then give the
connection up; those of the stream's events go on, and the interest stays what it was.
-/

namespace MuxProtocol

open Machine List Option Function RelayConn

theorem RelayConn.desired_congr {c c' : RelayConn} (h1 : c'.connecting = c.connecting)
    (h2 : c'.sockEof = c.sockEof) (h3 : c'.s2m = c.s2m) (h4 : c'.sendBlocked = c.sendBlocked)
    (h5 : c'.m2s = [] ↔ c.m2s = []) : c'.desired = c.desired := by
  have h5' : c'.m2s.isEmpty = c.m2s.isEmpty := by
    rw [Bool.eq_iff_iff, List.isEmpty_iff, List.isEmpty_iff, h5]
  rw [desired, desired, h1, h2, h3, h4, h5']

/-! ### The invariant -/

/-- Every connection but that of slot `x` is marked, or polled for what it wants. -/
structure Interest.Tracks (x : Option ℕ) (conns : ℕ → Option RelayConn) (w : Interest) : Prop where
  loop : ∀ j c, conns j = some c → w.loop j = w.cur j
  listed : ∀ j c, conns j = some c → w.inDirty j = true → j ∈ w.dirty
  fresh : ∀ j c, x ≠ some j → conns j = some c → w.inDirty j = true ∨ w.cur j = some c.desired

/-- What `flush_dirty` leaves. -/
structure Interest.Settled (conns : ℕ → Option RelayConn) (w : Interest) : Prop where
  loop : ∀ j c, conns j = some c → w.loop j = some c.desired
  cur : ∀ j c, conns j = some c → w.cur j = some c.desired
  clean : ∀ j c, conns j = some c → w.inDirty j = false

namespace Interest.Tracks

variable {x : Option ℕ} {conns conns' : ℕ → Option RelayConn} {w : Interest} {i : ℕ}
  {c c' : RelayConn}

theorem weaken (h : w.Tracks none conns) : w.Tracks x conns :=
  ⟨h.loop, h.listed, fun j c _ => h.fresh j c nofun⟩

theorem of_none (h : w.Tracks (some i) conns) (hn : conns i = none) : w.Tracks none conns := by
  refine ⟨h.loop, h.listed, fun j c _ hj => h.fresh j c (fun e => ?_) hj⟩
  cases e
  rw [hn] at hj
  cases hj

/-- At most the connection of slot `i` is changed, and none is put there. -/
theorem touch (h : w.Tracks (some i) conns) (ho : ∀ j, j ≠ i → conns' j = conns j)
    (hold : ∀ c', conns' i = some c' → ∃ c, conns i = some c) : w.Tracks (some i) conns' := by
  have hwas : ∀ j d, conns' j = some d → ∃ c, conns j = some c := by
    intro j d hj
    by_cases hji : j = i
    · subst hji
      exact hold d hj
    · exact ⟨d, (ho j hji).symm.trans hj⟩
  refine ⟨fun j d hj => ?_, fun j d hj => ?_, fun j d hx hj => ?_⟩
  · obtain ⟨c, hc⟩ := hwas j d hj
    exact h.loop j c hc
  · obtain ⟨c, hc⟩ := hwas j d hj
    exact h.listed j c hc
  · exact h.fresh j d hx ((ho j fun e => hx (congrArg some e.symm)).symm.trans hj)

/-- A connection that wants what it wanted. -/
theorem set (h : w.Tracks none conns) (hc : conns i = some c) (hd : c'.desired = c.desired)
    (ho : ∀ j, j ≠ i → conns' j = conns j) (hi : conns' i = some c') : w.Tracks none conns' := by
  have ht := h.weaken.touch ho fun _ _ => ⟨c, hc⟩
  refine ⟨ht.loop, ht.listed, fun j d _ hj => ?_⟩
  by_cases hji : j = i
  · subst hji
    cases hi.symm.trans hj
    rw [hd]
    exact h.fresh j c nofun hc
  · exact ht.fresh j d (fun e => hji (some.inj e).symm) hj

theorem mark (h : w.Tracks (some i) conns) : (w.mark i).Tracks none conns := by
  unfold Interest.mark
  split
  · rename_i hd
    refine ⟨h.loop, h.listed, fun j c _ hj => ?_⟩
    by_cases hji : j = i
    · exact .inl (hji ▸ hd)
    · exact h.fresh j c (fun e => hji (some.inj e).symm) hj
  · refine ⟨h.loop, fun j c hj hd => ?_, fun j c _ hj => ?_⟩
    · by_cases hji : j = i
      · simp [hji]
      · dsimp only at hd
        rw [update_of_ne hji] at hd
        exact mem_append_left _ (h.listed j c hj hd)
    · by_cases hji : j = i
      · subst hji
        exact .inl (update_self ..)
      · dsimp only
        rw [update_of_ne hji]
        exact h.fresh j c (fun e => hji (some.inj e).symm) hj

theorem forget (h : w.Tracks (some i) conns) :
    (w.forget i).Tracks none (update conns i none) := by
  have hne : ∀ {j c}, update conns i none j = some c → j ≠ i ∧ conns j = some c := by
    intro j c hj
    by_cases hji : j = i
    · simp [hji] at hj
    · exact ⟨hji, by rwa [update_of_ne hji] at hj⟩
  refine ⟨fun j c hj => ?_, fun j c hj hd => ?_, fun j c _ hj => ?_⟩
  all_goals obtain ⟨hji, hc⟩ := hne hj
  · simpa [Interest.forget, hji] using h.loop j c hc
  · exact h.listed j c hc (by simpa [Interest.forget, hji] using hd)
  · simpa [Interest.forget, hji] using h.fresh j c (fun e => hji (some.inj e).symm) hc

/-- A new connection is registered at once. -/
theorem connect (h : w.Tracks none conns) (i : ℕ) (c) :
    ((w.fresh i).apply i c.desired).Tracks none (update conns i (some c)) := by
  have happly : (w.fresh i).apply i c.desired = { w.fresh i with
      cur := update (w.fresh i).cur i (some c.desired)
      loop := update w.loop i (some c.desired) } := by
    rw [Interest.apply, if_neg (by simp [Interest.fresh])]
    rfl
  rw [happly]
  have hother : ∀ {j d}, j ≠ i → update conns i (some c) j = some d → conns j = some d :=
    fun hji hj => by rwa [update_of_ne hji] at hj
  refine ⟨fun j d hj => ?_, fun j d hj hd => ?_, fun j d _ hj => ?_⟩
  all_goals by_cases hji : j = i
  · simp [hji]
  · simpa [Interest.fresh, hji] using h.loop j d (hother hji hj)
  · simp [Interest.fresh, hji] at hd
  · exact h.listed j d (hother hji hj) (by simpa [Interest.fresh, hji] using hd)
  · subst hji
    rw [update_self, some_inj] at hj
    simp [hj]
  · simpa [Interest.fresh, hji] using h.fresh j d nofun (hother hji hj)

/-- The loop of `flush_dirty` leaves every connection polled for what it wants. -/
theorem foldl_flushOne : ∀ (l : List ℕ) (w : Interest),
    (∀ j c, conns j = some c → w.loop j = w.cur j) →
    (∀ j c, conns j = some c → w.inDirty j = true → j ∈ l) →
    (∀ j c, conns j = some c → w.inDirty j = true ∨ w.cur j = some c.desired) →
    (l.foldl (.flushOne conns) w).Settled conns
  | [], w, hloop, hlisted, hfresh => by
    have hclean : ∀ j c, conns j = some c → w.inDirty j = false := fun j c hj =>
      Bool.eq_false_iff.2 fun hd => not_mem_nil (hlisted j c hj hd)
    have hcur : ∀ j c, conns j = some c → w.cur j = some c.desired := fun j c hj =>
      (hfresh j c hj).resolve_left (by rw [hclean j c hj]; nofun)
    exact ⟨fun j c hj => (hloop j c hj).trans (hcur j c hj), hcur, hclean⟩
  | i :: l, w, hloop, hlisted, hfresh => by
    rw [foldl_cons]
    by_cases hd : (conns i).isSome = true ∧ w.inDirty i = true
    · obtain ⟨c, hc⟩ := isSome_iff_exists.1 hd.1
      have hone : w.flushOne conns i = { w with
          inDirty := update w.inDirty i false
          cur := update w.cur i (some c.desired)
          loop := update w.loop i (some c.desired) } := by
        rw [flushOne, hc]
        dsimp only
        rw [if_pos hd.2, Interest.apply]
        split
        · rename_i heq
          dsimp only at heq
          have hl := (hloop i c hc).trans heq
          rw [← heq, update_eq_self, heq, ← hl, update_eq_self]
        · rfl
      rw [hone]
      refine foldl_flushOne l _ (fun j d hj => ?_) (fun j d hj hdj => ?_) fun j d hj => ?_
      all_goals by_cases hji : j = i
      · simp [hji]
      · simpa [hji] using hloop j d hj
      · simp [hji] at hdj
      · simp only [update_of_ne hji] at hdj
        exact (mem_cons.1 (hlisted j d hj hdj)).resolve_left hji
      · subst hji
        cases hc.symm.trans hj
        simp
      · simpa [hji] using hfresh j d hj
    · have hsame : w.flushOne conns i = w := by
        rw [flushOne]
        rcases hc : conns i with _ | c
        · rfl
        · exact if_neg fun h => hd ⟨by rw [hc]; rfl, h⟩
      rw [hsame]
      refine foldl_flushOne l w hloop (fun j c hj hdj => ?_) hfresh
      refine (mem_cons.1 (hlisted j c hj hdj)).resolve_left fun hji => hd ?_
      subst hji
      exact ⟨by rw [hj]; rfl, hdj⟩

end Interest.Tracks

namespace Relay

variable {r r' : Relay} {i j : ℕ} {c c' : RelayConn} {x : Option ℕ}

theorem settled_flushDirty (h : r.interest.Tracks none r.conns) :
    r.flushDirty.interest.Settled r.conns := by
  obtain ⟨h1, h2, h3⟩ :=
    Interest.Tracks.foldl_flushOne r.interest.dirty r.interest h.loop h.listed
      fun j c hj => h.fresh j c nofun hj
  exact ⟨h1, h2, h3⟩

/-! ### Handlers -/

/-- A socket that fails leaves bytes to write, and for the rest the connection as it was polled. -/
theorem socketLoop_failed : ∀ (answers : List WriteAnswer) (r : Relay) (c : RelayConn),
    r.conns i = some c → (socketLoop i answers r).2 = false →
    c.m2s ≠ [] ∧ ∃ c', (socketLoop i answers r).1.conns i = some c' ∧ c'.desired = c.desired
  | [], _, _, _, hf => nomatch hf
  | a :: as, r, c, hc, hf => by
    unfold socketLoop at hf ⊢
    rw [hc] at hf ⊢
    dsimp only at hf ⊢
    by_cases hm : c.m2s = []
    · rw [if_pos hm] at hf
      cases hf
    rw [if_neg hm] at hf ⊢
    refine ⟨hm, ?_⟩
    cases a with
    | wrote n =>
      dsimp only at hf ⊢
      split at hf
      · rw [if_pos ‹_›]
        exact ⟨c, hc, rfl⟩
      · rw [if_neg ‹_›]
        obtain ⟨hm', c', hc', hd⟩ := socketLoop_failed as
          ((r.setConn i (c.drain (min n c.m2s.length))).call (.consume c.sid _)) _
          (setConn_conns r i _) hf
        exact ⟨c', hc', hd.trans (desired_congr rfl rfl rfl rfl (by simp [hm, hm']))⟩
    | again => cases hf
    | error => exact ⟨c, hc, rfl⟩

abbrev Tracked (x : Option ℕ) (r : Relay) : Prop := r.interest.Tracks x r.conns

namespace Tracked

theorem relax (h : Tracked none r) : Tracked x r := h.weaken

theorem setConn (h : Tracked (some i) r) (hc : r.conns i = some c) (c') :
    Tracked (some i) (r.setConn i c') :=
  h.touch (setConn_only r i c') fun _ _ => ⟨c, hc⟩

theorem keep (h : Tracked none r) (hc : r.conns i = some c) (hd : c'.desired = c.desired) :
    Tracked none (r.setConn i c') :=
  h.set hc hd (setConn_only r i c') (setConn_conns ..)

theorem closeStream (h : Tracked (some i) r) : Tracked (some i) (r.closeStream i) := by
  unfold Relay.closeStream
  split
  · exact h
  · exact h.setConn ‹_› _

theorem destroy (h : Tracked (some i) r) : Tracked none (r.connDestroy i) := by
  rcases hc : r.conns i with _ | c
  · rw [connDestroy, hc]
    exact h.of_none hc
  · obtain ⟨n, p, heq⟩ := connDestroy_eq hc
    rw [heq]
    exact h.forget

theorem giveUp (h : Tracked (some i) r) : Tracked none (r.giveUp i) := by
  rw [Relay.giveUp, modify]
  rcases hc : r.conns i with _ | c
  · exact h.destroy
  · exact (h.setConn hc _).destroy

theorem maybeFinish (h : Tracked none r) : Tracked none (r.connMaybeFinish i) := by
  unfold connMaybeFinish
  split
  · exact h
  · split
    · exact h.relax.destroy
    · exact h

theorem socketLoop (h : Tracked (some i) r) (answers) :
    Tracked (some i) (socketLoop i answers r).1 := by
  obtain ⟨ho, hw, hold⟩ := socketLoop_only i answers r
  rw [Tracked, hw]
  exact h.touch ho fun c' hc' => (hold c' hc').imp fun _ h => h.1

theorem flushToSocket (h : Tracked (some i) r) (answers) :
    Tracked (some i) (r.flushToSocket i answers).1
      ∧ ((r.flushToSocket i answers).2 = true → Tracked none (r.flushToSocket i answers).1) := by
  have ht := h.socketLoop answers
  unfold Relay.flushToSocket
  split <;> rename_i r₁ heq <;> rw [heq] at ht
  · have hshut : Tracked (some i) (r₁.shutdown i) := by
      unfold shutdown
      split
      · exact ht
      · split
        · exact ht.setConn ‹_› _
        · exact ht
    exact ⟨hshut.mark.weaken, fun _ => hshut.mark⟩
  · exact ⟨ht, nofun⟩

/-- A socket that fails makes no difference to a connection that is polled for what it wants. -/
theorem flushAgain (h : Tracked none r) (answers) : Tracked none (r.flushToSocket i answers).1 := by
  by_cases hok : (r.flushToSocket i answers).2 = true
  · exact (h.relax.flushToSocket answers).2 hok
  obtain ⟨ho, hw, hold⟩ := socketLoop_only i answers r
  have hfail := socketLoop_failed (i := i) answers r
  unfold Relay.flushToSocket at hok ⊢
  generalize Relay.socketLoop i answers r = out at ho hw hold hfail hok ⊢
  obtain ⟨r₁, ok⟩ := out
  cases ok with
  | true => exact absurd rfl hok
  | false =>
    rw [Tracked, show r₁.interest = r.interest from hw]
    rcases hc' : r₁.conns i with _ | c'
    · exact (Interest.Tracks.touch h.relax ho fun _ hn => by simp [hc'] at hn).of_none hc'
    · obtain ⟨c, hc, -⟩ := hold c' hc'
      obtain ⟨-, d, hd, hsame⟩ := hfail c hc rfl
      exact h.set hc hsame ho hd

theorem flushToMux (h : Tracked none r) : Tracked none (r.flushToMux i) := by
  rcases hc : r.conns i with _ | c
  · rwa [flushToMux_none hc]
  have ht : Tracked (some i) (muxLoop i (((r.conns i).map (·.s2m.length)).getD 0) r).1 := by
    obtain ⟨ho, hw, -⟩ := muxLoop_only i (((r.conns i).map (·.s2m.length)).getD 0) r c hc
    rw [Tracked, hw]
    exact h.relax.touch ho fun _ _ => ⟨c, hc⟩
  unfold Relay.flushToMux
  split <;> rename_i r₁ heq <;> rw [heq] at ht
  · unfold flushed
    split
    · exact ht.of_none ‹_›
    · rename_i c₁ hc₁
      have hset : Tracked (some i) (r₁.setConn i c₁.unblock) := setConn ht hc₁ _
      dsimp only
      split
      · exact hset.closeStream.mark
      · exact hset.mark
  · exact ht.mark

theorem sockEof (h : Tracked none r) : Tracked none (r.onSockEof i) := by
  unfold onSockEof
  split
  · exact h
  rename_i c hc
  have h₁ : Tracked (some i) (r.setConn i c.eof) := h.relax.setConn hc _
  dsimp only
  split
  · exact maybeFinish h₁.closeStream.mark
  · exact maybeFinish h₁.mark

theorem readLoop : ∀ (answers : List ReadAnswer) {r : Relay}, Tracked none r →
    Tracked none (readLoop i answers r)
  | [], _, h => h
  | a :: as, r, h => by
    unfold Relay.readLoop
    split
    · exact h
    rename_i c hc
    cases a with
    | bytes b =>
      dsimp only
      split
      · exact h.sockEof
      have hcall : ∀ call, Tracked none (r.call call) := fun _ => h
      split
      · exact (hcall _).relax.giveUp
      split
      · exact ((hcall _).relax.setConn hc _).mark
      · rename_i hw
        refine readLoop as ((hcall _).keep hc (desired_congr rfl rfl ?_ rfl .rfl))
        rw [input, drop_eq_nil_of_le (Nat.not_lt.1 hw), append_nil]
    | eof => exact h.sockEof
    | again => exact h
    | error => exact h.relax.giveUp

theorem resetConn (h : Tracked (some i) r) : Tracked none (r.resetConn i) := by
  unfold Relay.resetConn
  split
  · exact h.of_none ‹_›
  · exact giveUp (r := r.call _) h

theorem sockWritable (h : Tracked none r) (sockErr answers) :
    Tracked none (r.onSockWritable i sockErr answers) := by
  unfold onSockWritable
  split
  · exact h
  rename_i c hc
  split
  · exact h.relax.resetConn
  have h₁ : Tracked none (r.sockConnected i c) := by
    unfold sockConnected
    split
    · exact (h.relax.setConn hc _).mark
    · exact h
  obtain ⟨h2, h3⟩ := h₁.relax.flushToSocket answers
  split
  · rename_i heq
    rw [heq] at h2
    exact h2.resetConn
  · rename_i heq
    rw [heq] at h3
    exact (h3 rfl).maybeFinish

theorem alloc (h : Tracked none r) (c) (hcn : r'.conns = (r.connAlloc c).1.conns)
    (hw : r'.interest = (r.connAlloc c).1.interest) :
    Tracked none (r'.connApplyInterest (r.connAlloc c).2) := by
  have hnew : (r.connAlloc c).1.conns (r.connAlloc c).2 = some c
      ∧ ((r.connAlloc c).1.interest.apply (r.connAlloc c).2 c.desired).Tracks none
        (r.connAlloc c).1.conns := by
    unfold connAlloc
    split <;> exact ⟨setConn_conns .., h.connect _ c⟩
  rw [connApplyInterest, hcn, hnew.1, hw]
  exact hcn ▸ hnew.2

/-- STREAM_DATA: a socket that fails leaves no mark, which shows where there was nothing to write
before. -/
theorem streamData (h : Tracked none r) {sid b answers}
    (hf : ∀ i ∈ r.sidmapGet sid, ∀ c ∈ r.conns i, c.connecting = false → c.m2s = [] →
      ((r.setConn i (c.arrive b)).flushToSocket i answers).2 = true) :
    Tracked none (r.onStreamData sid b answers) := by
  unfold onStreamData
  split
  · exact h
  rename_i i hi
  split
  · exact h
  rename_i c hc
  dsimp only
  have h₁ : Tracked (some i) (r.setConn i (c.arrive b)) := h.relax.setConn hc _
  split
  · exact h₁.mark
  rename_i hcon
  by_cases hm : c.m2s = []
  · exact (h₁.flushToSocket answers).2 (hf i hi c hc (by simpa using hcon) hm)
  · have hd : (c.arrive b).desired = c.desired :=
      desired_congr rfl rfl rfl rfl (by simp [arrive, hm])
    exact (h.keep hc hd).flushAgain answers

theorem streamClosed (h : Tracked none r) (sid answers) :
    Tracked none (r.onStreamClosed sid answers) := by
  unfold onStreamClosed
  split
  · exact h
  rename_i i _
  have h₁ : Tracked none (r.modify i (·.closed)) := by
    rcases hc : r.conns i with _ | c
    · rwa [modify, hc]
    · rw [modify_eq hc]
      exact h.keep hc (desired_congr rfl rfl rfl rfl .rfl)
  refine maybeFinish ?_
  split
  · exact h₁
  · exact h₁.flushAgain answers

theorem writable (h : Tracked none r) (sid) : Tracked none (r.onWritable sid) := by
  have hsweep : ∀ (l : List ℕ) (r : Relay), Tracked none r → Tracked none (l.foldl (fun r i =>
      if (r.conns i).any (·.sendBlocked) then r.flushToMux i else r) r) := by
    intro l
    induction l with
    | nil => exact fun _ h => h
    | cons i l ih =>
      intro r h
      refine ih _ ?_
      dsimp only
      split
      · exact h.flushToMux
      · exact h
  unfold onWritable
  split
  · exact hsweep _ r h
  · split
    · exact h
    · exact h.flushToMux

end Tracked

/-! ### Runs -/

/-- No socket fails that is written to for the first time since it was drained, while STREAM_DATA is
handled. -/
def FlushesOn (r : Relay) (a : EventAnswer) : Event → Prop
  | .data sid b => ∀ i ∈ r.sidmapGet sid, ∀ c ∈ r.conns i, c.connecting = false → c.m2s = [] →
      ((r.setConn i (c.arrive b)).flushToSocket i a.writes).2 = true
  | _ => True

def Flushes (r : Relay) : Move → Prop
  | .event a => ∀ ev ∈ (muxNextEvent r.mux).2, FlushesOn (r.call .nextEvent) a ev
  | _ => True

instance FlushesOn.decidable (r : Relay) (a : EventAnswer) : ∀ ev, Decidable (FlushesOn r a ev)
  | .data sid _ => inferInstanceAs (Decidable (∀ i ∈ r.sidmapGet sid, ∀ c ∈ r.conns i, _))
  | .opened .. | .closed _ | .reset .. | .writable _ | .peerHello .. | .capacity _ | .goaway ..
  | .fatal _ => inferInstanceAs (Decidable True)

instance Flushes.decidable (r : Relay) : ∀ m, Decidable (r.Flushes m)
  | .event _ => inferInstanceAs (Decidable (∀ ev ∈ (muxNextEvent r.mux).2, _))
  | .flushDirty | .timer _ | .stash _ | .recv | .advance _ | .halt | .listener _ | .readable ..
  | .writable .. => inferInstanceAs (Decidable True)

/-- An event marks the connections that it changes. -/
theorem Tracked.event {hmac a ev} (h : Tracked none r) (hf : FlushesOn r a ev) :
    Tracked none (r.onEvent hmac a ev) := by
  unfold onEvent
  cases ev with
  | peerHello _ _ _ _ auth nonce =>
    simp only [onPeerHello]
    split
    · exact h
    · split <;> exact h
  | opened sid m =>
    dsimp only
    split
    · unfold openBackendConn
      split
      · exact h
      · exact h.alloc { sid := sid, connecting := true } rfl rfl
    · exact h
  | data sid b => exact h.streamData hf
  | closed sid => exact h.streamClosed sid a.writes
  | reset sid code =>
    dsimp only
    split
    · exact h
    · exact h.relax.giveUp
  | writable sid => exact h.writable sid
  | goaway | capacity | fatal => exact h

theorem Tracked.accept (h : Tracked none r) (peer) : Tracked none (r.acceptOne peer) := by
  unfold acceptOne
  split
  · exact h
  split
  · exact h
  · rename_i sid _
    exact Tracked.alloc (r := r.call (.open peer)) h { sid := sid } rfl rfl

theorem Tracked.acceptPublic : ∀ (peers : List Bytes) {r : Relay}, Tracked none r →
    Tracked none (Relay.acceptPublic peers r)
  | [], r, h => by
    unfold Relay.acceptPublic
    split
    · exact h
    · exact h
  | peer :: peers, r, h => by
    unfold Relay.acceptPublic
    split
    · exact h
    · exact (h.accept peer).acceptPublic peers

/-- Every move that flushes what it changes keeps the marks. -/
theorem Tracked.move {hmac m} (h : Tracked none r) (hm : r.Flushes m) :
    Tracked none (r.move hmac m) := by
  cases m with
  | flushDirty =>
    have hs : (r.move hmac .flushDirty).interest.Settled r.conns := settled_flushDirty h
    exact ⟨fun j c hj => (hs.loop j c hj).trans (hs.cur j c hj).symm,
      fun j c hj hd => absurd hd (by rw [hs.clean j c hj]; nofun),
      fun j c _ hj => .inr (hs.cur j c hj)⟩
  | event a =>
    simp only [Relay.move, nextEvent]
    split
    · exact h
    · rename_i ev hev
      exact Tracked.event (r := r.call .nextEvent) h (hm ev hev)
  | listener peers =>
    simp only [Relay.move, onListener]
    split
    · exact h.acceptPublic peers
    · exact h
  | readable i answers =>
    simp only [Relay.move, onSockReadable]
    split
    · exact h
    · split
      · exact h
      · exact h.readLoop answers
  | writable i sockErr answers => exact h.sockWritable sockErr answers
  | timer | stash | recv | advance | halt => exact h

/-- Where no socket fails under STREAM_DATA that had nothing to write, `flush_dirty` leaves every
connection polled for what it wants. -/
theorem interest_never_stale {hmac : Hmac} {opt : RelayOpts}
    {nonce : Nonce} {r₀ : Relay}
    (h₀ : relayNew hmac opt nonce = some r₀) (h : Reach (ofFun (move hmac)) Flushes r₀ r) :
    ∀ i c, r.flushDirty.conns i = some c → r.flushDirty.interest.loop i = some c.desired := by
  have hstart : Tracked none r₀ := by
    obtain ⟨s, -, rfl⟩ := Option.map_eq_some_iff.1 h₀
    exact ⟨nofun, nofun, nofun⟩
  have hi := h.inv hstart fun r m r' hi hm (hs : r' = r.move hmac m) => hs ▸ hi.move hm
  exact (settled_flushDirty hi).loop

/-- The backend is connected, and a byte comes for it. -/
def byteRun (answer : WriteAnswer) : List Move :=
  plugIn .acceptor {} ++ hears (synFrame 2 []) ++ [.writable 0 false [], .flushDirty,
    .stash (encode (dataFrame 2 [7])), .recv, .event { writes := [answer] }]

/-- The backend takes it. -/
theorem interest_never_stale_byteRun :
    ∃ r : Relay, (∃ c, r.flushDirty.conns 0 = some c ∧ c.written = [7])
      ∧ ∀ i c, r.flushDirty.conns i = some c → r.flushDirty.interest.loop i = some c.desired := by
  let l := byteRun (.wrote 1)
  have hnew : (relayNew nullHmac backendOpts zeroNonce).any fun r₀ =>
      decide (Allowed (move nullHmac) Flushes r₀ l)
        && ((l.foldl (move nullHmac) r₀).conns 0).any fun c => c.written == [7] := by
    decide +kernel
  obtain ⟨r₀, h₀, h⟩ := (Option.any_eq_true _ _).1 hnew
  rw [Bool.and_eq_true, decide_eq_true_iff] at h
  obtain ⟨c, hc, hw⟩ := (Option.any_eq_true _ _).1 h.2
  exact ⟨l.foldl (move nullHmac) r₀, ⟨c, hc, beq_iff_eq.1 hw⟩,
    interest_never_stale h₀ (.foldl l h.1)⟩

/-- The write fails: the connection has a byte to write, and is polled for reading only. -/
theorem interest_stale :
    ∃ r₀ r, relayNew nullHmac backendOpts zeroNonce = some r₀
      ∧ Reach (ofFun (move nullHmac)) (fun _ _ => True) r₀ r
      ∧ ∃ c, r.flushDirty.conns 0 = some c ∧ c.desired = (true, true)
        ∧ r.flushDirty.interest.loop 0 = some (true, false) := by
  let l := byteRun .error
  have hnew : (relayNew nullHmac backendOpts zeroNonce).any fun r₀ =>
      ((l.foldl (move nullHmac) r₀).conns 0).any (fun c => c.desired == (true, true))
        && (l.foldl (move nullHmac) r₀).flushDirty.interest.loop 0 == some (true, false) := by
    decide +kernel
  obtain ⟨r₀, h₀, h⟩ := (Option.any_eq_true _ _).1 hnew
  rw [Bool.and_eq_true, beq_iff_eq] at h
  obtain ⟨c, hc, hd⟩ := (Option.any_eq_true _ _).1 h.1
  refine ⟨r₀, l.foldl (move nullHmac) r₀, h₀, .foldl l ?_, c, hc, beq_iff_eq.1 hd, h.2⟩
  simp [l, byteRun, plugIn, hears, Allowed]

end Relay

end MuxProtocol
