import MuxProtocol.Proofs.Served
import MuxProtocol.Proofs.Wakeup

/-!
# The event queue is bounded

`mux_recv` looks at the soft cap between two frames only. A frame queues at most two events, but for
a credit to the connection, which may wake every blocked stream; so the bound rests on the number of
streams, which the two admission checks keep below the larger of the two limits.
-/

namespace MuxProtocol

open LinearProbe Machine Session Core

variable {c c' : Core} {a : Act} {s s' : Session} {f : Frame}

/-! ### The number of streams -/

/-- The larger of the two limits on the number of streams. -/
def Core.limit (c : Core) : ℕ := max c.maxStreams.toNat c.peerMaxStreams.toNat

@[simp] theorem count_modify (t : Table MuxStream) (i : ℕ) (g) :
    (t.modify i g).count = t.count := by
  unfold Table.modify
  split <;> rfl

theorem count_remove_le (t : Table MuxStream) (i : ℕ) : (t.remove i).count ≤ t.count := by
  unfold Table.remove
  split
  · exact Nat.sub_le _ _
  · exact Nat.le_refl _

theorem Inserted.count_eq {t t' : Table MuxStream} {st} {i : ℕ} (hw : TabWf t)
    (h : Inserted t t' st i) : t'.count = t.count + 1 := by
  rw [h.wf.count_eq, h.countIf, hw.count_eq]
  rfl

/-- Only a greeting changes the peer's limit, and there is no stream before it. -/
theorem Step.limit_eq (h : Step c a c') :
    c'.limit = c.limit ∨ (∃ f, a = .hear f) ∧ c.peerHelloSeen = false ∧ c'.tab = c.tab := by
  unfold limit
  cases h with
  | hello _ hs _ _ hl | helloReply _ _ hs _ _ hl | helloBad _ hs hl =>
    exact .inr ⟨⟨_, rfl⟩, hs, by simp⟩
  | _ => exact .inl (by simp)

theorem Step.seen_mono (h : Step c a c') (hs : c.peerHelloSeen = true) :
    c'.peerHelloSeen = true := by
  cases h with
  | hello _ h | helloReply _ _ h | helloBad _ h => simp [hs] at h
  | _ => simpa using hs

theorem Steps.limit_eq {ok : Core → Act → Prop} (h : Reach Step ok c c')
    (hs : c.peerHelloSeen = true) : c'.limit = c.limit := by
  refine (h.inv (I := fun c' => c'.peerHelloSeen = true ∧ c'.limit = c.limit) ⟨hs, rfl⟩ ?_).2
  rintro c₁ a c₂ ⟨hs₁, hlim⟩ - hstep
  refine ⟨hstep.seen_mono hs₁, (hstep.limit_eq.resolve_right fun h => ?_).trans hlim⟩
  simp [hs₁] at h

theorem Wakeful.count_eq_zero (hi : Wakeful c) (hs : c.peerHelloSeen = false) :
    c.tab.count = 0 := by
  rw [hi.wf.count_eq]
  refine tally_eq_zero fun i _ => ?_
  cases hsl : c.tab.slots i with
  | used st => exact (hi.early hs i st (Table.get_eq_some.2 hsl)).elim
  | _ => rfl

theorem Step.count_le (h : Step c a c') (hi : Wakeful c) (hc : c.tab.count ≤ c.limit) :
    c'.tab.count ≤ c'.limit := by
  have hins : ∀ {sid t i}, stInsert c.tab (freshStream c sid) = (t, some i) →
      t.count = c.tab.count + 1 := fun h => (Inserted.of_eq hi.wf h).count_eq hi.wf
  rcases h.limit_eq with hlim | ⟨-, hs, ht⟩
  · rw [hlim]
    cases h with
    | opened ho h =>
      have := ho.room
      have := hins h
      simp only [put_tab, alloc_tab, limit]
      omega
    | openFailed ho h =>
      have := ho.room
      have := hins h
      refine (count_remove_le _ _).trans ?_
      simp only [spill_tab, alloc_tab, limit]
      omega
    | accepted _ _ ha _ _ h =>
      have := ha.room
      have := hins h
      simp only [push_tab, seeSid_tab, setTab_tab, limit]
      omega
    | acceptedFin _ _ ha _ _ h =>
      have := ha.room
      have := hins h
      simp only [push_tab, edit_tab, seeSid_tab, setTab_tab, limit, count_modify]
      omega
    | acceptedRst _ _ ha _ h =>
      have := ha.room
      have := hins h
      refine (count_remove_le _ _).trans ?_
      simp only [push_tab, seeSid_tab, setTab_tab, limit]
      omega
    | closedFull | reset | resetBy | aborted => exact (count_remove_le _ _).trans hc
    | finLast =>
      refine (count_remove_le _ _).trans ?_
      simpa using hc
    | _ => simpa using hc
  · rw [ht, hi.count_eq_zero hs]
    exact Nat.zero_le _

/-- The streams of a session, within its limit. -/
structure Populated (c : Core) : Prop where
  wakeful : Wakeful c
  count_le : c.tab.count ≤ c.limit

theorem Step.populated (h : Step c a c') (hi : Populated c) : Populated c' :=
  ⟨h.wakeful hi.wakeful, h.count_le hi.wakeful hi.count_le⟩

theorem Steps.populated {ok : Core → Act → Prop} (h : Reach Step ok c c') (hi : Populated c) :
    Populated c' :=
  h.inv hi fun _ _ _ hi _ h => h.populated hi

/-! ### The events of a frame -/

theorem Core.length_die_le (c : Core) (code) :
    (c.die code).queued.length ≤ c.queued.length + 1 := by
  simp only [die_queued]
  split <;> simp

theorem Core.length_tryPut_le (c : Core) (ok f) :
    (c.tryPut ok f).queued.length ≤ c.queued.length + 1 := by
  simp only [tryPut_queued]
  split <;> simp

theorem Core.length_greet_le (c : Core) (ack ok) :
    (c.greet ack ok).queued.length ≤ c.queued.length + 1 :=
  c.length_tryPut_le ok (helloFrame c ack)

theorem Core.length_deliver_le (c : Core) (i : ℕ) (f) :
    (c.deliver i f).queued.length ≤ c.queued.length + 1 := by
  simp only [deliver_queued]
  split <;> simp

theorem Step.queued_le (h : Step c (.hear f) c') :
    c'.queued.length ≤ c.queued.length + 2 := by
  cases h with
  | @offend _ code => exact (length_die_le _ code).trans (by simp)
  | creditedOver | creditedOnOver => exact (length_die_le _ _).trans (by simp)
  | helloBad _ _ hl =>
    exact (length_die_le _ _).trans (by simp)
  | hello _ _ _ _ hl =>
    simp
  | helloReply ok _ _ _ _ hl =>
    exact (length_greet_le _ true ok).trans (by simp)
  | refused ok =>
    exact (length_tryPut_le _ ok (rstFrame f.sid muxCodeRefused)).trans (by simp)
  | ping ok => exact (length_tryPut_le _ ok _).trans (by simp)
  | @aborted _ _ _ code ok =>
    have := length_tryPut_le ((c.hear f).noteAbort code) ok (rstFrame f.sid code)
    simp only [drop_queued, push_queued, List.length_append, List.length_singleton]
    simp only [noteAbort_queued, hear_queued] at this
    omega
  | data => exact (length_deliver_le _ _ f).trans (by simp)
  | @fin _ i | @finLast _ i =>
    have := length_deliver_le (c.hear f) i f
    simp only [edit_queued, drop_queued, push_queued, List.length_append, List.length_singleton]
    simp only [hear_queued] at this
    omega
  | _ => simp

theorem wakeSlot_queued_le (s : Session) (i : ℕ) :
    (wakeSlot s i).queued.length ≤ s.queued.length + (s.tab.get i).isSome.toNat
      ∧ ∀ j ≠ i, (wakeSlot s i).tab.get j = s.tab.get j := by
  unfold wakeSlot
  split
  · exact ⟨Nat.le_add_right _ _, fun _ _ => rfl⟩
  · rename_i st hg
    split
    · rename_i hb
      have ht : (setBlocked s i false).tab = _ := congrArg tab (setBlocked_false s hg hb.1)
      refine ⟨by simp [evqPush, hg], fun j hj => ?_⟩
      change (setBlocked s i false).tab.get j = _
      rw [ht]
      exact Table.get_modify_of_ne hj _
    · exact ⟨Nat.le_add_right _ _, fun _ _ => rfl⟩

theorem sweep_queued_le (s : Session) :
    (sweep s).queued.length ≤ s.queued.length + s.tab.countIf fun _ => true := by
  -- over the first `n` slots; those behind them are as they were
  have h : ∀ n, ((List.range n).foldl wakeSlot s).queued.length
        ≤ s.queued.length + tally (Slot.holds fun _ => true) s.tab.slots n
      ∧ ∀ i ≥ n, ((List.range n).foldl wakeSlot s).tab.get i = s.tab.get i := by
    intro n
    induction n with
    | zero => exact ⟨Nat.le_refl _, fun _ _ => rfl⟩
    | succ n ih =>
      obtain ⟨hlen, hget⟩ := ih
      obtain ⟨hlen', hget'⟩ := wakeSlot_queued_le ((List.range n).foldl wakeSlot s) n
      rw [List.range_succ, List.foldl_append, List.foldl_cons, List.foldl_nil, tally_succ]
      refine ⟨?_, fun i hi => (hget' i (by omega)).trans (hget i (by omega))⟩
      have hused : (s.tab.get n).isSome = (s.tab.slots n).holds fun _ => true := by
        unfold Table.get
        cases s.tab.slots n <;> rfl
      rw [hget n (Nat.le_refl n), hused] at hlen'
      omega
  exact (h s.tab.cap).1

theorem onWindowUpdate_queued_le (hw : TabWf s.tab) (f) :
    (onWindowUpdate s f).queued.length ≤ s.queued.length + max 1 s.tab.count := by
  have hfatal : ∀ (s₁ : Session) code, s₁.queued = s.queued →
      (raiseFatal s₁ code).queued.length ≤ s.queued.length + max 1 s.tab.count := by
    intro s₁ code hq
    have := length_die_le s₁.toCore code
    rw [raiseFatal_toCore, ← hq]
    omega
  unfold onWindowUpdate
  split
  · exact hfatal s _ rfl
  dsimp only
  split
  · split
    · exact hfatal _ _ rfl
    · split
      · refine (sweep_queued_le _).trans ?_
        rw [← hw.count_eq]
        dsimp only
        omega
      · exact Nat.le_add_right _ _
  split
  · exact Nat.le_add_right _ _
  · split
    · exact hfatal _ _ rfl
    · split
      · simp only [evqPush, setBlocked_queued, List.length_append, List.length_singleton]
        omega
      · exact Nat.le_add_right _ _

theorem processFrame_queued_le (hw : s.toCore.Wf) (hd : s.dead = false) (f) :
    (processFrame s f).queued.length ≤ s.queued.length + max 2 s.tab.count := by
  by_cases ht : f.type = muxTWindowUpdate
  · -- the sweep over the table is not one step, so a credit is followed through the code
    unfold processFrame
    dsimp only
    split
    · rw [raiseFatal_toCore]
      exact (length_die_le _ _).trans (by dsimp only; omega)
    · rw [if_neg (by rw [ht]; decide)]
      refine (onWindowUpdate_queued_le ?_ f).trans ?_
      · exact hw.tab
      · dsimp only
        omega
  · obtain ⟨⟨c, -, -, hc, hstep⟩, -⟩ := processFrame_handles (f := f) hw hd
    rw [hc.resolve_right ht] at hstep
    exact hstep.queued_le.trans (by omega)

/-! ### Runs -/

/-- The queue of a session, with room for the FATAL of one that is alive. -/
structure Session.Bounded (s : Session) : Prop where
  streams : Populated s.toCore
  wf : s.toCore.Wf
  left : s.left ≤ muxEventQueueSoftCap + max 2 s.limit

theorem Pushes.count_eq (h : Pushes s s') :
    s'.q.count + s.queued.length = s.q.count + s'.queued.length := by
  obtain ⟨l, h1, h2⟩ := h.toList
  have := congrArg List.length h1
  have := congrArg List.length h2
  simp only [List.length_append, RingQueue.length_toList] at *
  omega

theorem processFrame_bounded (hw : s.toCore.Wf) (hp : Populated s.toCore) (hd : s.dead = false)
    (hq : s.q.count < muxEventQueueSoftCap) (f) : (processFrame s f).Bounded := by
  have hsteps : HandlesBy (fun _ _ => True) s (processFrame s f) :=
    (processFrame_handles hw hd).by (fun _ => trivial) fun _ _ _ => trivial
  refine ⟨Steps.populated hsteps.1 hp, hsteps.wf hw, ?_⟩
  have hpush : Pushes s (processFrame s f) :=
    Reach.inv (I := Pushes s) (Hushed.refl s).pushes (fun _ _ _ h _ hs => h.trans hs.pushes)
      (processFrame_strokes (l := False) nofun f nofun)
  have hlen := processFrame_queued_le hw hd f
  have hcount := hpush.count_eq
  have hlim : max 2 s.tab.count ≤ max 2 (processFrame s f).limit := by
    rcases hs : s.peerHelloSeen with _ | _
    · rw [hp.wakeful.count_eq_zero hs]
      omega
    · rw [Steps.limit_eq hsteps.1 hs]
      have := hp.count_le
      omega
  unfold left
  split <;> omega

theorem raiseFatal_bounded (h : s.Bounded) (hw : (raiseFatal s muxCodeProtocol).toCore.Wf)
    (hp : Populated (raiseFatal s muxCodeProtocol).toCore) :
    (raiseFatal s muxCodeProtocol).Bounded := by
  refine ⟨hp, hw, ?_⟩
  rw [(raiseFatal_hushed s muxCodeProtocol).left, raiseFatal_toCore]
  exact h.left

/-- The loop of `mux_recv` stops at the soft cap. -/
theorem recvLoop_bounded : ∀ (n : ℕ) {s : Session} (buf : Bytes), s.Bounded → s.dead = false →
    (recvLoop n s buf).1.Bounded
  | 0, _, _, h, _ => h
  | n + 1, s, buf, h, hd => by
    unfold recvLoop
    split
    · exact h
    split
    · exact h
    rename_i hq
    rw [ge_iff_le, Nat.not_le] at hq
    split
    · exact h
    · have hstep : Step s.toCore .garble (raiseFatal s muxCodeProtocol).toCore := by
        rw [raiseFatal_toCore]
        exact .garbled hd
      exact raiseFatal_bounded h (hstep.wf h.wf) (hstep.populated h.streams)
    · rename_i f used _
      have hf := processFrame_bounded h.wf h.streams hd hq f
      dsimp only
      split
      · exact hf
      · rename_i hlive
        exact recvLoop_bounded n _ hf (by simpa using hlive)

/-- No call fills the queue beyond its bound. -/
theorem Session.call_bounded (h : s.Bounded) (a) : (s.call a).Bounded := by
  have hsteps := call_steps h.wf (permits_any s a)
  have hkeep : (s.call a).left ≤ s.left → (∀ buf, a ≠ .recv buf) → (s.call a).Bounded := by
    intro hleft ha
    refine ⟨Steps.populated hsteps h.streams, Steps.wf hsteps h.wf, ?_⟩
    have := h.left
    have hquiet : Reach Step (fun _ b => ∀ f, b ≠ .hear f) s.toCore (s.call a).toCore :=
      call_steps h.wf ⟨by simp, fun buf hb => absurd hb (ha buf), by simp, by simp, by simp,
        by simp, by simp, by simp, by simp⟩
    have hlim := hquiet.inv (I := fun c => c.limit = s.limit) rfl fun _ _ _ hi hb hs =>
      (hs.limit_eq.resolve_right fun ⟨⟨f, hf⟩, _⟩ => hb f hf).trans hi
    rw [hlim]
    omega
  cases a with
  | recv buf =>
    change (muxRecv s buf).1.Bounded
    unfold muxRecv
    split
    · exact h
    · rename_i hd
      exact recvLoop_bounded _ buf h (by simpa using hd)
  | nextEvent =>
    refine hkeep ?_ nofun
    rcases hfr : s.front with _ | ev
    · rw [(front_none hfr).2]
    · rw [left_front hfr]
      exact Nat.le_succ _
  | _ => exact hkeep (call_hushed (by trivial) s).left.le nofun

/-- In every run, whatever the host pops: the queue holds the events below the soft cap, those of
one frame and a FATAL, and the streams are within the limit. -/
theorem event_queue_bounded {cfg : MuxConfig} {role : MuxRole} {s₀ : Session}
    (h₀ : muxSessionNew cfg role = some s₀)
    (h : Reach (ofFun Session.call) (fun _ _ => True) s₀ s) :
    s.q.count ≤ 4095 + max 2 (max s.maxStreams.toNat s.peerMaxStreams.toNat) + 1
      ∧ s.tab.count ≤ max s.maxStreams.toNat s.peerMaxStreams.toNat := by
  obtain ⟨hc, hw, -⟩ := muxSessionNew_spec h₀
  have hwake : Wakeful s₀.toCore := hc ▸ wakeful_start cfg role
  have hnew : s₀.Bounded := by
    refine ⟨⟨hwake, ?_⟩, hw, ?_⟩
    · have hs : s₀.peerHelloSeen = false := by
        rw [hc]
        cases role <;> rfl
      rw [hwake.count_eq_zero hs]
      exact Nat.zero_le _
    · have hq : s₀.q.count = 0 := by
        rw [← RingQueue.length_toList, muxSessionNew_queue h₀, List.length_nil]
      unfold Session.left
      rw [hq, muxEventQueueSoftCap]
      split <;> omega
  have hb : s.Bounded := h.inv hnew fun s a s' hi _ hs => by
    cases hs
    exact Session.call_bounded hi a
  refine ⟨?_, hb.streams.count_le⟩
  have := hb.left
  unfold Session.left Core.limit at this
  rw [show muxEventQueueSoftCap = 4096 from rfl] at this
  omega

/-- The peer greets, opens two streams and sends a byte, and the host pops nothing. -/
theorem event_queue_bounded_held : ∃ s₀ s, muxSessionNew { maxStreams := 2 } .acceptor = some s₀
    ∧ Reach (ofFun call) (fun _ _ => True) s₀ s ∧ s.q.count = 4 ∧ s.tab.count = 2
    ∧ s.q.count ≤ 4095 + max 2 (max s.maxStreams.toNat s.peerMaxStreams.toNat) + 1
    ∧ s.tab.count ≤ max s.maxStreams.toNat s.peerMaxStreams.toNat := by
  have hnew : muxSessionNew { maxStreams := 2 } .acceptor
      = some (initSession { maxStreams := 2 } .acceptor) := rfl
  have hl : Reach (ofFun call) (fun _ _ => True)
      (initSession { maxStreams := 2 } .acceptor) _ :=
    Reach.foldl [.recv (encode (helloFrame (initSession {} .dialer).toCore false)),
      .recv (encode (synFrame 1 []) ++ encode (synFrame 3 []) ++ encode (dataFrame 1 [7]))]
      (by decide +kernel)
  exact ⟨_, _, hnew, hl, by decide +kernel, by decide +kernel, event_queue_bounded hnew hl⟩

end MuxProtocol
