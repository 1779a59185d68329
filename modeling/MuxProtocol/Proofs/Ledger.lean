import MuxProtocol.Proofs.Link
import MuxProtocol.Proofs.RecvWindow
import MuxProtocol.Proofs.Served
import MuxProtocol.Proofs.Wakeup

/-!
# The account of a session

What a session has delivered to its host, what the host has passed to `mux_consume`, and what the
session still allows its peer. Of a live stream the session counts both; of a stream that is gone
only the host knows, and the bytes of it that the host has not passed on stay within the window.
-/

namespace MuxProtocol

open LinearProbe Machine List Option MuxStream Table Session Core Event

/-! ### Credits -/

section Credits

variable {sid sid' : UInt32} {n : ℕ} {cr cr' : List (UInt32 × ℕ)}

@[simp] theorem passed_nil : passed [] = 0 := rfl

@[simp] theorem passed_append : passed (cr ++ cr') = passed cr + passed cr' := by simp [passed]

@[simp] theorem passed_singleton : passed [(sid, n)] = n := by simp [passed]

@[simp] theorem creditOf_nil : creditOf sid [] = 0 := rfl

@[simp] theorem creditOf_append :
    creditOf sid (cr ++ cr') = creditOf sid cr + creditOf sid cr' := by simp [creditOf]

@[simp] theorem creditOf_singleton :
    creditOf sid [(sid', n)] = if sid' = sid then n else 0 := by
  by_cases h : sid' = sid <;> simp [creditOf, h]

end Credits

/-! ### The bytes of a stream -/

section StreamBytes

variable {sid : UInt32} {q q' : List Event} {e : Event}

@[simp] theorem streamBytes_nil : streamBytes sid [] = [] := rfl

@[simp] theorem streamBytes_append :
    streamBytes sid (q ++ q') = streamBytes sid q ++ streamBytes sid q' := by
  simp [streamBytes, notices]

/-- The bytes that an event delivers on the stream. -/
def Event.bytesOn (sid : UInt32) : Event → Bytes
  | .data id p => if id = sid then p else []
  | _ => []

@[simp] theorem streamBytes_cons :
    streamBytes sid (e :: q) = e.bytesOn sid ++ streamBytes sid q := by
  have h : ((e.notice sid).map Notice.bytes).getD [] = e.bytesOn sid := by
    cases e with
    | opened | data | closed | reset | writable =>
      simp only [notice, bytesOn]
      split <;> rfl
    | _ => rfl
  rw [← h]
  rcases hn : e.notice sid with _ | n <;> simp [streamBytes, notices, hn]

theorem streamBytes_ite (p : Prop) [Decidable p] :
    streamBytes sid (if p then q else q')
      = if p then streamBytes sid q else streamBytes sid q' := by
  split <;> rfl

theorem streamBytes_deliver (q) (f : Frame) :
    streamBytes sid (if f.payload = [] then q else q ++ [.data f.sid f.payload])
      = streamBytes sid q ++ if f.sid = sid then f.payload else [] := by
  by_cases hp : f.payload = []
  · simp [hp]
  · simp [hp, bytesOn]

end StreamBytes

/-! ### The streams of a session -/

section Tallied

variable {c c' : Core} {a : Act} {κ : UInt32 → ℕ}

/-- A record counts what was delivered on its stream and, with `κ`, what was consumed of it. -/
def Counts (κ : UInt32 → ℕ) (q : List Event) (st : MuxStream) : Prop :=
  st.delivered = (streamBytes st.sid q).length ∧ st.consumed = κ st.sid

structure Tallied (κ : UInt32 → ℕ) (c : Core) : Prop where
  records : c.dead = false → Every c.tab (Counts κ c.queued)
  window : ∀ sid, (streamBytes sid c.queued).length ≤ c.initWindow.toNat + κ sid
  used : ∀ sid, κ sid ≤ (streamBytes sid c.queued).length

/-- What a step delivers: nothing, or the payload of a frame that fits. -/
theorem Step.delivers (h : Step c a c') :
    (∀ sid, streamBytes sid c'.queued = streamBytes sid c.queued)
      ∨ ∃ f i st, a = .hear f ∧ stFind c.tab f.sid = some (i, st) ∧ Fits c f st ∧ c.dead = false
        ∧ ∀ sid, streamBytes sid c'.queued
          = streamBytes sid c.queued ++ if f.sid = sid then f.payload else [] := by
  cases h with
  | @data f i st hd _ hf _ hfit | @fin f i st hd _ hf _ hfit | @finLast f i st hd _ hf _ hfit =>
    exact .inr
      ⟨f, i, st, rfl, hf, hfit, hd, fun sid => by simp [streamBytes_deliver, bytesOn]⟩
  | notice e _ _ he =>
    have hz : ∀ sid, e.bytesOn sid = [] := by
      rcases he with ⟨rfl, -⟩ | ⟨rfl, -⟩ <;> simp [bytesOn]
    exact .inl fun sid => by simp [hz]
  | _ => exact .inl fun sid => by simp [streamBytes_ite, bytesOn]

theorem slot_unique {t : Table MuxStream} {i j : ℕ} {st st' : MuxStream} (hw : TabWf t)
    (hdis : t.Distinct sid) (hi : t.get i = some st) (hj : t.get j = some st')
    (hsid : st'.sid = st.sid) : j = i := by
  rw [get_eq_some] at hi hj
  exact hdis j (hw.lt_cap hj) i (hw.lt_cap hi) st' st hj hi hsid

theorem counts_modify {t : Table MuxStream} {κ' q q'} {i : ℕ} {st : MuxStream} {g} (hw : TabWf t)
    (hdis : t.Distinct sid) (hi : Every t (Counts κ q)) (hg : t.get i = some st)
    (hother : ∀ st', st'.sid ≠ st.sid → Counts κ q st' → Counts κ' q' st')
    (hself : Counts κ q st → Counts κ' q' (g st)) : Every (t.modify i g) (Counts κ' q') := by
  intro j st' hj
  by_cases hji : j = i
  · subst hji
    rw [get_modify_self hg, some_inj] at hj
    exact hj ▸ hself (hi j st hg)
  · rw [get_modify_of_ne hji] at hj
    exact hother st' (fun he => hji (slot_unique hw hdis hg hj he)) (hi j st' hj)

theorem counts_deliver {t : Table MuxStream} {q q'} {f : Frame} {i : ℕ} {st : MuxStream} {g}
    (hw : TabWf t) (hdis : t.Distinct sid) (hi : Every t (Counts κ q))
    (hf : stFind t f.sid = some (i, st))
    (hq : ∀ sid, streamBytes sid q' = streamBytes sid q ++ if f.sid = sid then f.payload else [])
    (hg : (g st).sid = st.sid ∧ (g st).delivered = st.delivered + f.payload.length
      ∧ (g st).consumed = st.consumed) : Every (t.modify i g) (Counts κ q') := by
  obtain ⟨hget, hsid⟩ := stFind_some hw hf
  obtain ⟨h1, h2, h3⟩ := hg
  refine counts_modify hw hdis hi hget (fun st' hne h => ⟨?_, h.2⟩) fun h => ⟨?_, ?_⟩
  · rw [hq, if_neg (hsid ▸ hne.symm), append_nil, h.1]
  · rw [h1, h2, hq, if_pos hsid.symm, length_append, h.1]
  · rw [h1, h3, h.2]

/-- A record counts the bytes that a step delivers on its stream. -/
theorem Step.counts (h : Step c a c') (ha : ∀ i n, a ≠ .useOn i n) (hw : TabWf c.tab)
    (hdis : c.tab.Distinct sid) (hd : c'.dead = false)
    (hi : Every c.tab (Counts κ c.queued))
    (hopen : ∀ m, OpenOk c m → Counts κ c.queued (freshStream c c.nextLocalSid))
    (hsyn : ∀ f, SynOk c f → Counts κ c.queued (freshStream c f.sid)) :
    Every c'.tab (Counts κ c'.queued) := by
  have hsame : (∀ sid, streamBytes sid c'.queued = streamBytes sid c.queued) →
      ∀ st, Counts κ c.queued st → Counts κ c'.queued st := fun hq st h =>
    ⟨by rw [hq]; exact h.1, h.2⟩
  cases h with
  | opened hok h =>
    have hs := hsame fun sid => by simp
    exact (hi.imp hs).insert hw h (hs _ (hopen _ hok))
  | accepted _ hok _ _ _ h =>
    have hs := hsame fun sid => by simp [bytesOn]
    exact (hi.imp hs).insert hw h (hs _ (hsyn _ hok))
  | acceptedFin _ hok _ _ _ h =>
    have hs := hsame fun sid => by simp [bytesOn]
    exact ((hi.imp hs).insert hw h (hs _ (hsyn _ hok))).modify fun _ h => h
  | acceptedRst _ hok _ _ h =>
    have hs := hsame fun sid => by simp [bytesOn]
    exact ((hi.imp hs).insert hw h (hs _ (hsyn _ hok))).remove
  | useOn n hg => exact absurd rfl (ha _ n)
  | block | short | wrote | closedHalf | creditOn | wake | creditedOn =>
    exact (hi.imp (hsame fun sid => by simp [bytesOn])).modify fun _ h => h
  | woken =>
    have hs := hsame fun sid => by simp [bytesOn]
    simp only [push_tab, unblock_tab, edit_tab, hear_tab, modify_modify]
    exact (hi.imp hs).modify fun _ h => h
  | closedFull | reset | resetBy | aborted =>
    exact (hi.imp (hsame fun sid => by simp [streamBytes_ite, bytesOn])).remove
  | data _ _ hf =>
    exact counts_deliver hw hdis hi hf (fun sid => by simp [streamBytes_deliver]) ⟨rfl, rfl, rfl⟩
  | fin _ _ hf =>
    simp only [push_tab, edit_tab, deliver_tab, hear_tab, modify_modify]
    exact counts_deliver hw hdis hi hf (fun sid => by simp [streamBytes_deliver, bytesOn])
      ⟨rfl, rfl, rfl⟩
  | finLast _ _ hf =>
    refine Every.remove ?_
    exact counts_deliver hw hdis hi hf (fun sid => by simp [streamBytes_deliver, bytesOn])
      ⟨rfl, rfl, rfl⟩
  | notice e _ _ he =>
    have hz : ∀ sid, e.bytesOn sid = [] := by
      rcases he with ⟨rfl, -⟩ | ⟨rfl, -⟩ <;> simp [bytesOn]
    exact hi.imp (hsame fun sid => by simp [hz])
  | openFailed | spill | expire | garbled | offend | creditedOver | creditedOnOver | helloBad =>
    cases hd
  | _ => exact hi.imp (hsame fun sid => by simp [streamBytes_ite, bytesOn])

theorem Sound.streamBytes_eq_nil {sid} (hs : Sound c) (h0 : sid ≠ muxSidControl)
    (hb : ¬ (c.view sid).Born (Own c.role sid)) : streamBytes sid c.queued = [] := by
  have hnil : notices sid c.queued = [] := by
    by_contra hne
    exact hb ((hs.tells sid h0).born hne)
  simp [streamBytes, hnil]

theorem Tallied.fresh {sid} (hi : Tallied κ c) (h : streamBytes sid c.queued = []) :
    Counts κ c.queued (freshStream c sid) := by
  have := hi.used sid
  rw [h] at this
  exact ⟨by simp [freshStream, h], (Nat.le_zero.1 this).symm⟩

theorem Sound.not_born_next (hs : Sound c) (hf : Few c) {m} (hok : OpenOk c m) :
    ¬ (c.view c.nextLocalSid).Born (Own c.role c.nextLocalSid) := by
  intro hb
  obtain ⟨hn, hown⟩ := hs.ids.next_eq hf hok
  have := (hs.ids.own _ (isSyn_mem_msgs.1 ⟨_, hb.1 hown, rfl⟩)).2
  omega

theorem Sound.not_born_syn (hs : Sound c) {f : Frame} (hd : c.dead = false) (hok : SynOk c f) :
    ¬ (c.view f.sid).Born (Own c.role f.sid) := by
  intro hb
  obtain ⟨m, hm, hsyn⟩ := hb.2 (parity_iff.1 hok.parity)
  have := hs.ids.heard hd _ (isSyn_mem_msgs.1 ⟨m, hm, hsyn⟩)
  exact UInt32.lt_irrefl _ (UInt32.lt_of_lt_of_le hok.fresh this)

theorem Step.tallied (h : Step c a c') (ha : ∀ i n, a ≠ .useOn i n) (hb : Bounded c) (hs : Sound c)
    (hf : Few c') (hi : Tallied κ c) : Tallied κ c' := by
  have hw : c'.initWindow = c.initWindow := congrArg (fun c => c.2.1) h.config_eq
  refine ⟨fun hd => ?_, fun sid => ?_, fun sid => ?_⟩
  · have hd₀ := h.alive hd
    exact h.counts ha hb.wf hs.ids.distinct hd (hi.records hd₀)
      (fun m hok => hi.fresh (hs.streamBytes_eq_nil hok.sid_ne (hs.not_born_next (h.few hf) hok)))
      fun f hok => hi.fresh (hs.streamBytes_eq_nil hok.sid_ne (hs.not_born_syn hd₀ hok))
  · rw [hw]
    rcases h.delivers with hq | ⟨f, i, st, -, hfind, hfit, hd, hq⟩
    · rw [hq]
      exact hi.window sid
    · rw [hq]
      split
      · rename_i he
        obtain ⟨hg, hsid⟩ := stFind_some hb.wf hfind
        obtain ⟨h1, h2, h3, h4⟩ := hb.stream i st hg
        obtain ⟨h5, h6⟩ := hi.records hd i st hg
        have hle := hfit.le_strm h2
        rw [hsid, he] at h5 h6
        rw [length_append, ← h5, ← h6]
        omega
      · rw [append_nil]
        exact hi.window sid
  · obtain ⟨l, hl⟩ := h.queued_prefix
    rw [← hl, streamBytes_append, length_append]
    exact Nat.le_add_right_of_le (hi.used sid)

theorem tallied_start (cfg role) : Tallied (fun _ => 0) (startCore cfg role) := by
  obtain ⟨-, hnone⟩ := startCore_tab cfg role
  refine ⟨fun _ i st hg => by simp [hnone i] at hg, fun sid => ?_, fun _ => Nat.zero_le _⟩
  simp [startCore_queued]

end Tallied

/-! ### `mux_consume` -/

section Consume

variable {s : Session}

theorem creditStream_every {P : MuxStream → Prop} {i : ℕ}
    (hP : ∀ st w p, P st → P { st with recvWin := w, recvPending := p })
    (h : Every s.tab P) : Every (creditStream s i).tab P
      ∧ (creditStream s i).consumed = s.consumed := by
  unfold creditStream
  split
  · exact ⟨h, rfl⟩
  · split_ifs
    · exact ⟨h, rfl⟩
    · exact ⟨h, rfl⟩
    · rename_i st _ _ _
      obtain ⟨h1, h2⟩ := creditEmit_tab (creditRounds st.recvPending) s st.sid st.recvWin
        st.recvPending
      dsimp only
      refine ⟨?_, h2⟩
      rw [h1]
      exact h.modify fun st => hP st _ _

/-- `mux_consume` counts on the stream, if it is there, and on the connection. -/
theorem muxConsume_counts {κ q} (hw : TabWf s.tab) (hdis : s.tab.Distinct sid)
    (hd : s.dead = false) (sid) (n : ℕ) (hi : Every s.tab (Counts κ q)) :
    Every (muxConsume s sid n).1.tab (Counts (fun x => κ x + if sid = x then n else 0) q)
      ∧ (muxConsume s sid n).1.consumed = s.consumed + n := by
  unfold muxConsume
  rw [if_neg (by simp [hd])]
  by_cases hn : n = 0
  · rw [if_pos hn, hn]
    simpa using hi
  rw [if_neg hn]
  dsimp only
  set s₁ : Session :=
    { s with sessRecvPending := s.sessRecvPending + toInt64 n, consumed := s.consumed + n } with hs₁
  obtain ⟨htab, hcons⟩ := creditSession_tab s₁
  have htab' : (creditSession s₁).tab = s.tab := htab
  rw [show stFind (creditSession s₁).tab sid = stFind s.tab sid by rw [htab']]
  rcases hf : stFind s.tab sid with _ | ⟨i, st⟩
  · refine ⟨?_, hcons⟩
    rw [htab']
    intro j st' hj
    obtain ⟨h1, h2⟩ := hi j st' hj
    refine ⟨h1, h2.trans ?_⟩
    have hne := (stFind_none hw).1 hf st' (mem_of_get hw hj)
    simp [hne.symm]
  · obtain ⟨hg, hsid⟩ := stFind_some hw hf
    have h := creditStream_every (s := { creditSession s₁ with
        tab := (creditSession s₁).tab.modify i fun st =>
          { st with recvPending := st.recvPending + toInt64 n, consumed := st.consumed + n } })
      (P := Counts (fun x => κ x + if sid = x then n else 0) q) (i := i) (fun _ _ _ h => h) (by
        rw [htab']
        refine counts_modify hw hdis hi hg (fun st' hne h => ⟨h.1, ?_⟩) fun h => ⟨h.1, ?_⟩
        · simp [h.2, hsid ▸ hne.symm]
        · simp [h.2, hsid])
    exact ⟨h.1, h.2.trans hcons⟩

end Consume

/-! ### The account -/

section Account

variable {s : Session} {cr : List (UInt32 × ℕ)} {a : Call} {sid : UInt32} {n : ℕ}

/-- Nothing is consumed. -/
def Frugal : Core → Act → Prop
  | _, .use _ | _, .useOn _ _ => False
  | _, _ => True

theorem permits_frugal (s) (ha : ∀ sid n, a ≠ .consume sid n) : Permits Frugal s a :=
  ⟨fun _ => trivial,
    fun _ _ => eachFrame_of_forall (fun _ _ _ _ _ => trivial) (fun _ => trivial) _ _ _,
    fun _ _ _ => trivial, fun _ _ _ _ => trivial, fun _ _ _ => trivial,
    fun sid n h => absurd h (ha sid n),
    fun _ _ _ => trivial, fun _ _ _ => trivial, fun _ _ _ => trivial⟩

theorem Step.consumed_eq {c c' : Core} {a} (h : Step c a c') (ha : Frugal c a) :
    c'.consumed = c.consumed := by
  cases h with
  | use | useOn => exact ha.elim
  | _ => simp

/-- What the host has passed to `mux_consume` agrees with what the session has counted. A dead
session counts no more. -/
structure Account (s : Session) (cr : List (UInt32 × ℕ)) : Prop where
  bounded : Bounded s.toCore
  wakeful : Wakeful s.toCore
  tallied : Tallied (creditOf · cr) s.toCore
  used : s.consumed ≤ passed cr
  alive : s.dead = false → s.consumed = passed cr

theorem account_new {cfg role} (h : muxSessionNew cfg role = some s) : Account s [] := by
  obtain ⟨hc, -⟩ := muxSessionNew_spec h
  have hz : s.consumed = 0 := by
    have : (startCore cfg role).consumed = 0 := by cases role <;> rfl
    rw [hc, this]
  refine ⟨hc ▸ bounded_start cfg role, hc ▸ wakeful_start cfg role, hc ▸ ?_, ?_, fun _ => ?_⟩
  · exact tallied_start cfg role
  · rw [hz]
    exact Nat.zero_le _
  · rw [hz]
    rfl

theorem Steps.account {c c' : Core} {κ} (h : Reach Step Frugal c c') (hs : Sound c) (hf : Few c')
    (hb : Bounded c) (hw : Wakeful c) (hi : Tallied κ c) :
    Bounded c' ∧ Wakeful c' ∧ Tallied κ c' ∧ c'.consumed = c.consumed := by
  induction h with
  | start => exact ⟨hb, hw, hi, rfl⟩
  | @step c₁ c₂ a hr ha h ih =>
    obtain ⟨h1, h2, h3, h4⟩ := ih (h.few hf)
    have hp : Prudent c₁ a := by cases a <;> trivial
    have hno : ∀ i n, a ≠ .useOn i n := by
      rintro i n rfl
      exact ha
    exact ⟨h.bounded hp h1, h.wakeful h2, h.tallied hno h1 (Steps.sound hr hs (h.few hf)) hf h3,
      (h.consumed_eq ha).trans h4⟩

theorem Account.call (h : Account s cr) (hs : Served s) (hf : Few (s.call a).toCore)
    (ha : ∀ sid n, a ≠ .consume sid n) : Account (s.call a) cr := by
  obtain ⟨h1, h2, h3, h4⟩ := Steps.account (call_steps hs.wf (permits_frugal s ha))
    hs.order.sound hf h.bounded h.wakeful h.tallied
  refine ⟨h1, h2, h3, h4 ▸ h.used, fun hd => ?_⟩
  rw [h4]
  exact h.alive (call_alive hs.wf hd)

theorem Session.call_streamBytes (hw : s.toCore.Wf) (ha : ∀ buf, a ≠ .recv buf) (sid) :
    streamBytes sid (s.call a).queued = streamBytes sid s.queued := by
  have hp : Permits (fun _ b => ∀ f, b ≠ .hear f) s a :=
    ⟨by simp, fun buf h => absurd h (ha buf), by simp, by simp, by simp, by simp, by simp, by simp,
      by simp⟩
  refine (call_steps hw hp).inv
    (I := fun c => streamBytes sid c.queued = streamBytes sid s.queued) rfl
    fun c b c' hc hb hs => ?_
  rcases hs.delivers with hq | ⟨f, -, -, rfl, -⟩
  · exact (hq sid).trans hc
  · exact absurd rfl (hb f)

/-- What is passed to `mux_consume` is counted, as long as it was delivered. -/
theorem Account.consume (h : Account s cr) (hs : Served s)
    (hall : passed cr + n ≤ deliveredBytes s.queued)
    (hone : creditOf sid cr + n ≤ (streamBytes sid s.queued).length) :
    Account (s.call (.consume sid n)) (cr ++ [(sid, n)]) := by
  have hκ : (creditOf · (cr ++ [(sid, n)]))
      = fun x => creditOf x cr + if sid = x then n else 0 := by
    funext x
    simp
  have hle : ∀ x, (if sid = x then n else 0) + creditOf x cr ≤ (streamBytes x s.queued).length := by
    intro x
    split
    · rename_i he
      rw [← he]
      omega
    · have := h.tallied.used x
      omega
  by_cases hd : s.dead = true
  · have hc := call_dead (a := .consume sid n) hd
    refine ⟨hc ▸ h.bounded, hc ▸ h.wakeful, ?_, ?_, by rw [hc]; simp [hd]⟩
    · rw [hκ, hc]
      refine ⟨by simp [hd], fun x => ?_, fun x => ?_⟩
      · exact (h.tallied.window x).trans (by omega)
      · have := hle x
        omega
    · rw [hc, passed_append, passed_singleton]
      exact Nat.le_add_right_of_le h.used
  · rw [Bool.not_eq_true] at hd
    have hcons : ConsumesDelivered s (.consume sid n) := by
      refine ⟨(h.alive hd) ▸ hall, ?_⟩
      rintro ⟨i, st⟩ hf
      obtain ⟨hg, hsid⟩ := stFind_some hs.wf.tab hf
      obtain ⟨h1, h2⟩ := h.tallied.records hd i st hg
      rw [h1, h2, hsid]
      exact hone
    have hsteps := call_steps hs.wf (hcons.permits hs.wf)
    have hany := call_steps hs.wf (permits_any s (.consume sid n))
    obtain ⟨h1, h2⟩ := muxConsume_counts hs.wf.tab hs.order.sound.ids.distinct hd sid n
      (h.tallied.records hd)
    have hw : (s.call (.consume sid n)).initWindow = s.initWindow :=
      congrArg (fun c => c.2.1) (Steps.config_eq hsteps)
    refine ⟨hsteps.inv h.bounded fun _ _ _ hi ha hs => hs.bounded ha hi,
      hany.inv h.wakeful fun _ _ _ hi _ hs => hs.wakeful hi, ?_, ?_, fun _ => ?_⟩
    · rw [hκ]
      have hq := call_streamBytes (a := .consume sid n) hs.wf (by simp)
      refine ⟨fun _ => h1.imp fun st h => ⟨by rw [hq]; exact h.1, h.2⟩, fun x => ?_, fun x => ?_⟩
      · rw [hq, hw]
        exact (h.tallied.window x).trans (by omega)
      · have := hle x
        rw [hq]
        omega
    · rw [passed_append, passed_singleton]
      exact h2.le.trans (Nat.add_le_add_right h.used n)
    · rw [passed_append, passed_singleton, ← h.alive hd]
      exact h2

theorem Account.window (h : Account s cr) (hs : Served s) (sid) :
    (streamBytes sid s.popped).length ≤ s.initWindow.toNat + creditOf sid cr := by
  have := h.tallied.window sid
  rw [hs.queued_eq, streamBytes_append, length_append] at this
  omega

theorem Account.session (h : Account s cr) (hs : Served s) :
    deliveredBytes s.popped ≤ s.sessionWindow.toNat + passed cr := by
  obtain ⟨-, -, h1, h2, h3, h4⟩ := h.bounded
  have := h.used
  rw [hs.queued_eq, deliveredBytes_append] at h1
  omega

end Account

/-! ### Bytes accepted -/

section Accepted

variable {s : Session} {sid : UInt32}

theorem writeLoop_le : ∀ (n : ℕ) (s : Session) (sid : UInt32) (p : Bytes),
    (writeLoop n s sid p).2 ≤ p.length
  | 0, _, _, _ => Nat.zero_le _
  | n + 1, s, sid, p => by
    unfold writeLoop
    split
    · exact Nat.zero_le _
    · rcases emit s muxTData 0 sid (p.take muxMaxDataFrame) with ⟨s₁, e | ⟨⟩⟩
      · exact Nat.zero_le _
      · have := writeLoop_le n s₁ sid (p.drop muxMaxDataFrame)
        rw [length_drop] at this
        dsimp only
        rw [length_take]
        omega

theorem accepted_le (s sid) (p : Bytes) : accepted (muxWrite s sid p).2 ≤ p.length := by
  unfold muxWrite
  split
  · exact Nat.zero_le _
  · split
    · exact Nat.zero_le _
    · rename_i i st _
      split
      · exact Nat.zero_le _
      · dsimp only
        split
        · exact Nat.zero_le _
        · generalize (if (p.length : ℤ) > min st.sendWin s.sessSendWin then
            (min st.sendWin s.sessSendWin).toNat else p.length) = want
          have h1 := writeLoop_le want s sid (p.take want)
          exact (length_take_le' want p).trans' h1

theorem Session.write_bytes (hw : s.toCore.Wf) (id) (p : Bytes) :
    bytesOf (msgs sid (s.call (.write id p)).sent) = bytesOf (msgs sid s.sent)
      ++ if id = sid then p.take (accepted (muxWrite s id p).2) else [] := by
  refine (muxWrite_bytes hw id p).trans (congrArg _ ?_)
  rw [Party.acceptedBy]
  rcases (muxWrite s id p).2 with err | k
  · simp [accepted, Except.toOption]
  · by_cases h : id = sid <;> simp [accepted, Except.toOption, h]

end Accepted

/-! ### Writes that were cut short -/

section Marked

variable {c c' : Core} {s : Session} {P : List Event} {sid : UInt32} {a : Call}

/-- Of the stream `sid`, where it can be written: the last write was cut short, and among the events
`P` there is no `WRITABLE` for it since. -/
def Marked (P : List Event) (sid : UInt32) (st : MuxStream) : Prop :=
  st.sid = sid → st.life ≠ .hclLocal → ∃ n, st.shortAt = some n ∧ .writable sid ∉ P.drop n

/-- Whatever a step does, a write that was cut short waits for its WRITABLE. -/
theorem Step.marked {a} (h : Step c a c') (hs : Sound c) (hf : Few c)
    (hb : (c.view sid).Born (Own c.role sid)) (hP : P.length ≤ c.queued.length)
    (hd : c'.dead = false) (hi : Every c.tab (Marked P sid)) : Every c'.tab (Marked P sid) := by
  have hw := hs.ids.wf
  have hd₀ := h.alive hd
  have hnew : ∀ {id : UInt32} (l : Life), ¬ (c.view id).Born (Own c.role id) →
      Marked P sid { freshStream c id with life := l } := by
    intro id l hno hid
    exact absurd ((show id = sid from hid) ▸ hb) hno
  have hopen : ∀ {m}, OpenOk c m → Marked P sid (freshStream c c.nextLocalSid) := fun hok =>
    hnew _ (hs.not_born_next hf hok)
  have hsyn : ∀ {f}, SynOk c f → ∀ l, Marked P sid { freshStream c f.sid with life := l } :=
    fun hok l => hnew l (hs.not_born_syn hd₀ hok)
  cases h with
  | opened hok h => exact hi.insert hw h (hopen hok)
  | accepted _ hok _ _ _ h => exact hi.insert hw h (hsyn hok _)
  | acceptedFin _ hok _ _ _ h =>
    exact (hi.insert hw h (hsyn hok _)).modify_at (Inserted.of_eq hw h).get (hsyn hok .hclRemote)
  | acceptedRst _ hok _ _ h => exact (hi.insert hw h (hsyn hok _)).remove
  | short hg =>
    refine hi.modify_at hg fun _ _ => ⟨_, rfl, ?_⟩
    rw [drop_eq_nil_of_le hP]
    simp
  | closedHalf => exact hi.modify fun _ _ _ hl => absurd rfl hl
  | block | wrote | useOn | creditOn | wake | creditedOn | data =>
    exact hi.modify fun _ h => h
  | woken =>
    simp only [push_tab, unblock_tab, edit_tab, hear_tab, modify_modify]
    exact hi.modify fun _ h => h
  | closedFull | reset | resetBy | aborted => exact hi.remove
  | fin _ _ hfind _ _ _ hl =>
    obtain ⟨hg, hsid⟩ := stFind_some hw hfind
    simp only [push_tab, edit_tab, deliver_tab, hear_tab, modify_modify]
    refine hi.modify_at hg fun hid _ => ?_
    have hm := hi _ _ hg
    exact hm hid hl
  | finLast =>
    refine Every.remove ?_
    exact hi.modify fun _ h => h
  | openFailed | spill | expire | garbled | offend | creditedOver | creditedOnOver | helloBad =>
    cases hd
  | _ => exact hi

/-- The same over a call. -/
theorem Served.marked_call (hs : Served s) (hf : Few (s.call a).toCore)
    (h0 : sid ≠ muxSidControl) (hb : (s.toCore.view sid).Born (Own s.role sid))
    (hP : P.length ≤ s.queued.length) (hd : (s.call a).dead = false)
    (hi : Every s.tab (Marked P sid)) : Every (s.call a).tab (Marked P sid) := by
  have hsteps := call_steps hs.wf (permits_any s a)
  have : ∀ {c'}, Reach Step (fun _ _ => True) s.toCore c' → Few c' → c'.dead = false →
      Every c'.tab (Marked P sid) ∧ (c'.view sid).Born (Own c'.role sid)
        ∧ P.length ≤ c'.queued.length := by
    intro c' h
    induction h with
    | start => exact fun _ _ => ⟨hi, hb, hP⟩
    | @step c₁ c₂ a hr ha h ih =>
      intro hf hd
      obtain ⟨h1, h2, h3⟩ := ih (h.few hf) (h.alive hd)
      have hsound := Steps.sound hr hs.order.sound (h.few hf)
      exact ⟨h.marked hsound (h.few hf) h2 h3 hd h1,
        h.role_eq ▸ (h.view hsound.ids hf h0).born h2, h3.trans h.queued_prefix.length_le⟩
  exact (this hsteps hf hd).1

theorem length_popped_le (s : Session) : s.popped.length ≤ s.queued.length := by
  rw [popped, length_take]
  exact Nat.min_le_right _ _

theorem Marked.take {st ev} (h : Marked P sid st) (hev : ev ≠ .writable sid) :
    Marked (P ++ [ev]) sid st := by
  intro hid hl
  obtain ⟨n, hn, hno⟩ := h hid hl
  refine ⟨n, hn, fun hm => ?_⟩
  rw [drop_append] at hm
  rcases mem_append.1 hm with hm | hm
  · exact hno hm
  · exact hev (mem_singleton.1 (mem_of_mem_drop hm)).symm

theorem Served.marked_next (hs : Served s) (hk : s.Knows sid) (ha : a ≠ .nextEvent)
    (hf : Few (s.call a).toCore) (hd : (s.call a).dead = false)
    (hm : Every s.tab (Marked s.popped sid)) :
    Every (s.call a).tab (Marked (s.call a).popped sid) := by
  rw [(call_pushes ha s).popped]
  exact hs.marked_call hf (hs.knows_ne hk) (hs.born_of_knows hk) (length_popped_le s) hd hm

theorem Served.marked_pop {ev} (hs : Served s) (hfr : s.front = some ev) (hev : ev ≠ .writable sid)
    (hm : Every s.tab (Marked s.popped sid)) :
    Every (s.call .nextEvent).tab (Marked (s.call .nextEvent).popped sid) := by
  rw [hs.popped_front hfr, (front_some hfr).2]
  exact fun i st hi => (hm i st hi).take hev

theorem muxWrite_error {p err} (h : (muxWrite s sid p).2 = .error err) :
    (muxWrite s sid p).1 = s ∧ (s.dead = true ∨ stFind s.tab sid = none
      ∨ ∃ i st, stFind s.tab sid = some (i, st) ∧ st.life = .hclLocal) := by
  unfold muxWrite at h ⊢
  by_cases hd : s.dead = true
  · rw [if_pos hd]
    exact ⟨rfl, .inl hd⟩
  rw [if_neg hd] at h ⊢
  rcases hf : stFind s.tab sid with _ | ⟨i, st⟩
  · exact ⟨rfl, .inr (.inl rfl)⟩
  rw [hf] at h
  dsimp only at h ⊢
  by_cases hl : st.life = .hclLocal
  · rw [if_pos hl]
    exact ⟨rfl, .inr (.inr ⟨i, st, rfl, hl⟩)⟩
  rw [if_neg hl] at h
  split at h <;> cases h

theorem Served.marked_write (hs : Served s) {p : Bytes}
    (hlt : accepted (muxWrite s sid p).2 < p.length) (hd : (s.call (.write sid p)).dead = false) :
    Every (s.call (.write sid p)).tab (Marked (s.call (.write sid p)).popped sid) := by
  have hs' := hs.call (.write sid p) (call_few hs.wf hs.few (by simp))
  have hdis := hs'.order.sound.ids.distinct
  rcases hr : (muxWrite s sid p).2 with err | k
  · obtain ⟨heq, hwhy⟩ := muxWrite_error hr
    have heq' : s.call (.write sid p) = s := heq
    rw [heq'] at hd ⊢
    intro j st hj hid hl
    rcases hwhy with h | h | ⟨i, st', h, hl'⟩
    · simp [h] at hd
    · exact absurd hid ((stFind_none hs.wf.tab).1 h st (mem_of_get hs.wf.tab hj))
    · obtain ⟨hg', hsid'⟩ := stFind_some hs.wf.tab h
      have := slot_unique hs.wf.tab (heq' ▸ hdis) hg' hj (hid.trans hsid'.symm)
      subst this
      rw [hg', some_inj] at hj
      exact absurd (hj ▸ hl') hl
  · rw [hr] at hlt
    obtain ⟨i, st, hg, hsid, hshort⟩ := muxWrite_short hs.wf (Prod.ext rfl hr) hlt
    intro j st' hj hid hl
    have := slot_unique hs'.wf.tab hdis hg hj (hid.trans hsid.symm)
    subst this
    have heq := hg.symm.trans hj
    rw [some_inj] at heq
    subst heq
    refine ⟨_, hshort, ?_⟩
    have hnil := drop_eq_nil_of_le (length_popped_le (s.call (.write sid p)))
    exact fun hm => not_mem_nil (hnil ▸ hm)

theorem Session.call_wakeful (hw : s.toCore.Wf) (hi : Wakeful s.toCore) (a) :
    Wakeful (s.call a).toCore :=
  (call_steps hw (permits_any s a)).inv hi fun _ _ _ hi _ h => h.wakeful hi

/-- The `WRITABLE` of a write that was cut short is still to come, or is queued. -/
theorem Served.wakes {i : ℕ} {st : MuxStream} (hs : Served s) (hw : Wakeful s.toCore)
    (hd : s.dead = false) (hm : Every s.tab (Marked s.popped sid))
    (hf : stFind s.tab sid = some (i, st)) (hl : st.life ≠ .hclLocal) :
    st.sendBlocked = true ∨ .writable sid ∈ s.q.toList := by
  obtain ⟨hg, hsid⟩ := stFind_some hs.wf.tab hf
  obtain ⟨n, hn, hno⟩ := hm i st hg hsid hl
  obtain ⟨-, h⟩ := hw.owed hd i st hg n hn
  refine h.imp_right fun h => ?_
  rw [hsid, hs.queued_eq, drop_append] at h
  exact mem_of_mem_drop ((mem_append.1 h).resolve_left hno)

end Marked

end MuxProtocol
