import MuxProtocol.Proofs.Agreement
import MuxProtocol.Proofs.Greeting

/-!
# Two sessions do not accuse each other

Between two sessions whose hosts consume no more than was delivered, and of which the acceptor asks
for no control frame before the dialer's greeting, no frame is an offence: each is in order where it
is heard, and within the windows that its receiver keeps.
-/

namespace MuxProtocol

open LinearProbe Machine Party Core

variable {x x' y : Core} {a : Act} {f : Frame} {sid : UInt32}

/-! ### The invariant -/

def Frame.isHello (f : Frame) : Bool := f.type = muxTHello ∨ f.type = muxTHelloAck

/-- What `x` keeps next to its peer `y`, if both have honest hosts. -/
structure Honest (x y : Core) : Prop where
  peers : Peers x y
  bounded : Bounded x
  greets : Greets x
  once : ∀ f ∈ x.sent.tail, f.isHello = false
  quiet : x.helloSent = false → deliveredBytes x.queued = 0
  seen : x.peerHelloSeen = true → x.got ≠ []
  modest : ∀ sid, sid ≠ muxSidControl → Modest (x.view sid)
  fatal : ∀ code, .fatal code ∈ x.queued → code = muxCodeInternal
  aborts : x.aborts = []

/-- What an honest host does. -/
def Fair (c : Core) (a : Act) : Prop :=
  Prudent c a ∧ (a = .control → c.role = .acceptor → c.peerHelloSeen = true)

/-! ### The frames heard -/

section Heard

theorem greeting_isHello (c : Core) : c.greeting.isHello = true := by
  unfold greeting
  cases decide (c.role = .acceptor) <;> rfl

theorem Honest.first_heard (hx : Honest x y) (hy : Honest y x) (hd : x.dead = false)
    (hs : x.peerHelloSeen = false) (hf : FromPeer x y (.hear f)) : f = y.greeting := by
  obtain ⟨-, -, hgot⟩ := hx.peers.conn.early hs
  have hpre : x.got ++ [f] <+: y.sent := hf
  rw [hgot hd, List.nil_append] at hpre
  obtain ⟨r, hr⟩ := hpre
  have hsent : y.helloSent = true := by
    by_contra h
    have := (hy.greets.silent (by simpa using h)).1
    simp [this] at hr
  have hhead := hy.greets.first hsent
  rw [← hr] at hhead
  simpa using hhead

theorem Honest.not_hello (hx : Honest x y) (hy : Honest y x) (hs : x.peerHelloSeen = true)
    (hf : FromPeer x y (.hear f)) : f.isHello = false := by
  obtain ⟨r, hr⟩ : x.got ++ [f] <+: y.sent := hf
  obtain ⟨g, l, hl⟩ := List.exists_cons_of_ne_nil (hx.seen hs)
  refine hy.once f ?_
  rw [← hr, hl]
  simp

theorem Honest.within_session (hx : Honest x y) (hy : Honest y x)
    (hf : FromPeer x y (.hear f)) (h0 : f.cost ≠ 0) : (f.cost : ℤ) ≤ x.sessRecvWin := by
  have hcost := costOf_le (show x.got ++ [f] <+: y.sent from hf)
  simp at hcost
  have hseen : y.peerHelloSeen = true := by
    by_contra h
    have := (hy.peers.conn.early (by simpa using h)).2.1
    omega
  have h1 := hy.peers.conn.send hseen
  have h2 := hy.peers.conn.room
  have h3 := grantsOf_le hy.peers.conn.got
  have h4 := hx.peers.conn.recv
  have h5 := hx.peers.conn.heard
  omega

/-- Credit does not bring the connection window above what the peer announced. -/
theorem Honest.credit_le (hx : Honest x y) (hy : Honest y x) (hs : x.peerHelloSeen = true)
    (hf : FromPeer x y (.hear f)) : x.sessSendWin + f.grant ≤ y.sessionWindow.toNat := by
  have h1 := hx.peers.conn.send hs
  have h2 := grantsOf_le (show x.got ++ [f] <+: y.sent from hf)
  have h3 := hy.peers.conn.recv
  have h4 := hy.peers.conn.heard
  have h5 := costOf_le hy.peers.conn.got
  have h6 := hy.bounded.sum
  have h7 := hy.bounded.pending
  have h8 := hy.bounded.used
  simp at h2
  omega

theorem hear_msgs (hf : FromPeer x y (.hear f)) (sid) :
    (x.view sid).inp ++ (f.msg sid).toList <+: (y.view sid).out := by
  have := msgs_mono sid (show x.got ++ [f] <+: y.sent from hf)
  rwa [msgs_append, msgs_singleton] at this

theorem Honest.within_stream (hx : Honest x y) (hy : Honest y x) (h0 : f.sid ≠ muxSidControl)
    (hf : FromPeer x y (.hear f)) {m : Msg} (hm : f.msg f.sid = some m) {e : StreamEnd}
    (he : endOf x.tab f.sid = some e) : (m.bytes.length : ℤ) ≤ e.recvWin := by
  have h1 := (hx.peers.windows f.sid h0).recv e he
  have h2 := (hy.peers.windows f.sid h0).within
  have h3 : grantOf (y.view f.sid).inp ≤ grantOf (x.view f.sid).out :=
    grantOf_le (msgs_mono f.sid hy.peers.conn.got)
  have h4 := (bytesOf_mono (hear_msgs hf f.sid)).length_le
  rw [hm] at h4
  simp at h4
  omega

/-- Credit does not bring the window of a stream above what the peer announced. -/
theorem Honest.credit_stream_le (hx : Honest x y) (hy : Honest y x) (h0 : f.sid ≠ muxSidControl)
    (hf : FromPeer x y (.hear f)) {m : Msg} (hm : f.msg f.sid = some m) {e : StreamEnd}
    (he : endOf x.tab f.sid = some e) : e.sendWin + m.grant ≤ y.initWindow.toNat := by
  have h1 := (hx.peers.windows f.sid h0).send e he
  have h2 : grantOf (y.view f.sid).out ≤ (bytesOf (y.view f.sid).inp).length := hy.modest f.sid h0
  have h3 : (bytesOf (y.view f.sid).inp).length ≤ (bytesOf (x.view f.sid).out).length :=
    (bytesOf_mono (msgs_mono f.sid hy.peers.conn.got)).length_le
  have h4 := grantOf_le (hear_msgs hf f.sid)
  rw [hm] at h4
  simp at h4
  omega

theorem Honest.syn_fresh (hx : Honest x y) (hy : Honest y x) (h0 : f.sid ≠ muxSidControl)
    (hs : f.isSyn = true) (hf : FromPeer x y (.hear f)) :
    ¬ Own x.role f.sid ∧ x.maxRemoteSid < f.sid := by
  have hpre := synIds_mono (show x.got ++ [f] <+: y.sent from hf)
  rw [synIds_append, synIds_singleton, if_pos hs] at hpre
  have hown := (hy.peers.sound.ids.own f.sid (hpre.subset (by simp))).1
  refine ⟨(own_peer hy.peers.roles).1 hown, ?_⟩
  rcases hx.peers.sound.ids.last with h | h
  · rw [h]
    exact UInt32.pos_iff_ne_zero.2 h0
  · have hsort := hy.peers.sound.ids.sorted.sublist hpre.sublist
    exact (List.pairwise_append.1 hsort).2.2 _ h _ (by simp)

/-- A frame of a known type, with the id and the payload that its type asks for. -/
structure WellFormed (f : Frame) : Prop where
  known : f.type = muxTData ∨ f.type = muxTWindowUpdate ∨ f.type = muxTPing ∨ f.type = muxTGoaway
    ∨ f.type = muxTHello ∨ f.type = muxTHelloAck ∨ f.type = muxTCapacity
  stream : f.type = muxTData → f.sid ≠ muxSidControl
  control : f.type ≠ muxTData → f.type ≠ muxTWindowUpdate → f.sid = muxSidControl
  syn : f.isSyn = true → f.payload.length ≤ muxMaxMeta
  credit : f.type = muxTWindowUpdate → f.payload.length = 4
  ping : f.type = muxTPing → f.payload.length = 8
  goaway : f.type = muxTGoaway → 8 ≤ f.payload.length
  capacity : f.type = muxTCapacity → f.payload.length = 4

theorem wellFormed_of_data (ht : f.type = muxTData) (h0 : f.sid ≠ muxSidControl)
    (hs : f.isSyn = true → f.payload.length ≤ muxMaxMeta) : WellFormed f := by
  refine ⟨.inl ht, fun _ => h0, fun h => absurd ht h, hs, ?_, ?_, ?_, ?_⟩ <;>
    exact fun h => absurd (ht.symm.trans h) (by decide)

theorem Plain.wellFormed (h : Plain y f) : WellFormed f := by
  cases h with
  | syn h0 hm => exact wellFormed_of_data rfl h0 fun _ => hm
  | data p h0 => exact wellFormed_of_data rfl h0 (by simp)
  | fin h0 => exact wellFormed_of_data rfl h0 (by simp)
  | rst code h0 => exact wellFormed_of_data rfl h0 (by simp)
  | credit sid k =>
    exact ⟨.inr (.inl rfl), (nomatch ·), fun _ h => absurd rfl h, (nomatch ·), fun _ => rfl,
      (nomatch ·), (nomatch ·), (nomatch ·)⟩
  | ping flags h8 =>
    exact ⟨.inr (.inr (.inl rfl)), (nomatch ·), fun _ _ => rfl, (nomatch ·), (nomatch ·),
      fun _ => h8, (nomatch ·), (nomatch ·)⟩
  | goaway reason lastSid =>
    exact ⟨.inr (.inr (.inr (.inl rfl))), (nomatch ·), fun _ _ => rfl, (nomatch ·), (nomatch ·),
      (nomatch ·), fun _ => Nat.le_refl _, (nomatch ·)⟩
  | capacity weight =>
    exact ⟨.inr (.inr (.inr (.inr (.inr (.inr rfl))))), (nomatch ·), fun _ _ => rfl, (nomatch ·),
      (nomatch ·), (nomatch ·), (nomatch ·), fun _ => rfl⟩
  | hello ack =>
    cases ack
    · exact ⟨.inr (.inr (.inr (.inr (.inl rfl)))), (nomatch ·), fun _ _ => rfl, (nomatch ·),
        (nomatch ·), (nomatch ·), (nomatch ·), (nomatch ·)⟩
    · exact ⟨.inr (.inr (.inr (.inr (.inr (.inl rfl))))), (nomatch ·), fun _ _ => rfl, (nomatch ·),
        (nomatch ·), (nomatch ·), (nomatch ·), (nomatch ·)⟩

/-- No frame of an honest peer is answered with FATAL. -/
theorem Honest.not_offends (hx : Honest x y) (hy : Honest y x) (hd : x.dead = false)
    (hf : FromPeer x y (.hear f)) {code} : ¬ Offends x f code := by
  intro h
  have hw := (hy.peers.sound.plain.sent f (mem_of_hear hf)).wellFormed
  have hsid := hw.control
  have hfirst := fun hs => hx.first_heard hy hd hs hf
  have hnot := fun hs => hx.not_hello hy hs hf
  cases h with
  | early hs h1 h2 =>
    have := greeting_isHello y
    rw [← hfirst hs] at this
    simp [Frame.isHello, h1, h2] at this
  | type h1 h2 h3 h4 h5 h6 h7 =>
    have := hw.known
    tauto
  | hello ht h =>
    rcases h with h | h
    · exact h (hsid (by rcases ht with ht | ht <;> rw [ht] <;> decide)
        (by rcases ht with ht | ht <;> rw [ht] <;> decide))
    · simpa [Frame.isHello, ht] using hnot h
  | syn hs ht hsyn h =>
    have hfs : f.isSyn = true := (isSyn_eq ht).trans hsyn
    have h0 := hw.stream ht
    obtain ⟨hown, hlt⟩ := hx.syn_fresh hy h0 hfs hf
    rcases h with h | h | h | h | h
    · exact h (parity_iff.2 hown)
    · exact h0 h
    · obtain ⟨⟨i, st⟩, hst⟩ := Option.isSome_iff_exists.1 h
      obtain ⟨hg, hsid⟩ := stFind_some hx.bounded.wf hst
      have := hx.peers.sound.ids.theirs i st hg (hsid ▸ hown)
      exact absurd hlt (UInt32.not_lt.2 (hsid ▸ this))
    · exact absurd hlt (UInt32.not_lt.2 h)
    · exact absurd (hw.syn hfs) (by omega)
  | zero hs ht hsyn h => exact hw.stream ht h
  | overrun hon _ hr hne _ h =>
    have hcost := cost_of_data hon hr
    have hle := hx.within_session hy hf (by rw [hcost]; simpa using hne)
    rw [hcost] at hle
    omega
  | credit hs ht h => exact h (hw.credit ht)
  | ping hs ht h =>
    exact h.elim (· (hsid (by rw [ht]; decide) (by rw [ht]; decide))) (· (hw.ping ht))
  | goaway hs ht h =>
    exact h.elim (· (hsid (by rw [ht]; decide) (by rw [ht]; decide)))
      (absurd (hw.goaway ht) <| Nat.not_le.2 ·)
  | capacity hs ht h =>
    exact h.elim (· (hsid (by rw [ht]; decide) (by rw [ht]; decide))) (· (hw.capacity ht))

theorem Honest.not_aborts (hx : Honest x y) (hy : Honest y x) (hd : x.dead = false)
    (hf : FromPeer x y (.hear f)) (hon : DataOn x f) {i : ℕ} {st}
    (hst : stFind x.tab f.sid = some (i, st)) (hr : f.has muxFRst = false) {code} :
    ¬ Aborts x f st code := by
  intro h
  have hm : f.msg f.sid = some (.data f.payload (f.has muxFFin)) := by
    simp [Frame.msg, Frame.said, hon.type, hon.syn, hr]
  have he : endOf x.tab f.sid = some st.streamEnd := by
    rw [endOf, lookup_of_stFind hst]
    rfl
  cases h with
  | life hl =>
    have hfin := ((hx.peers.tracks hd f.sid hon.sid_ne).heard _ he).1 hl
    have ho := (hy.peers.sound.sends f.sid hon.sid_ne).orderly.of_front (hear_msgs hf f.sid)
    rw [hm] at ho
    exact absurd (ho.not_isData hfin) (by simp [Msg.isData])
  | overrun _ _ h =>
    exact absurd (hx.within_stream hy hon.sid_ne hf hm he) (Int.not_le.2 h)

end Heard

/-! ### Steps -/

section Steps

theorem Honest.silent (hx : Honest x y) (hy : Honest y x) (ha : FromPeer x y a) (hfair : Fair x a)
    (h : Step x a x') (hs : x.helloSent = false) : Silent x a := by
  have hrole : x.role = .acceptor := by
    cases hr : x.role with
    | acceptor => rfl
    | dialer => simp [hx.greets.role hr] at hs
  obtain ⟨hsent, -, hseen⟩ := hx.greets.silent hs
  cases a with
  | control =>
    cases h with
    | control hd =>
      have := hfair.2 rfl hrole
      simp [hseen hd] at this
  | credit =>
    cases h with
    | credit hk hle =>
      have h1 := hx.quiet hs
      have h2 := hx.bounded.used
      have h3 := hx.bounded.sum
      have h4 := hx.peers.conn.recv
      simp only [hsent, grantsOf_nil] at h4
      omega
  | hear f =>
    intro _ htake
    have hf := hx.first_heard hy h.hear_alive htake.1 ha
    have hack : y.role ≠ .acceptor := fun h => hx.peers.roles (hrole.trans h.symm)
    have ht := htake.2.1
    rw [hf, greeting, decide_eq_false hack] at ht
    cases ht
  | _ => trivial

theorem forall_mem_tail_snoc {P : Frame → Prop} {l : List Frame} (hl : ∀ g ∈ l.tail, P g)
    (hf : l ≠ [] → P f) : ∀ g ∈ (l ++ [f]).tail, P g := by
  rcases l with _ | ⟨g, l⟩
  · simp
  · rw [List.cons_append, List.tail_cons]
    exact forall_mem_snoc hl (hf (by simp))

theorem Control.not_hello (h : Control f) : f.isHello = false := by
  cases h <;> rfl

theorem Step.greets_once (h : Step x a x') (hg : Greets x)
    (hi : ∀ f ∈ x.sent.tail, f.isHello = false) : ∀ f ∈ x'.sent.tail, f.isHello = false := by
  have hput : ∀ {f}, f.isHello = false → ∀ g ∈ (x.sent ++ [f]).tail, g.isHello = false :=
    fun hf => forall_mem_tail_snoc hi fun _ => hf
  cases h with
  | opened | wrote | closedHalf | closedFull | credit | creditOn => exact hput rfl
  | control _ hc => exact hput hc.not_hello
  | reset ok | refused ok | aborted ok | ping ok =>
    cases ok with
    | false => exact hi
    | true => exact hput rfl
  | helloReply ok _ _ _ _ hl _ hs =>
    cases ok with
    | false => simpa using hi
    | true => simp [(hg.silent hs).1]
  | _ => simpa using hi

theorem Step.greets_quiet (h : Step x a x') (hg : Greets x) (hw : TabWf x.tab)
    (hq : x.helloSent = false → deliveredBytes x.queued = 0) (hs : x'.helloSent = false) :
    deliveredBytes x'.queued = 0 := by
  have hs₀ : x.helloSent = false := by
    by_contra hne
    rw [h.helloSent_mono (by simpa using hne)] at hs
    cases hs
  obtain ⟨-, htab, -⟩ := hg.silent hs₀
  have hq := hq hs₀
  cases h with
  | data _ _ hf | fin _ _ hf | finLast _ _ hf =>
    have := (stFind_some hw hf).1
    rw [htab] at this
    cases this
  | notice e _ _ he =>
    have hz : e.size = 0 := by rcases he with ⟨rfl, -⟩ | ⟨rfl, -⟩ <;> rfl
    simp [hz, hq]
  | _ => simp [Event.size, hq]

theorem Step.seen_got (h : Step x a x') (hi : x.peerHelloSeen = true → x.got ≠ [])
    (hs : x'.peerHelloSeen = true) : x'.got ≠ [] := by
  cases a with
  | hear f => simp [h.got_eq, Act.heard]
  | _ =>
    rw [h.got_eq]
    simp only [Act.heard, List.append_nil]
    refine hi ?_
    cases h <;> simpa using hs

theorem Step.modest (h : Step x a x') (hx : Peers x y) (hf : Few x') (hb : Bounded x')
    (hi : ∀ sid, sid ≠ muxSidControl → Modest (x.view sid)) (h0 : sid ≠ muxSidControl) :
    Modest (x'.view sid) := by
  refine (h.view_peers hx hf h0).modest (hx.windows sid h0) (fun e he => ?_) (hi sid h0)
  have hw : x'.initWindow = x.initWindow := congrArg (fun c => c.2.1) h.config_eq
  obtain ⟨st, hst, rfl⟩ := Option.map_eq_some_iff.1 (show endOf x'.tab sid = some e from he)
  obtain ⟨i, hi⟩ := Table.get_of_mem (Table.mem_of_lookup hb.wf hst).1
  obtain ⟨h1, h2, h3, h4⟩ := hb.stream i st hi
  rw [hw] at h1
  change st.recvWin ≤ _
  omega

theorem fatal_ite {p : Prop} [Decidable p] {q : List Event}
    (hq : ∀ code, .fatal code ∈ q → code = muxCodeInternal) :
    ∀ code, .fatal code ∈ (if p then q else q ++ [.fatal muxCodeInternal]) →
      code = muxCodeInternal := by
  intro code hm
  split at hm
  · exact hq code hm
  · rcases List.mem_append.1 hm with hm | hm
    · exact hq code hm
    · simpa using hm

theorem fatal_mem_deliver {c : Core} {i : ℕ} {code} :
    .fatal code ∈ (c.deliver i f).queued ↔ .fatal code ∈ c.queued := by
  rw [deliver_queued]
  split <;> simp

/-- Nothing is raised but the overflow of the output and the end of the keepalive. -/
theorem Step.blameless (h : Step x a x') (ha : FromPeer x y a) (hx : Honest x y)
    (hy : Honest y x) :
    (∀ code, .fatal code ∈ x'.queued → code = muxCodeInternal) ∧ x'.aborts = [] := by
  have hfatal := hx.fatal
  have haborts := hx.aborts
  cases h with
  | garbled => exact ha.elim
  | offend hd h => exact absurd h (hx.not_offends hy hd ha)
  | helloBad hd hs hl =>
    rw [hx.first_heard hy hd hs ha, greeting, helloLoop_helloFrame hy.peers.conn.wf] at hl
    cases hl
  | aborted ok hd hon hf hr hp h => exact absurd h (hx.not_aborts hy hd ha hon hf hr)
  | @creditedOver f hd hon hz hlt =>
    have hle := hx.credit_le hy hon.seen ha
    have := y.sessionWindow.toNat_lt
    rw [Frame.grant, if_pos ⟨hon.type, hz⟩] at hle
    unfold windowLimit at hlt
    omega
  | @creditedOnOver f i st hd hon h0 hf hlt =>
    have hm : f.msg f.sid = some (.credit (beLoad32 f.payload).toNat) := by
      simp [Frame.msg, Frame.said, hon.type, credit_ne_data]
    have he : endOf x.tab f.sid = some st.streamEnd := by
      rw [endOf, lookup_of_stFind hf]
      rfl
    have hle := hx.credit_stream_le hy h0 ha hm he
    have := y.initWindow.toNat_lt
    change st.sendWin + _ ≤ _ at hle
    unfold windowLimit at hlt
    simp only [Msg.grant] at hle
    omega
  | helloReply ok _ _ _ _ hl =>
    exact ⟨fatal_ite (by simpa using hfatal), haborts⟩
  | openFailed | spill | expire | reset | refused | ping => exact ⟨fatal_ite hfatal, haborts⟩
  | data | fin | finLast =>
    simpa [-deliver_queued, fatal_mem_deliver] using ⟨hfatal, haborts⟩
  | notice e _ _ he =>
    rcases he with ⟨rfl, -⟩ | ⟨rfl, -⟩ <;> simpa using ⟨hfatal, haborts⟩
  | _ => simpa using ⟨hfatal, haborts⟩

theorem Step.honest (h : Step x a x') (ha : FromPeer x y a) (hfair : Fair x a) (hx : Honest x y)
    (hy : Honest y x) (hf : Few x') : Honest x' y := by
  have hb := h.bounded hfair.1 hx.bounded
  obtain ⟨h1, h2⟩ := h.blameless ha hx hy
  refine ⟨h.peers ha hx.peers hy.peers hf, hb, ?_, h.greets_once hx.greets hx.once,
    h.greets_quiet hx.greets hx.bounded.wf hx.quiet, h.seen_got hx.seen,
    fun sid h0 => h.modest hx.peers hf hb hx.modest h0, h1, h2⟩
  by_cases hs : x.helloSent = true
  · exact h.greets_sent hx.greets hs
  · rw [Bool.not_eq_true] at hs
    exact h.greets_silent hx.greets hs (hx.silent hy ha hfair h hs)

theorem Honest.peer (hy : Honest y x) (h : Step x a x') : Honest y x' :=
  { hy with peers := hy.peers.peer h }

end Steps

/-! ### Runs -/

section Runs

variable {cfg cfg' : MuxConfig} {a b : Session} {l : Party × Party}

theorem honest_start {r r'} (hr : r ≠ r') (hw : (startCore cfg r).Wf) :
    Honest (startCore cfg r) (startCore cfg' r') := by
  refine ⟨peers_start hr hw, bounded_start cfg r, greets_start cfg r, ?_, fun _ => ?_, ?_,
    fun sid h0 => ?_, ?_, ?_⟩
  · cases r <;> simp [startCore, initSession]
  · simp [startCore_queued]
  · cases r <;> simp [startCore, initSession]
  · simp [view_start, Modest]
  · simp [startCore_queued]
  · cases r <;> rfl

/-- An honest host: it consumes no more than was delivered, and as an acceptor it asks for no
control frame before it has seen the dialer's greeting. -/
def HonestHost (s : Session) (a : Call) : Prop :=
  ConsumesDelivered s a ∧ match a with
    | .goaway _ | .sendCapacity _ | .onTimer _ => s.role = .acceptor → s.peerHelloSeen = true
    | _ => True

instance HonestHost.decidable (s : Session) : ∀ a, Decidable (HonestHost s a)
  | .goaway _ | .sendCapacity _ | .onTimer _ => inferInstanceAs (Decidable (_ ∧ (_ → _)))
  | .recv _ | .open _ | .write _ _ | .close _ | .reset _ _ | .consume _ _ | .sendAdvance _
  | .nextEvent => inferInstanceAs (Decidable (_ ∧ True))

theorem HonestHost.permits {s : Session} {a} (hw : s.toCore.Wf) (h : HonestHost s a) :
    Permits Fair s a := by
  refine (h.1.permits hw).and ?_
  obtain ⟨-, h⟩ := h
  refine ⟨by simp, fun buf _ => ?_, by simp, by simp, by simp, by simp, ?_, ?_, ?_⟩
  · exact eachFrame_of_forall (by simp [Hears]) (by simp) _ _ _
  · rintro w rfl _ -
    exact h
  · rintro r rfl _ -
    exact h
  · rintro t rfl _ -
    exact h

theorem link_honest (ha : muxSessionNew cfg .dialer = some a)
    (hb : muxSessionNew cfg' .acceptor = some b)
    (h : Reach (ofFun link) (Both HonestHost) (connect a b) l)
    (hf : Few l.1.session.toCore) (hf' : Few l.2.session.toCore) :
    Honest l.1.session.toCore l.2.session.toCore
      ∧ Honest l.2.session.toCore l.1.session.toCore := by
  obtain ⟨hca, hwa, -⟩ := muxSessionNew_spec ha
  obtain ⟨hcb, hwb, -⟩ := muxSessionNew_spec hb
  have hsteps := link_steps h ⟨wire_connect ha hb, wire_connect hb ha⟩
    fun _ _ hw _ h => HonestHost.permits hw h
  have hinv := hsteps.inv_pair (J := fun x y => Few x → Few y → Honest x y) ?_ ?_
  · exact ⟨hinv.1 hf hf', hinv.2 hf' hf⟩
  · change (_ → _ → Honest a.toCore b.toCore) ∧ (_ → _ → Honest b.toCore a.toCore)
    rw [hca] at hwa ⊢
    rw [hcb] at hwb ⊢
    exact ⟨fun _ _ => honest_start (by decide) hwa, fun _ _ => honest_start (by decide) hwb⟩
  · intro x y act x' hx hy ha hs
    exact ⟨fun hf hf' => hs.honest ha.1 ha.2 (hx (hs.few hf) hf') (hy hf' (hs.few hf)) hf,
      fun hf hf' => (hy hf (hs.few hf')).peer hs⟩

/-- Two sessions with honest hosts never accuse each other. -/
theorem honest_unaccused (ha : muxSessionNew cfg .dialer = some a)
    (hb : muxSessionNew cfg' .acceptor = some b)
    (h : Reach (ofFun link) (Both HonestHost) (connect a b) l)
    (hf : Few l.1.session.toCore) (hf' : Few l.2.session.toCore) :
    ∀ s, s = l.1.session ∨ s = l.2.session →
      .fatal muxCodeProtocol ∉ s.queued ∧ .fatal muxCodeFlowControl ∉ s.queued ∧ s.aborts = [] := by
  obtain ⟨h1, h2⟩ := link_honest ha hb h hf hf'
  have hone : ∀ {x y : Core}, Honest x y → .fatal muxCodeProtocol ∉ x.queued
      ∧ .fatal muxCodeFlowControl ∉ x.queued ∧ x.aborts = [] := fun h =>
    ⟨fun hm => absurd (h.fatal _ hm) (by decide), fun hm => absurd (h.fatal _ hm) (by decide),
      h.aborts⟩
  rintro s (rfl | rfl)
  · exact hone h1
  · exact hone h2

theorem honest_unaccused_consumedLink :
    ∃ l, l = consumedLink.foldl link (connect newDialer newAcceptor)
      ∧ deliveredBytes l.2.session.queued = 2 ∧ l.1.session.aborts = []
      ∧ .fatal muxCodeProtocol ∉ l.2.session.queued := by
  have hrun : Reach (ofFun link) (Both HonestHost) (connect newDialer newAcceptor)
      (consumedLink.foldl link (connect newDialer newAcceptor)) :=
    .foldl consumedLink (by decide +kernel)
  have hfacts : let l := consumedLink.foldl link (connect newDialer newAcceptor)
      (synIds l.1.session.sent).length < 2 ^ 31 ∧ (synIds l.2.session.sent).length < 2 ^ 31
        ∧ deliveredBytes l.2.session.queued = 2 := by
    decide +kernel
  generalize consumedLink.foldl link (connect newDialer newAcceptor) = l at hrun hfacts ⊢
  obtain ⟨hf, hf', h2⟩ := hfacts
  have hall := honest_unaccused muxSessionNew_newDialer muxSessionNew_newAcceptor hrun hf hf'
  exact ⟨l, rfl, h2, (hall _ (.inl rfl)).2.2, (hall _ (.inr rfl)).1⟩

end Runs

end MuxProtocol
