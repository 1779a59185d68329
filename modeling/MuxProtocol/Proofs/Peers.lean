import MuxProtocol.Proofs.Grammar

/-!
# Two sessions

Two sessions of opposite roles that hear each other's frames in order, one step at a time and in any
interleaving. What one of them keeps next to the other is `Peers`; a step of either keeps it for
both.
-/

namespace MuxProtocol

open LinearProbe Machine

variable {x x' y : Core} {a : Act} {sid : UInt32}

/-! ### What a session hears -/

section Rely

theorem Step.hear_alive {f} (h : Step x (.hear f) x') : x.dead = false := by
  cases h <;> assumption

/-- What a session hears on a stream is in order, for it is what its peer has sent. -/
theorem view_rely (hr : x.role ≠ y.role) (hs : Sends (Own y.role sid) (y.view sid))
    (hx : x.got <+: y.sent) (hy : y.got <+: x.sent) : (x.view sid).Rely (Own x.role sid) := by
  have hown : Own y.role sid ↔ ¬ Own x.role sid := own_peer hr.symm
  have hinp : (x.view sid).inp <+: (y.view sid).out := msgs_mono sid hx
  refine ⟨propext hown ▸ hs.orderly.of_front hinp, fun ho hout => ?_⟩
  by_contra hne
  have hne' : (y.view sid).out ≠ [] := fun h => hne (List.prefix_nil.1 (h ▸ hinp))
  obtain ⟨m, hm, -⟩ := (hs.born (.inr hne')).2 fun h => hown.1 h ho
  have : m ∈ (x.view sid).out := (msgs_mono sid hy).subset hm
  rw [hout] at this
  cases this

/-- Only a stream that starts looks at the window the peer announced. -/
theorem View.Step.of_not_live {gone own : Prop} {w pw pw' : ℤ} {v v' : View}
    (h : View.Step gone own w pw v v') (hl : v'.live = none) : View.Step gone own w pw' v v' := by
  cases h with
  | opened | accepted | acceptedFin => cases hl
  | deaf m hg => exact .deaf m hg
  | _ => constructor <;> assumption

end Rely

/-! ### The invariant -/

/-- What `x` keeps next to its peer `y`. -/
structure Peers (x y : Core) : Prop where
  conn : Conn x y
  sound : Sound x
  roles : x.role ≠ y.role
  control : notices muxSidControl x.queued = []
  receives : ∀ sid, sid ≠ muxSidControl → Receives (x.dead = true) (x.view sid)
  tracks : x.dead = false → ∀ sid, sid ≠ muxSidControl → Tracks (x.view sid)
  windows : ∀ sid, sid ≠ muxSidControl →
    Windows (x.dead = true) x.initWindow.toNat y.initWindow.toNat (x.view sid)

theorem Peers.rely (hx : Peers x y) (hy : Peers y x) (h0 : sid ≠ muxSidControl) :
    (x.view sid).Rely (Own x.role sid) :=
  view_rely hx.roles (hy.sound.sends sid h0) hx.conn.got hy.conn.got

theorem Step.view_peers (h : Step x a x') (hx : Peers x y) (hf : Few x')
    (h0 : sid ≠ muxSidControl) :
    View.Step (x'.dead = true) (Own x.role sid) x.initWindow.toNat y.initWindow.toNat (x.view sid)
      (x'.view sid) := by
  have hv : ViewStep x x' sid := h.view hx.sound.ids hf h0
  by_cases hs : x.peerHelloSeen = true
  · rwa [ViewStep, (hx.conn.hello hs).1] at hv
  · have hnone : Every x'.tab fun _ => False :=
      h.every_sid (P := fun _ => False) hx.sound.ids.wf (hx.conn.early (by simpa using hs)).1
        (fun _ hok _ => hs hok.seen) fun _ hok _ => hs hok.seen
    refine hv.of_not_live ((endOf_eq_none (h.tabWf hx.sound.ids.wf)).2 fun st hm => ?_)
    obtain ⟨i, hi⟩ := Table.get_of_mem hm
    exact (hnone i st hi).elim

/-- A step on one side keeps the two in agreement. -/
theorem Step.peers (h : Step x a x') (ha : FromPeer x y a) (hx : Peers x y) (hy : Peers y x)
    (hf : Few x') : Peers x' y := by
  have hconn := h.conn ha hx.conn hy.conn
  have hconn' := hy.conn.peer h
  have hsound := h.sound hx.sound hf
  have hdead : x.dead = true → x'.dead = true := fun hd => by
    by_contra hd'
    simp [h.alive (by simpa using hd')] at hd
  have hrole := h.role_eq
  have hw : x'.initWindow = x.initWindow := congrArg (fun c => c.2.1) h.config_eq
  have hv := fun (sid : UInt32) (h0 : sid ≠ muxSidControl) => h.view_peers hx hf h0
  have hr : ∀ sid, sid ≠ muxSidControl → (x.view sid).Rely (Own x.role sid) := fun sid h0 =>
    hx.rely hy h0
  have hr' : ∀ sid, sid ≠ muxSidControl → (x'.view sid).Rely (Own x.role sid) := fun sid h0 =>
    hrole ▸ view_rely (hrole ▸ hx.roles) (hy.sound.sends sid h0) hconn.got hconn'.got
  refine ⟨hconn, hsound, hrole ▸ hx.roles, h.notices_control hx.sound.plain hx.control,
    fun sid h0 => ?_, fun hd sid h0 => ?_, fun sid h0 => ?_⟩
  · refine (hv sid h0).receives (hx.sound.sends sid h0) (hr sid h0) (hr' sid h0) hdead ?_
      (hx.receives sid h0)
    intro hne
    cases a with
    | hear f => simp [h.hear_alive]
    | _ => exact absurd (by simp [Core.view, h.got_eq, Act.heard]) hne
  · exact (hv sid h0).tracks (hx.sound.sends sid h0) (by simp [hd]) (hr sid h0) (hr' sid h0)
      (hx.tracks (h.alive hd) sid h0)
  · rw [hw]
    exact (hv sid h0).windows (hx.sound.sends sid h0) (hr sid h0) (hr' sid h0) hdead
      (hx.windows sid h0)

theorem Peers.peer (hy : Peers y x) (h : Step x a x') : Peers y x' := by
  have hw : x'.initWindow = x.initWindow := congrArg (fun c => c.2.1) h.config_eq
  exact { hy with
    conn := hy.conn.peer h
    roles := h.role_eq ▸ hy.roles
    windows := hw ▸ hy.windows }

theorem conn_start {cfg r} (hw : (startCore cfg r).Wf) (cfg' r') :
    Conn (startCore cfg r) (startCore cfg' r') := by
  obtain ⟨htab, hnone⟩ := startCore_tab cfg r
  refine ⟨hw, allPlain_start cfg r, ?_, fun _ => ⟨fun i st hg => by simp [hnone i] at hg, ?_, ?_⟩,
    ?_, ?_, ?_, ?_, ?_⟩
  · simp [startCore_got]
  · cases r <;> simp [startCore, initSession, (mute_helloFrame _ _).cost]
  · simp [startCore_got]
  · cases r <;> simp [startCore, initSession]
  · cases r <;> simp [startCore, initSession]
  · cases r <;> simp [startCore, initSession]
  · cases r <;> simp [startCore, initSession, (mute_helloFrame _ _).grant]
  · simp [startCore_queued]

theorem peers_start {cfg cfg' r r'} (hr : r ≠ r') (hw : (startCore cfg r).Wf) :
    Peers (startCore cfg r) (startCore cfg' r') := by
  refine ⟨conn_start hw cfg' r', sound_start cfg r, ?_, by simp [startCore_queued],
    fun sid h0 => ?_, fun _ sid h0 => ?_, fun sid h0 => ?_⟩
  · simpa [startCore_role] using hr
  all_goals rw [view_start]
  · exact ⟨by simp, by simp [View.toldBytes], by simp⟩
  · exact .of_over rfl (.inl ⟨rfl, rfl⟩)
  · exact .of_none rfl (by simp)

/-- Two sessions that have opened fewer than `2 ^ 31` streams each. -/
theorem Steps.peers {ok : Core → Core → Act → Prop} {p₀ p : Core × Core}
    (h : Reach (Pair Step) (Beside ok) p₀ p) (hok : ∀ x y a, ok x y a → FromPeer x y a)
    (h₀ : Peers p₀.1 p₀.2 ∧ Peers p₀.2 p₀.1) (hf : Few p.1) (hf' : Few p.2) :
    Peers p.1 p.2 ∧ Peers p.2 p.1 := by
  have hJ := h.inv_pair (J := fun x y => Few x → Few y → Peers x y)
    ⟨fun _ _ => h₀.1, fun _ _ => h₀.2⟩ fun x y a x' hx hy ha hs =>
      ⟨fun hf hf' => hs.peers (hok x y a ha) (hx (hs.few hf) hf') (hy hf' (hs.few hf)) hf,
        fun hf hf' => (hy hf (hs.few hf')).peer hs⟩
  exact ⟨hJ.1 hf hf', hJ.2 hf' hf⟩

/-! ### The bytes of a stream -/

theorem Orderly.bytes_eq {own : Prop} {ms ms'} (h : Orderly own ms) (hp : ms' <+: ms)
    (hf : ∃ m ∈ ms', m.isFin = true) : bytesOf ms = bytesOf ms' := by
  obtain ⟨r, rfl⟩ := hp
  obtain ⟨m, hm, hfin⟩ := hf
  have hr : bytesOf r = [] := by
    refine List.flatMap_eq_nil_iff.2 fun m' hm' => Msg.bytes_of_not_isData ?_
    exact (List.pairwise_append.1 h.fin).2.2 m hm m' hm' hfin
  rw [bytesOf_append, hr, List.append_nil]

/-- What is delivered of a stream is the front of what was sent on it, and all of it once CLOSED is
told. -/
theorem Peers.fidelity (hx : Peers x y) (hy : Peers y x) (h0 : sid ≠ muxSidControl) :
    streamBytes sid x.queued <+: bytesOf (msgs sid y.sent)
      ∧ (.closed sid ∈ x.queued → streamBytes sid x.queued = bytesOf (msgs sid y.sent)) := by
  have hinp := msgs_mono sid hx.conn.got
  obtain ⟨-, hfront, hclosed⟩ := hx.receives sid h0
  refine ⟨hfront.trans (bytesOf_mono hinp), fun hc => ?_⟩
  obtain ⟨hfin, he⟩ := hclosed (mem_notices hc (if_pos rfl))
  exact he.trans ((hy.sound.sends sid h0).orderly.bytes_eq hinp hfin).symm

/-! ### The streams of the two sessions -/

/-- The life of a stream on the other side. -/
def Life.mirror : Life → Life
  | .open => .open
  | .hclLocal => .hclRemote
  | .hclRemote => .hclLocal

theorem Life.eq_mirror {l l' : Life} (h1 : l = .hclLocal ↔ l' = .hclRemote)
    (h2 : l = .hclRemote ↔ l' = .hclLocal) : l = l'.mirror := by
  cases l <;> cases l' <;> simp_all [Life.mirror]

/-- Where everything sent is heard, the two sides have the same streams, with their halves
mirrored. -/
theorem Peers.agree (hx : Peers x y) (hy : Peers y x) (hdx : x.dead = false) (hdy : y.dead = false)
    (hxy : x.got = y.sent) (hyx : y.got = x.sent) (h0 : sid ≠ muxSidControl) :
    (endOf x.tab sid).map StreamEnd.life = (endOf y.tab sid).map (·.life.mirror) := by
  have tx := hx.tracks hdx sid h0
  have ty := hy.tracks hdy sid h0
  have h1 : (x.view sid).inp = (y.view sid).out := congrArg (msgs sid) hxy
  have h2 : (y.view sid).inp = (x.view sid).out := congrArg (msgs sid) hyx
  have hs : (x.view sid).FinSent ↔ (y.view sid).FinHeard := by
    rw [View.FinSent, View.FinHeard, h2]
  have hh : (x.view sid).FinHeard ↔ (y.view sid).FinSent := by
    rw [View.FinSent, View.FinHeard, h1]
  have hnone : (x.view sid).live = none ↔ (y.view sid).live = none := by
    rw [tx.live_eq_none, ty.live_eq_none, View.Ended, View.Ended, h1, h2, hs, hh]
    tauto
  change (x.view sid).live.map _ = (y.view sid).live.map _
  rcases hlx : (x.view sid).live with _ | e
  · rw [hnone.1 hlx]
    rfl
  · rcases hly : (y.view sid).live with _ | e'
    · rw [hnone.2 hly] at hlx
      cases hlx
    · refine congrArg some (Life.eq_mirror ?_ ?_)
      · rw [tx.sent e hlx, hs, ty.heard e' hly]
      · rw [tx.heard e hlx, hh, ty.sent e' hly]

/-! ### The windows of a stream -/

/-- In one direction: what the sender may still send, the bytes under way and the credit under way
add up to what the receiver expects. -/
theorem Peers.windows_agree (hx : Peers x y) (hy : Peers y x) (hdx : x.dead = false)
    (hdy : y.dead = false) (h0 : sid ≠ muxSidControl) {fs gs} (hxy : x.sent = y.got ++ fs)
    (hyx : y.sent = x.got ++ gs) {e : StreamEnd} (he : endOf x.tab sid = some e) :
    (∀ e', endOf y.tab sid = some e' →
      e.sendWin + (bytesOf (msgs sid fs)).length + grantOf (msgs sid gs) = e'.recvWin)
    ∧ (sid ∉ synIds y.got → Own x.role sid →
      e.sendWin + (bytesOf (msgs sid fs)).length + grantOf (msgs sid gs) = y.initWindow.toNat) := by
  have hs := (hx.windows sid h0).send_eq (by simp [hdx]) e he
  have hout : (x.view sid).out = (y.view sid).inp ++ msgs sid fs :=
    (congrArg (msgs sid) hxy).trans (msgs_append ..)
  have hinp : (y.view sid).out = (x.view sid).inp ++ msgs sid gs :=
    (congrArg (msgs sid) hyx).trans (msgs_append ..)
  rw [hout, bytesOf_append, List.length_append] at hs
  refine ⟨fun e' he' => ?_, fun hno hown => ?_⟩
  · have hr := (hy.windows sid h0).recv_eq (by simp [hdy]) e' he'
    rw [hinp, grantOf_append] at hr
    omega
  · have hnil : (y.view sid).inp = [] := by
      by_contra hne
      have hsyn := (hx.sound.sends sid h0).orderly.of_front (msgs_mono sid hy.conn.got)
      exact hno (isSyn_mem_msgs.1 ⟨_, hsyn.syn_mem hown hne, rfl⟩)
    have hnil' : (y.view sid).out = [] := by
      by_contra hne
      have hnot : ¬ Own y.role sid := (own_peer hx.roles).1 hown
      obtain ⟨m, hm, -⟩ := ((hy.sound.sends sid h0).born (.inr hne)).2 hnot
      simp [hnil] at hm
    rw [hinp, List.append_eq_nil_iff] at hnil'
    rw [hnil, hnil'.1] at hs
    rw [hnil'.2]
    simpa using hs

end MuxProtocol
