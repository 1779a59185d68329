import MuxProtocol.Proofs.Agreement
import MuxProtocol.Proofs.Strokes

/-!
# Streams that are not refused

Where one end of a connection opens all the streams, the other never refuses one. What the other
holds as it meets a SYN, the opener held as it sent that SYN (`Guest.admits`): of a stream that the
opener had dropped by then, the other has heard the end, or has itself sent it. So the opener's own
check against the limit that the other announced is a check of the other's table.
-/

namespace MuxProtocol

open LinearProbe Machine Party List Session

/-! ### A session that does not drain -/

section Staying

variable (s : Session)

@[simp] theorem raiseFatal_localGoaway (code) :
    (raiseFatal s code).localGoaway = s.localGoaway := by
  unfold raiseFatal
  split <;> rfl

@[simp] theorem emit_localGoaway (type flags sid payload) :
    (emit s type flags sid payload).1.localGoaway = s.localGoaway := by
  unfold emit
  split
  · exact raiseFatal_localGoaway _ _
  · split <;> rfl

theorem Stroke.localGoaway_eq {s s' : Session} {e} (h : Stroke s e s') (he : e ≠ .drain) :
    s'.localGoaway = s.localGoaway := by
  cases h with
  | edit h => exact congrArg (·.2.2.2.2.1) h
  | drain => exact absurd rfl he
  | fatal code => exact raiseFatal_localGoaway s code
  | emit f => exact emit_localGoaway ..
  | _ => rfl

theorem processFrame_localGoaway (f) : (processFrame s f).localGoaway = s.localGoaway :=
  Reach.inv (I := fun s' => s'.localGoaway = s.localGoaway) rfl
    (fun _ _ _ h he hs => (hs.localGoaway_eq (by rintro rfl; exact he.2)).trans h)
    (processFrame_strokes (l := False) nofun f nofun)

/-- A host that leaves the opening to the peer, and does not drain. -/
def Call.Receptive : Call → Prop
  | .open _ | .goaway _ => False
  | _ => True

/-- Only a session that drains of its own accord refuses to start streams. -/
theorem Session.call_localGoaway {a : Call} (ha : a.Receptive) :
    (s.call a).localGoaway = s.localGoaway := by
  by_cases hin : a.Inner
  · refine call_inv (I := fun s' => s'.localGoaway = s.localGoaway) hin ?_ rfl
    intro s₁ e s₂ h he hs
    refine (hs.localGoaway_eq ?_).trans h
    rintro rfl
    cases a <;> first | exact he | exact ha
  · cases a with
    | sendAdvance n => rw [call, muxSendAdvance_toCore]
    | nextEvent => rw [call, muxNextEvent_toCore]
    | _ => exact absurd trivial hin

end Staying

/-! ### A session that opens no stream -/

section Guest

variable {x y x' y' : Core} {a : Act} {f : Frame}

/-- What is heard on the streams of a peer that alone opens them. -/
def OfOpener (r : MuxRole) (fs : List Frame) : Prop :=
  ∀ sid, sid ≠ muxSidControl →
    Orderly (¬ Own r sid) (msgs sid fs) ∧ (Own r sid → msgs sid fs = [])

theorem OfOpener.of_got (h : OfOpener y.role y'.got) (hs : Step y a y') :
    OfOpener y.role y.got := by
  intro sid h0
  have hpre : msgs sid y.got <+: msgs sid y'.got := by
    rw [hs.got_eq]
    exact msgs_mono sid (prefix_append _ _)
  exact ⟨(h sid h0).1.of_front hpre,
    fun ho => prefix_nil.1 ((h sid h0).2 ho ▸ hpre)⟩

theorem OfOpener.rely (h : OfOpener y.role y.got) {sid} (h0 : sid ≠ muxSidControl) :
    (y.view sid).Rely (Own y.role sid) :=
  ⟨(h sid h0).1, fun ho _ => (h sid h0).2 ho⟩

structure Guest (y : Core) : Prop where
  sound : Sound y
  unopened : synIds y.sent = []
  heard : y.dead = false →
    (synIds y.got).Pairwise (· < ·) ∧ ∀ id ∈ synIds y.got, ¬ Own y.role id
  tracks : OfOpener y.role y.got → y.dead = false →
    ∀ sid, sid ≠ muxSidControl → Tracks (y.view sid)

theorem Guest.few (h : Guest y) : Few y := by
  rw [Few, h.unopened]
  decide

theorem Step.guest (h : Step y a y') (ha : a ≠ .open) (hy : Guest y) : Guest y' := by
  have hun : synIds y'.sent = [] := by
    rcases h.synIds_sent with ⟨e, -⟩ | ⟨⟨e, -⟩, -⟩
    · exact e.trans hy.unopened
    · exact absurd e ha
  have hf : Few y' := by
    rw [Few, hun]
    decide
  refine ⟨h.sound hy.sound hf, hun, fun hd => ?_, fun ho hd sid h0 => ?_⟩
  · obtain ⟨h1, h2⟩ := hy.heard (h.alive hd)
    rw [h.role_eq]
    rcases h.synIds_got with ⟨-, -, e⟩ | ⟨f, hok, -, e⟩
    · rw [e hd]
      exact ⟨h1, h2⟩
    · rw [e]
      refine ⟨pairwise_append.2 ⟨h1, pairwise_singleton _ _, fun id hid id' hid' => ?_⟩,
        forall_mem_snoc h2 (parity_iff.1 hok.parity)⟩
      rw [mem_singleton.1 hid']
      exact UInt32.lt_of_le_of_lt (hy.sound.ids.heard (h.alive hd) id hid) hok.fresh
  · have hr' := ho.rely h0
    rw [h.role_eq] at ho hr'
    have ho' := ho.of_got h
    exact (h.view hy.sound.ids hf h0).tracks (hy.sound.sends sid h0) (by simp [hd]) (ho'.rely h0)
      hr' (hy.tracks ho' (h.alive hd) sid h0)

theorem Steps.guest {ok : Core → Act → Prop} (h : Reach Step ok y y')
    (hok : ∀ c a, ok c a → a ≠ .open) (hy : Guest y) : Guest y' :=
  h.inv hy fun _ _ _ hi ha hs => hs.guest (hok _ _ ha) hi

theorem guest_start (cfg r) : Guest (startCore cfg r) := by
  refine ⟨sound_start cfg r, startCore_synIds cfg r, ?_, fun _ _ sid _ => ?_⟩
  · simp [startCore_got]
  · rw [view_start]
    exact .of_over rfl (.inl ⟨rfl, rfl⟩)

/-- The ids that the peer has taken are of one parity, so there are fewer than `2 ^ 31` below the
next. -/
theorem Guest.heard_lt (h : Guest y) (hd : y.dead = false) (hok : SynOk y f) :
    (synIds y.got).length < 2 ^ 31 := by
  obtain ⟨hsort, htheirs⟩ := h.heard hd
  have hall : ∀ id ∈ f.sid :: synIds y.got, ¬ Own y.role id := by
    rintro id (_ | ⟨_, hid⟩)
    · exact parity_iff.1 hok.parity
    · exact htheirs id hid
  have hnd : (f.sid :: synIds y.got).Nodup := by
    refine nodup_cons.2 ⟨fun hm => ?_, hsort.imp fun hlt he => ?_⟩
    · exact UInt32.lt_irrefl _
        (UInt32.lt_of_lt_of_le hok.fresh (h.sound.ids.heard hd _ hm))
    · exact UInt32.lt_irrefl _ (he ▸ hlt)
  have hinj : ((f.sid :: synIds y.got).map fun id => id.toNat / 2).Nodup := by
    refine List.Nodup.map_on (fun id hid id' hid' he => ?_) hnd
    have h1 := hall id hid
    have h2 := hall id' hid'
    rw [own_iff] at h1 h2
    exact UInt32.toNat_inj.1 (by omega)
  have hsub : (f.sid :: synIds y.got).map (fun id => id.toNat / 2) ⊆ range (2 ^ 31) := by
    intro k hk
    obtain ⟨id, -, rfl⟩ := mem_map.1 hk
    have := id.toNat_lt
    rw [mem_range]
    omega
  have hle := (subperm_of_subset hinj hsub).length_le
  rw [length_map, length_cons, length_range] at hle
  exact hle

/-- As the frame behind `pre` was sent: the opener passed its checks, next to its peer as it was
then. -/
def OpenedAt (pre : List Frame) (y : Core) : Prop :=
  ∃ x₀ y₀ m, OpenOk x₀ m ∧ x₀.sent = pre ∧ Peers x₀ y₀ ∧ y₀.sent <+: y.sent
    ∧ y₀.config = y.config

theorem OpenedAt.mono {pre} (h : OpenedAt pre y) (hs : y.sent <+: y'.sent)
    (hc : y'.config = y.config) : OpenedAt pre y' := by
  obtain ⟨x₀, y₀, m, h1, h2, h3, h4, h5⟩ := h
  exact ⟨x₀, y₀, m, h1, h2, h3, h4.trans hs, h5.trans hc.symm⟩

/-- What the guest holds, the opener held as it sent the SYN that comes next. -/
theorem Guest.admits (h : Guest y) (hd : y.dead = false) (ho : OpenedAt y.got y) :
    y.tab.count < y.maxStreams.toNat := by
  obtain ⟨x₀, y₀, m, hok, hsent, hp, hpre, hcfg⟩ := ho
  have hmax : x₀.peerMaxStreams = y.maxStreams :=
    (hp.conn.hello hok.seen).2.trans (congrArg (fun c => c.2.2.2.1) hcfg)
  have hrole : x₀.role ≠ y.role := by
    have hr : y₀.role = y.role := congrArg Prod.fst hcfg
    exact hr ▸ hp.roles
  have hgot : x₀.got <+: y.sent := hp.conn.got.trans hpre
  have hout : ∀ sid, (x₀.view sid).out = (y.view sid).inp := fun sid => by
    change msgs sid x₀.sent = msgs sid y.got
    rw [hsent]
  have hinp : ∀ sid, (x₀.view sid).inp <+: (y.view sid).out := fun sid => msgs_mono sid hgot
  have hord : OfOpener y.role y.got := by
    intro sid h0
    have hs := hp.sound.sends sid h0
    have hown : Own x₀.role sid ↔ ¬ Own y.role sid := own_peer hrole
    refine ⟨?_, fun hmine => ?_⟩
    · have := hs.orderly
      rwa [propext hown, hout] at this
    · by_contra hne
      have hne' : (x₀.view sid).out ≠ [] := (hout sid).symm ▸ hne
      obtain ⟨m, hm, hsyn⟩ := (hs.born (.inr hne')).2 fun h => hown.1 h hmine
      have := isSyn_mem_msgs.1 ⟨m, (hinp sid).subset hm, hsyn⟩
      rw [h.unopened] at this
      cases this
  rw [← hmax]
  refine lt_of_le_of_lt (Table.count_le h.sound.ids.wf h.sound.ids.distinct hp.sound.ids.wf ?_)
    hok.room
  intro st hst
  obtain ⟨i, hi⟩ := Table.get_of_mem hst
  have h0 := h.sound.plain.sids i st hi
  have hlive := endOf_of_get h.sound.ids.wf h.sound.ids.distinct hi
  have ty := h.tracks hord hd st.sid h0
  have tx := hp.tracks hok.alive st.sid h0
  by_contra hno
  have hnone : (x₀.view st.sid).live = none :=
    (endOf_eq_none hp.sound.ids.wf).2 fun st' hm he => hno ⟨st', hm, he⟩
  have hy : (y.view st.sid).live ≠ none := by
    rw [show (y.view st.sid).live = _ from hlive]
    simp
  refine hy (ty.live_eq_none.2 ?_)
  rcases tx.gone hnone with ⟨hnil, -⟩ | hend | hend | ⟨h1, h2⟩
  · -- a stream of the guest's own, or one it has not heard of
    rw [hout] at hnil
    refine absurd ((h.sound.sends st.sid h0).born (.inl hy)) fun hb => ?_
    by_cases hmine : Own y.role st.sid
    · have := isSyn_mem_msgs.1 ⟨_, hb.1 hmine, rfl⟩
      rw [h.unopened] at this
      cases this
    · obtain ⟨m, hm, -⟩ := hb.2 hmine
      simp [hnil] at hm
  · exact .inr (.inr (.inl (hout st.sid ▸ hend)))
  · exact .inr (.inl ((hinp st.sid).subset hend))
  · refine .inr (.inr (.inr ⟨?_, ?_⟩))
    · obtain ⟨m, hm, hfin⟩ := h2
      exact ⟨m, (hinp st.sid).subset hm, hfin⟩
    · obtain ⟨m, hm, hfin⟩ := h1
      exact ⟨m, hout st.sid ▸ hm, hfin⟩

theorem Step.sent_cases (h : Step x a x') :
    (∃ l, x'.sent = x.sent ++ l ∧ synIds l = [])
      ∨ ∃ m g, OpenOk x m ∧ x'.sent = x.sent ++ [g] := by
  obtain ⟨l, hl⟩ := h.sent_prefix
  rcases h.synIds_sent with ⟨e, -⟩ | ⟨⟨rfl, -⟩, -⟩
  · rw [← hl, synIds_append] at e
    exact .inl ⟨l, hl.symm, append_cancel_left (e.trans (append_nil _).symm)⟩
  · cases h with
    | opened hok => exact .inr ⟨_, _, hok, rfl⟩
    | openFailed => exact .inl ⟨[], by simp, rfl⟩

theorem split_snoc {pre post xs l} (h : xs ++ l = pre ++ f :: post) :
    (∃ post', xs = pre ++ f :: post') ∨ f ∈ l ∧ ∃ ys, pre = xs ++ ys ∧ l = ys ++ f :: post := by
  rcases append_eq_append_iff.1 h with ⟨ys, h1, h2⟩ | ⟨zs, h1, h2⟩
  · exact .inr ⟨by rw [h2]; simp, ys, h1, h2⟩
  · rcases zs with _ | ⟨z, zs⟩
    · refine .inr ⟨by simp at h2; simp [← h2], [], by simp [h1], by simpa using h2.symm⟩
    · rw [cons_append, cons.injEq] at h2
      exact .inl ⟨zs, h2.1 ▸ h1⟩

/-- The peer has opened every stream with a SYN among the frames, unless the ids have run out. -/
theorem Steps.openedAt {ok : Core → Core → Act → Prop} {p₀ p : Core × Core}
    (h : Reach (Pair Step) (Beside ok) p₀ p) (hok : ∀ x y a, ok x y a → FromPeer x y a)
    (hp : Peers p₀.1 p₀.2 ∧ Peers p₀.2 p₀.1) (hs₀ : synIds p₀.1.sent = [])
    (hf' : Few p.2) : ∀ pre f post, p.1.sent = pre ++ f :: post → f.isSyn = true →
      (synIds pre).length < 2 ^ 31 → OpenedAt pre p.2 := by
  induction h with
  | start =>
    intro pre f post he hsyn _
    rw [he] at hs₀
    simp [synIds, hsyn] at hs₀
  | @step p p' m hr ha hs ih =>
    intro pre f post he hsyn hfew
    cases hs with
    | @left x x' y a hx =>
      have ih := ih hf'
      have hold : ∀ post', x.sent = pre ++ f :: post' → OpenedAt pre y := fun post' e =>
        ih pre f post' e hsyn hfew
      rcases hx.sent_cases with ⟨l, hl, hnone⟩ | ⟨m, g, hopen, hl⟩
      · rcases split_snoc (hl.symm.trans he) with ⟨post', e⟩ | ⟨hm, -⟩
        · exact hold post' e
        · have : f.sid ∈ synIds l := mem_map.2 ⟨f, mem_filter.2 ⟨hm, hsyn⟩, rfl⟩
          rw [hnone] at this
          cases this
      · rcases split_snoc (hl.symm.trans he) with ⟨post', e⟩ | ⟨-, ys, h1, h2⟩
        · exact hold post' e
        · have hys : ys = [] := by
            rcases ys with _ | ⟨z, ys⟩
            · rfl
            · simp at h2
          rw [hys, append_nil] at h1
          rw [h1] at hfew ⊢
          exact ⟨x, y, m, hopen, rfl, (Steps.peers hr hok hp hfew hf').1, prefix_refl _, rfl⟩
    | @right x y y' a hy =>
      exact (ih (hy.few hf') pre f post he hsyn hfew).mono hy.sent_prefix hy.config_eq

end Guest

/-! ### The two ends -/

section Ends

variable {cfg cfg' : MuxConfig} {r r' : MuxRole} {a b s : Session} {l : Party × Party}

/-- The end of role `r` leaves the opening to the other, and does not drain. -/
def LeavesOpening (r : MuxRole) (s : Session) (a : Call) : Prop := s.role = r → a.Receptive

instance LeavesOpening.decidable (r : MuxRole) (s : Session) : ∀ a, Decidable (LeavesOpening r s a)
  | .open _ | .goaway _ => inferInstanceAs (Decidable (_ → False))
  | .recv _ | .write _ _ | .close _ | .reset _ _ | .consume _ _ | .sendCapacity _ | .onTimer _
  | .sendAdvance _ | .nextEvent => inferInstanceAs (Decidable (_ → True))

theorem Call.Receptive.permits {a : Call} (ha : a.Receptive) (s) :
    Permits (fun _ act => act ≠ .open) s a := by
  refine ⟨by simp, fun buf _ => ?_, fun m hm => ?_, by simp, by simp, by simp, by simp, by simp,
    by simp⟩
  · exact eachFrame_of_forall (by simp [Hears]) (by simp) _ _ _
  · subst hm
    exact ha.elim

theorem EachFrame.along {P : Session → Frame → Prop} {g : Prop} {I : Session → Prop}
    (hI : ∀ s f, I s → P s f → (processFrame s f).dead = false → I (processFrame s f)) :
    ∀ {n : ℕ} {s : Session} {buf : Bytes}, I s → EachFrame P g n s buf →
      EachFrame (fun s f => I s ∧ P s f) g n s buf
  | 0, _, _, _, _ => trivial
  | n + 1, s, buf, hs, h => by
    unfold EachFrame at h ⊢
    split
    · trivial
    · rename_i hstop
      rw [if_neg hstop] at h
      rcases hp : muxParse buf with e | ⟨f, used⟩
      · rw [hp] at h
        cases e with
        | short => trivial
        | _ => exact h
      · rw [hp] at h
        exact ⟨⟨hs, h.1⟩, fun hlive => (h.2 hlive).along hI (hI s f hs h.1 hlive)⟩

/-- The guest in the middle of `mux_recv`, which it entered as `s₀`. -/
structure Receiving (s₀ s : Session) : Prop where
  wf : s.toCore.Wf
  alive : s.dead = false
  guest : Guest s.toCore
  staying : s.localGoaway = false
  sent : s₀.sent <+: s.sent
  config : s.toCore.config = s₀.toCore.config

theorem Receiving.frame {s₀} (h : Receiving s₀ s) {f} (hlive : (processFrame s f).dead = false) :
    Receiving s₀ (processFrame s f) := by
  have hsteps : Reach Step (fun _ act => act ≠ .open) s.toCore (processFrame s f).toCore :=
    ((processFrame_handles h.wf h.alive).by (by simp) (by simp [Hears])).1
  exact ⟨processFrame_wf h.wf h.alive f, hlive, Steps.guest hsteps (fun _ _ => id) h.guest,
    (processFrame_localGoaway s f).trans h.staying,
    h.sent.trans (Steps.sent_prefix hsteps), (Steps.config_eq hsteps).trans h.config⟩

theorem link_guest (hr : r ≠ r') (ha : muxSessionNew cfg r = some a)
    (hb : muxSessionNew cfg' r' = some b)
    (h : Reach (ofFun link) (Both (LeavesOpening r')) (connect a b) l) :
    Guest l.2.session.toCore ∧ l.2.session.localGoaway = false := by
  obtain ⟨hca, -, -⟩ := muxSessionNew_spec ha
  obtain ⟨hcb, -, -⟩ := muxSessionNew_spec hb
  have hra : a.role = r := by rw [hca, startCore_role]
  have hrb : b.role = r' := by rw [hcb, startCore_role]
  have hrole := (link_steps (h.mono fun l m _ => both_any l m)
    ⟨wire_connect ha hb, wire_connect hb ha⟩ fun s a _ _ _ => permits_any s a).inv
    (I := fun p => p.2.role = r') hrb fun p m p' hp _ hs => by
      cases hs with
      | left _ => exact hp
      | right hy => exact hy.role_eq.trans hp
  have hinv := (link_sessions (I := fun s => s.role = r' → Guest s.toCore ∧ s.localGoaway = false)
    h ⟨wire_connect ha hb, wire_connect hb ha⟩
      ⟨fun he => absurd (hra.symm.trans he) hr, fun _ => ?_⟩
    fun s act hw hact hi he => ?_).2
  · exact hinv hrole
  · refine ⟨?_, ?_⟩
    · change Guest b.toCore
      rw [hcb]
      exact guest_start cfg' r'
    · change b.localGoaway = false
      rw [hcb]
      cases r' <;> rfl
  · have hsteps := call_steps hw (permits_any s act)
    have hs : s.role = r' := (congrArg Prod.fst (Steps.config_eq hsteps)).symm.trans he
    have hrec := hact hs
    obtain ⟨h1, h2⟩ := hi hs
    exact ⟨Steps.guest (call_steps hw (hrec.permits s)) (fun _ _ => id) h1,
      (call_localGoaway s hrec).trans h2⟩

/-- Where only one end opens streams and the other does not drain, the other has room for every
stream that is opened. -/
theorem opens_never_refused (hr : r ≠ r') (ha : muxSessionNew cfg r = some a)
    (hb : muxSessionNew cfg' r' = some b)
    (h : Reach (ofFun link) (Both (LeavesOpening r')) (connect a b) l)
    (hd : l.2.session.dead = false) (n : ℕ) :
    EachFrame (fun s f => SynOk s.toCore f → Admits s.toCore) True (l.2.inbox.take n).length
      l.2.session (l.2.inbox.take n) := by
  obtain ⟨hguest, hstay⟩ := link_guest hr ha hb h
  obtain ⟨hca, hwa, -⟩ := muxSessionNew_spec ha
  obtain ⟨hcb, hwb, -⟩ := muxSessionNew_spec hb
  have hsteps := link_steps (h.mono fun l m _ => both_any l m)
    ⟨wire_connect ha hb, wire_connect hb ha⟩ fun s a _ _ _ => permits_any s a
  have hpeers : Peers a.toCore b.toCore ∧ Peers b.toCore a.toCore := by
    rw [hca] at hwa ⊢
    rw [hcb] at hwb ⊢
    exact ⟨peers_start hr hwa, peers_start hr.symm hwb⟩
  have hopened := Steps.openedAt hsteps (fun _ _ _ h => h.1) hpeers
    (by rw [show (cores (connect a b)).1 = a.toCore from rfl, hca, startCore_synIds]) hguest.few
  obtain ⟨w1, w2⟩ := link_wire h ⟨wire_connect ha hb, wire_connect hb ha⟩
  obtain ⟨fs, h1, h2⟩ := w1.bytes hd
  have hpre : l.2.inbox.take n <+: encodeAll fs :=
    (List.take_prefix _ _).trans ⟨muxSendBuf l.1.session, h2⟩
  have hsized : ∀ f ∈ fs, f.Sized := fun f hf => w1.sized f (by rw [h1]; simp [hf])
  have heach := (recvLoop_encodeAll (l.2.inbox.take n).length w2.wf hd hsized hpre).1
  refine (heach.along (I := Receiving l.2.session) (fun s f hs _ hlive => hs.frame hlive)
    ⟨w2.wf, hd, hguest, hstay, List.prefix_refl _, rfl⟩).imp (fun s f ⟨hs, hf⟩ hok => ?_) fun _ =>
      trivial
  obtain ⟨post, hpost⟩ := hf
  rw [← h1, List.append_assoc] at hpost
  have hsyn : f.isSyn = true := by rw [isSyn_eq hok.type, hok.syn]
  have hat := hopened s.got f post hpost.symm hsyn (hs.guest.heard_lt hs.alive hok)
  exact ⟨hs.guest.admits hs.alive (hat.mono hs.sent hs.config), hs.staying⟩

/-- A stream opened and closed by both ends, and the SYN of a second one: the acceptor takes one at
a time. -/
def reopenLink : List (Bool × Party.Move) :=
  greetLink ++ [(false, .call (.open []) trivial), (false, .call (.close 1) trivial),
    (false, .transmit 200), (true, .receive 200), (true, .call (.close 1) trivial),
    (true, .transmit 200), (false, .receive 200), (false, .call (.open []) trivial),
    (false, .transmit 200)]

theorem opens_never_refused_reopenLink :
    ∃ l, l = reopenLink.foldl link (connect newDialer newAcceptor)
      ∧ synIds (framesIn 200 l.2.inbox) = [3]
      ∧ EachFrame (fun s f => SynOk s.toCore f → Admits s.toCore) True (l.2.inbox.take 200).length
        l.2.session (l.2.inbox.take 200) := by
  have hrun : Reach (ofFun link) (Both (LeavesOpening .acceptor)) (connect newDialer newAcceptor)
      (reopenLink.foldl link (connect newDialer newAcceptor)) :=
    .foldl reopenLink (by decide +kernel)
  have hfacts : let l := reopenLink.foldl link (connect newDialer newAcceptor)
      l.2.session.dead = false ∧ synIds (framesIn 200 l.2.inbox) = [3] := by
    decide +kernel
  generalize reopenLink.foldl link (connect newDialer newAcceptor) = l at hrun hfacts ⊢
  obtain ⟨hd, h3⟩ := hfacts
  exact ⟨l, rfl, h3, opens_never_refused (by decide) muxSessionNew_newDialer
    muxSessionNew_newAcceptor hrun hd 200⟩

end Ends

end MuxProtocol
