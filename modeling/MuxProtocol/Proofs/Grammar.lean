import MuxProtocol.Proofs.OpenIds
import MuxProtocol.Proofs.Views

/-!
# What a session puts on the wire, and what it tells its host

Against any peer and with any host. The frames of a stream follow a grammar, and so do its events;
the events only as long as the peer does not send its FIN twice.
-/

namespace MuxProtocol

open LinearProbe Machine List Option Event

/-! ### The invariants of a session with any peer -/

section Sound

variable {c c' : Core} {a : Act} {cfg : MuxConfig} {role : MuxRole} {sid : UInt32}

structure Sound (c : Core) : Prop where
  ids : Ids c
  plain : AllPlain c
  sends : ∀ sid, sid ≠ muxSidControl → Sends (Own c.role sid) (c.view sid)
  tells : ∀ sid, sid ≠ muxSidControl → Tells (Own c.role sid) (c.view sid)
  refuses : ∀ sid, sid ≠ muxSidControl → Refuses (Own c.role sid) (c.view sid)

theorem Step.sound (h : Step c a c') (hs : Sound c) (hf : Few c') : Sound c' := by
  have hr := h.role_eq
  refine ⟨h.ids hs.ids hf, h.allPlain hs.plain, fun sid h0 => ?_, fun sid h0 => ?_,
    fun sid h0 => ?_⟩
  · exact hr ▸ (h.view hs.ids hf h0).sends (hs.sends sid h0)
  · exact hr ▸ (h.view hs.ids hf h0).tells (hs.sends sid h0) (hs.tells sid h0)
  · exact hr ▸ (h.view hs.ids hf h0).refuses (hs.sends sid h0) (hs.refuses sid h0)

theorem Steps.few {ok : Core → Act → Prop} (h : Reach Step ok c c') (hf : Few c') : Few c := by
  induction h with
  | start => exact hf
  | step _ _ hs ih => exact ih (hs.few hf)

theorem Steps.sound {ok : Core → Act → Prop} (h : Reach Step ok c c') (hs : Sound c)
    (hf : Few c') : Sound c' := by
  induction h with
  | start => exact hs
  | step _ _ h ih => exact h.sound (ih (h.few hf)) hf

theorem view_start (cfg role sid) : (startCore cfg role).view sid = ⟨none, [], [], []⟩ := by
  obtain ⟨hw, hnone⟩ := startCore_tab cfg role
  have hlive : endOf (startCore cfg role).tab sid = none := by
    refine (endOf_eq_none hw).2 fun st hm => ?_
    obtain ⟨i, hi⟩ := Table.get_of_mem hm
    simp [hnone i] at hi
  have hsent : msgs sid (startCore cfg role).sent = [] := by
    cases role
    · simp [startCore, initSession, msgs_singleton, (mute_helloFrame _ _).msg]
    · rfl
  rw [Core.view, hlive, hsent, startCore_got, startCore_queued]
  rfl

theorem allPlain_start (cfg role) : AllPlain (startCore cfg role) := by
  obtain ⟨hw, hnone⟩ := startCore_tab cfg role
  refine ⟨hw, fun i st hg => by simp [hnone i] at hg, fun f hf => ?_⟩
  cases role with
  | acceptor => cases hf
  | dialer =>
    obtain rfl : f = helloFrame (startCore cfg .dialer) false := mem_singleton.1 hf
    exact .hello false

theorem sound_start (cfg role) : Sound (startCore cfg role) := by
  refine ⟨ids_start cfg role, allPlain_start cfg role, fun sid _ => ?_, fun sid _ => ?_,
    fun sid _ => ?_⟩ <;> rw [view_start]
  · exact ⟨.nil _, by simp, by simp, by simp⟩
  · exact ⟨.nil _, by simp, by simp, by simp, by simp⟩
  · exact ⟨by simp, by simp⟩

end Sound

/-! ### The wire -/

section Wire

variable {c : Core} {sid : UInt32} {f : Frame} {fs : List Frame}

/-- The frames of the stream `sid`. -/
def framesOf (sid : UInt32) (fs : List Frame) : List Frame := fs.filter (·.sid = sid)

/-- The frames of a stream: a SYN first and once where the session opens the stream, and none where
it does not; then data that is not empty, at most one FIN with no data behind it, at most one RST
with nothing behind it; credit in between. -/
structure WireGrammar (opens : Prop) (sid : UInt32) (fs : List Frame) : Prop where
  kinds : ∀ f ∈ fs, (∃ m, f = synFrame sid m) ∨ (∃ p, p ≠ [] ∧ f = dataFrame sid p)
    ∨ f = finFrame sid ∨ (∃ code, f = rstFrame sid code) ∨ ∃ k, f = creditFrame sid k
  syn : opens → ∃ f t, fs = f :: t ∧ f.isSyn = true ∧ ∀ g ∈ t, g.isSyn = false
  no_syn : ¬ opens → ∀ f ∈ fs, f.isSyn = false
  fin : fs.Pairwise fun f g => f = finFrame sid → g ≠ finFrame sid ∧ ∀ p, g ≠ dataFrame sid p
  rst : fs.Pairwise fun f _ => ∀ code, f ≠ rstFrame sid code

/-- Of the frames a session sends, those of a stream say something to it. -/
theorem Plain.said (h : Plain c f) (h0 : f.sid ≠ muxSidControl) : ∃ m, f.msg f.sid = some m := by
  cases h with
  | syn => exact ⟨_, (msg_synFrame _ _ _).trans (if_pos rfl)⟩
  | data => exact ⟨_, (msg_dataFrame _ _ _).trans (if_pos rfl)⟩
  | fin => exact ⟨_, (msg_finFrame _ _).trans (if_pos rfl)⟩
  | rst => exact ⟨_, (msg_rstFrame _ _ _).trans (if_pos rfl)⟩
  | credit => exact ⟨_, (msg_creditFrame _ _ _).trans (if_pos rfl)⟩
  | _ => exact absurd rfl h0

theorem mem_framesOf : f ∈ framesOf sid fs ↔ f ∈ fs ∧ f.sid = sid := by
  simp [framesOf]

theorem msgs_framesOf : msgs sid (framesOf sid fs) = msgs sid fs := by
  simp only [msgs, framesOf, filterMap_filter]
  refine filterMap_congr fun f _ => ?_
  by_cases h : f.sid = sid
  · simp [h]
  · simp [h, Frame.msg]

theorem mem_msgs_of_mem {m} (hf : f ∈ fs) (hm : f.msg sid = some m) : m ∈ msgs sid fs :=
  mem_filterMap.2 ⟨f, hf, hm⟩

/-- What holds of the messages of a stream, in order, holds of its frames. -/
theorem pairwise_framesOf {R : Msg → Msg → Prop} {S : Frame → Frame → Prop}
    (h : (msgs sid fs).Pairwise R)
    (hS : ∀ f g m m', f ∈ fs → g ∈ fs → f.msg sid = some m → g.msg sid = some m' → R m m' → S f g)
    (hsaid : ∀ f ∈ fs, f.sid = sid → ∃ m, f.msg sid = some m) :
    (framesOf sid fs).Pairwise S := by
  rw [framesOf, pairwise_filter]
  refine (pairwise_filterMap.1 h).imp_of_mem fun {f g} hf hg hR hsf hsg => ?_
  obtain ⟨m, hm⟩ := hsaid f hf (by simpa using hsf)
  obtain ⟨m', hm'⟩ := hsaid g hg (by simpa using hsg)
  exact hS f g m m' hf hg hm hm' (hR m hm m' hm')

/-- The frames of a stream follow the grammar of the wire. -/
theorem Sound.wireGrammar (hs : Sound c) (h0 : sid ≠ muxSidControl) :
    WireGrammar (sid ∈ synIds c.sent) sid (framesOf sid c.sent) := by
  have hp := hs.plain
  have ho : Orderly (Own c.role sid) (msgs sid c.sent) := (hs.sends sid h0).orderly
  have hsaid : ∀ f ∈ c.sent, f.sid = sid → ∃ m, f.msg sid = some m := fun f hf he => by
    subst he
    exact (hp.sent f hf).said h0
  have hsyn : ∀ f ∈ c.sent, ∀ m, f.msg sid = some m → m.isSyn = f.isSyn := fun f _ m hm => by
    unfold Frame.msg at hm
    split at hm
    · exact Frame.said_isSyn hm
    · cases hm
  refine ⟨fun f hf => ?_, fun hopen => ?_, fun hno f hf => ?_, ?_, ?_⟩
  · obtain ⟨hmem, rfl⟩ := mem_framesOf.1 hf
    cases hp.sent f hmem with
    | syn => exact .inl ⟨_, rfl⟩
    | @data sid p =>
      refine .inr (.inl ⟨p, fun hnil => ?_, rfl⟩)
      have hm : Msg.data p false ∈ msgs sid c.sent :=
        mem_msgs_of_mem hmem ((msg_dataFrame _ _ _).trans (if_pos rfl))
      simpa [hnil] using ho.body p false hm
    | fin => exact .inr (.inr (.inl rfl))
    | rst code => exact .inr (.inr (.inr (.inl ⟨code, rfl⟩)))
    | credit _ k => exact .inr (.inr (.inr (.inr ⟨k, rfl⟩)))
    | _ => exact absurd rfl h0
  · have hown := (hs.ids.own sid hopen).1
    obtain ⟨f₀, hf₀, hsid⟩ := mem_map.1 hopen
    have hne : framesOf sid c.sent ≠ [] :=
      ne_nil_of_mem (mem_framesOf.2 ⟨(mem_filter.1 hf₀).1, hsid⟩)
    obtain ⟨f, t, hfs⟩ := exists_cons_of_ne_nil hne
    have hmem : ∀ g ∈ f :: t, g ∈ c.sent ∧ g.sid = sid := fun g hg =>
      mem_framesOf.1 (hfs ▸ hg)
    obtain ⟨m, hm⟩ := hsaid f (hmem f (by simp)).1 (hmem f (by simp)).2
    have hmsgs : msgs sid c.sent = m :: msgs sid t := by
      rw [← msgs_framesOf, hfs, ← singleton_append, msgs_append, msgs_singleton, hm]
      rfl
    obtain ⟨t', ht, hno⟩ := (ho.syn hown).resolve_left (by simp [hmsgs])
    rw [hmsgs, cons.injEq] at ht
    obtain ⟨rfl, rfl⟩ := ht
    refine ⟨f, t, hfs, (hsyn f (hmem f (by simp)).1 _ hm).symm, fun g hg => ?_⟩
    obtain ⟨m', hm'⟩ := hsaid g (hmem g (by simp [hg])).1 (hmem g (by simp [hg])).2
    rw [← hsyn g (hmem g (by simp [hg])).1 _ hm']
    by_contra hsm
    have hin : m' ∈ msgs sid t := mem_msgs_of_mem hg hm'
    have := ho.eq_syn_of_isSyn (m := m') (by simp [hmsgs, hin]) (by simpa using hsm)
    exact hno (this ▸ hin)
  · obtain ⟨hmem, rfl⟩ := mem_framesOf.1 hf
    by_contra hsm
    exact hno (mem_map.2 ⟨f, mem_filter.2 ⟨hmem, by simpa using hsm⟩, rfl⟩)
  · refine pairwise_framesOf ho.fin ?_ hsaid
    rintro f g m m' - - hm hm' hR rfl
    have hR := hR (by simp at hm; simp [← hm, Msg.isFin])
    constructor
    · rintro rfl
      simp at hm'
      simp [← hm', Msg.isData] at hR
    · rintro p rfl
      simp at hm'
      simp [← hm', Msg.isData] at hR
  · refine pairwise_framesOf ho.rst ?_ hsaid
    rintro f g m m' - - hm - hR code rfl
    simp at hm
    exact hR hm.symm

theorem map_msg_framesOf (hsaid : ∀ f ∈ fs, f.sid = sid → ∃ m, f.msg sid = some m) :
    (framesOf sid fs).map (Frame.msg sid) = (msgs sid fs).map some := by
  induction fs with
  | nil => rfl
  | cons f fs ih =>
    have ih := ih fun g hg => hsaid g (mem_cons_of_mem f hg)
    by_cases hs : f.sid = sid
    · obtain ⟨m, hm⟩ := hsaid f (mem_cons_self ..) hs
      have hf : framesOf sid (f :: fs) = f :: framesOf sid fs := filter_cons_of_pos (by simp [hs])
      have hm' : msgs sid (f :: fs) = m :: msgs sid fs := filterMap_cons_some hm
      rw [hf, hm', map_cons, map_cons, ih, hm]
    · have hf : framesOf sid (f :: fs) = framesOf sid fs := filter_cons_of_neg (by simp [hs])
      have hm' : msgs sid (f :: fs) = msgs sid fs := filterMap_cons_none (msg_of_ne hs)
      rw [hf, hm', ih]

theorem framesOf_eq_of_msgs {gs} (hp : fs <+: gs)
    (hsaid : ∀ f ∈ gs, f.sid = sid → ∃ m, f.msg sid = some m) (h : msgs sid gs = msgs sid fs) :
    framesOf sid gs = framesOf sid fs := by
  have hlen := congrArg length (map_msg_framesOf hsaid)
  have hlen' := congrArg length
    (map_msg_framesOf (show ∀ f ∈ fs, f.sid = sid → ∃ m, f.msg sid = some m from
      fun f hf => hsaid f (hp.subset hf)))
  simp only [length_map, h] at hlen hlen'
  exact ((hp.filter _).eq_of_length (hlen'.trans hlen.symm)).symm

/-- The stream has been reset, by either side, or closed by both. -/
def Ended (c : Core) (sid : UInt32) : Prop :=
  (∃ code, rstFrame sid code ∈ c.sent) ∨ (∃ code, .reset sid code ∈ c.queued)
    ∨ finFrame sid ∈ c.sent ∧ .closed sid ∈ c.queued

theorem mem_notices {q} {e : Event} {n} (he : e ∈ q) (hn : e.notice sid = some n) :
    n ∈ notices sid q :=
  mem_filterMap.2 ⟨e, he, hn⟩

theorem Sound.over (hs : Sound c) (h0 : sid ≠ muxSidControl) (h : Ended c sid) :
    (c.view sid).Over (Own c.role sid) := by
  have hsends := hs.sends sid h0
  have htells := hs.tells sid h0
  rcases h with ⟨code, h⟩ | ⟨code, h⟩ | ⟨hfin, hclosed⟩
  · exact hsends.over_of_rst (mem_msgs_of_mem h ((msg_rstFrame _ _ _).trans (if_pos rfl)))
  · exact htells.over_of_reset (mem_notices h (if_pos rfl))
  · exact hsends.over_of_closed htells
      (mem_msgs_of_mem hfin ((msg_finFrame _ _).trans (if_pos rfl))) rfl
      (mem_notices hclosed (if_pos rfl))

theorem Steps.over {ok : Core → Act → Prop} {c' : Core} (h : Reach Step ok c c') (hs : Sound c)
    (hf : Few c') (h0 : sid ≠ muxSidControl) (ho : (c.view sid).Over (Own c.role sid)) :
    (c'.view sid).Over (Own c'.role sid) ∧ msgs sid c'.sent = msgs sid c.sent := by
  induction h with
  | start => exact ⟨ho, rfl⟩
  | step hr _ h ih =>
    obtain ⟨ho', hout⟩ := ih (h.few hf)
    obtain ⟨h1, h2, -⟩ := (h.view (Steps.sound hr hs (h.few hf)).ids hf h0).over ho'
    exact ⟨h.role_eq ▸ h1, h2.trans hout⟩

theorem Steps.sent_prefix {ok : Core → Act → Prop} {c' : Core} (h : Reach Step ok c c') :
    c.sent <+: c'.sent := by
  induction h with
  | start => exact prefix_refl _
  | step _ _ h ih => exact ih.trans h.sent_prefix

/-- A stream that was not announced gets one RST at most. -/
theorem Sound.refused (hs : Sound c) (h0 : sid ≠ muxSidControl) (hopen : sid ∉ synIds c.sent)
    (hno : ∀ m, .opened sid m ∉ c.queued) :
    framesOf sid c.sent = [] ∨ ∃ code, framesOf sid c.sent = [rstFrame sid code] := by
  have hg := hs.wireGrammar h0
  have hsaid : ∀ f ∈ c.sent, f.sid = sid → ∃ m, f.msg sid = some m := fun f hf he => by
    subst he
    exact (hs.plain.sent f hf).said h0
  have hmsgs : msgs sid c.sent = [] ∨ msgs sid c.sent = [.rst] := by
    by_cases hown : Own c.role sid
    · refine .inl ((hs.sends sid h0).orderly.eq_nil hown fun hm => ?_)
      exact hopen (isSyn_mem_msgs.1 ⟨_, hm, rfl⟩)
    · refine (hs.refuses sid h0).out hown fun hm => ?_
      obtain ⟨e, he, hn⟩ := mem_filterMap.1 hm
      cases e with
      | opened id m =>
        simp only [notice, ite_none_right_eq_some] at hn
        exact hno m (hn.1 ▸ he)
      | _ => simp [notice] at hn
  have hmap := map_msg_framesOf hsaid
  rcases hmsgs with h | h
  · rw [h, map_nil, map_eq_nil_iff] at hmap
    exact .inl hmap
  · rw [h, map_singleton, map_eq_singleton_iff] at hmap
    obtain ⟨f, hf, hm⟩ := hmap
    refine .inr ?_
    rcases hg.kinds f (by simp [hf]) with ⟨m, rfl⟩ | ⟨p, -, rfl⟩ | rfl | ⟨code, rfl⟩ | ⟨k, rfl⟩
    · simp at hm
    · simp at hm
    · simp at hm
    · exact ⟨code, hf⟩
    · simp at hm

/-- What a session with fewer than `2 ^ 31` opens puts on the wire for a stream. It opens it with a
SYN exactly where `mux_open` has returned its id, sends nothing more once it has ended, and answers
one it refuses with a single RST. -/
theorem wire_grammar {cfg : MuxConfig} {role : MuxRole} {s₀ s s' : Session}
    {taken taken' : List UInt32} (h₀ : muxSessionNew cfg role = some s₀)
    (h : Reach (ofFun opening) (fun _ _ => True) (s₀, []) (s, taken))
    (h' : Reach (ofFun opening) (fun _ _ => True) (s, taken) (s', taken'))
    (hf : taken'.length < 2 ^ 31) (h0 : sid ≠ muxSidControl) :
    WireGrammar (sid ∈ taken) sid (framesOf sid s.sent)
      ∧ (Ended s.toCore sid → framesOf sid s'.sent = framesOf sid s.sent)
      ∧ (sid ∉ taken → (∀ m, .opened sid m ∉ s.queued) →
        framesOf sid s.sent = [] ∨ ∃ code, framesOf sid s.sent = [rstFrame sid code]) := by
  obtain ⟨hc, hw, -⟩ := muxSessionNew_spec h₀
  have htaken := (handed_reach h₀ h).sent
  have hfew : Few s'.toCore := by rwa [Few, (handed_reach h₀ (h.trans h')).sent]
  have hsteps := Session.reach_steps (reach_of_opening (fun _ _ => True) h) hw
    fun s a _ _ => permits_any s a
  have hsteps' := Session.reach_steps (reach_of_opening (fun _ _ => True) h') (Steps.wf hsteps hw)
    fun s a _ _ => permits_any s a
  have hs : Sound s.toCore :=
    Steps.sound hsteps (hc ▸ sound_start cfg role) (Steps.few hsteps' hfew)
  have hs' := Steps.sound hsteps' hs hfew
  refine ⟨htaken ▸ hs.wireGrammar h0, fun hend => ?_, fun hno => hs.refused h0 (htaken ▸ hno)⟩
  refine framesOf_eq_of_msgs (Steps.sent_prefix hsteps') (fun f hf he => ?_)
    (Steps.over hsteps' hs hfew h0 (hs.over h0 hend)).2
  subst he
  exact (hs'.plain.sent f hf).said h0

/-- A stream opened, written to and closed by both sides. -/
def closedRun : List Call :=
  openedRun ++ [.write 1 [7], .close 1, .recv (encode (finFrame 1))]

theorem wire_grammar_closedRun :
    ∃ s s', s = (closedRun.foldl opening (newDialer, [])).1 ∧ s' = s.call (.write 1 [8])
      ∧ WireGrammar True 1 (framesOf 1 s.sent) ∧ framesOf 1 s'.sent = framesOf 1 s.sent := by
  have h : Reach (ofFun opening) (fun _ _ => True) (newDialer, [])
      (closedRun.foldl opening (newDialer, [])) :=
    .foldl closedRun (by simp [closedRun, openedRun, greetedRun, Allowed])
  have h2 : (closedRun.foldl opening (newDialer, [])).2 = [1] := by decide +kernel
  have hfin : finFrame 1 ∈ (closedRun.foldl opening (newDialer, [])).1.sent := by decide +kernel
  have hclosed : .closed 1 ∈ (closedRun.foldl opening (newDialer, [])).1.queued := by
    decide +kernel
  generalize closedRun.foldl opening (newDialer, []) = p at h h2 hfin hclosed ⊢
  obtain ⟨s, taken⟩ := p
  cases h2
  have h' : Reach (ofFun opening) (fun _ _ => True) (s, [1]) (s.call (.write 1 [8]), [1]) :=
    .single (a := .write 1 [8]) trivial rfl
  obtain ⟨hg, hend, -⟩ :=
    wire_grammar muxSessionNew_newDialer h h' (by decide) (by decide : (1 : UInt32) ≠ muxSidControl)
  refine ⟨s, _, rfl, rfl, ?_, hend (.inr (.inr ⟨hfin, hclosed⟩))⟩
  rwa [eq_true (show (1 : UInt32) ∈ [1] by decide)] at hg

end Wire

/-! ### The events -/

section Events

variable {c c' : Core} {a : Act} {f : Frame} {sid : UInt32}

/-- The peer closes its side of a stream a second time, with an empty FIN. -/
def RepeatsFin (c : Core) (f : Frame) : Prop :=
  f.type = muxTData ∧ f.has muxFSyn = false ∧ f.has muxFRst = false ∧ f.has muxFFin = true
    ∧ f.payload = [] ∧ (stFind c.tab f.sid).any (·.2.life = .hclRemote) = true

instance RepeatsFin.decidable (c : Core) (f : Frame) : Decidable (RepeatsFin c f) :=
  inferInstanceAs (Decidable (_ ∧ _))

def Event.openedId : Event → Option UInt32
  | .opened id _ => some id
  | _ => none

/-- The ids of the streams announced. -/
def openedIds (q : List Event) : List UInt32 := q.filterMap Event.openedId

@[simp] theorem openedIds_nil : openedIds [] = [] := rfl

@[simp] theorem openedIds_cons (e : Event) (q) :
    openedIds (e :: q) = e.openedId.toList ++ openedIds q := by
  rcases h : e.openedId <;> simp [openedIds, h]

@[simp] theorem openedIds_append (q q') : openedIds (q ++ q') = openedIds q ++ openedIds q' := by
  simp [openedIds]

@[simp] theorem openedIds_ite {p : Prop} [Decidable p] (q q') :
    openedIds (if p then q else q') = if p then openedIds q else openedIds q' := apply_ite ..

theorem Step.openedIds_queued (h : Step c a c') :
    openedIds c'.queued = openedIds c.queued
      ∨ ∃ f, SynOk c f ∧ c'.maxRemoteSid = f.sid
        ∧ openedIds c'.queued = openedIds c.queued ++ [f.sid] := by
  cases h with
  | accepted _ hok | acceptedFin _ hok | acceptedRst _ hok =>
    exact .inr ⟨_, hok, by simp, by simp [openedId]⟩
  | notice e _ _ he =>
    rcases he with ⟨rfl, -⟩ | ⟨rfl, -⟩ <;> exact .inl (by simp [openedId])
  | _ => exact .inl (by simp [openedId])

theorem Frame.of_msg_fin {p} (h : f.msg sid = some (.data p true)) :
    f.sid = sid ∧ f.type = muxTData ∧ f.has muxFSyn = false ∧ f.has muxFRst = false
      ∧ f.has muxFFin = true ∧ f.payload = p := by
  unfold Frame.msg at h
  split at h
  · rename_i hs
    unfold Frame.said at h
    split_ifs at h <;> simp_all
  · cases h

theorem Step.repeatsFin (h : Step c a c') (hfin : (c.view sid).FinAgain (c'.view sid)) :
    ∃ f, a = .hear f ∧ RepeatsFin c f := by
  obtain ⟨e, hl, hlife, hinp⟩ := hfin
  have hgot : msgs sid a.heard = [.data [] true] := by
    have : msgs sid c'.got = msgs sid c.got ++ [.data [] true] := hinp
    rwa [h.got_eq, msgs_append, append_cancel_left_eq] at this
  cases a with
  | hear f =>
    rw [Act.heard, msgs_singleton, toList_eq_singleton_iff] at hgot
    obtain ⟨hs, h1, h2, h3, h4, h5⟩ := Frame.of_msg_fin hgot
    obtain ⟨st, hst, rfl⟩ := map_eq_some_iff.1 hl
    obtain ⟨i, hi⟩ := stFind_of_lookup hst
    refine ⟨f, rfl, h1, h2, h3, h4, h5, ?_⟩
    rw [hs, hi]
    simpa [MuxStream.streamEnd] using hlife
  | _ => cases hgot

theorem Step.notices_control (h : Step c a c') (hp : AllPlain c)
    (hq : notices muxSidControl c.queued = []) : notices muxSidControl c'.queued = [] := by
  cases h with
  | wake hg => simp [hq, Event.notice, hp.sids _ _ hg]
  | accepted _ hok | acceptedFin _ hok | acceptedRst _ hok => simp [hq, Event.notice, hok.sid_ne]
  | resetBy _ _ hon => simp [hq, Event.notice, hon.sid_ne]
  | aborted _ _ hon | data _ hon | fin _ hon | finLast _ hon =>
    simp [hq, Event.notice, hon.sid_ne, apply_ite (notices muxSidControl)]
  | woken _ _ h0 => simp [hq, Event.notice, h0]
  | helloBad _ _ hl | hello _ _ _ _ hl | helloReply _ _ _ _ _ hl =>
    simp [hq, Event.notice, apply_ite (notices muxSidControl)]
  | notice e _ _ he =>
    rcases he with ⟨rfl, -⟩ | ⟨rfl, -⟩ <;> simp [hq, Event.notice]
  | _ => simp [hq, apply_ite (notices muxSidControl)]

/-- What holds of the events whatever the peer sends. -/
structure InOrder (c : Core) : Prop where
  sound : Sound c
  control : notices muxSidControl c.queued = []
  sorted : (openedIds c.queued).Pairwise (· < ·)
  opened : ∀ id ∈ openedIds c.queued, id ≤ c.maxRemoteSid ∧ id ≠ muxSidControl ∧ ¬ Own c.role id

theorem Step.inOrder (h : Step c a c') (hi : InOrder c) (hf : Few c') : InOrder c' := by
  refine ⟨h.sound hi.sound hf, h.notices_control hi.sound.plain hi.control, ?_, ?_⟩
  · rcases h.openedIds_queued with e | ⟨f, hok, -, e⟩
    · exact e ▸ hi.sorted
    · rw [e, pairwise_append]
      refine ⟨hi.sorted, pairwise_singleton _ _, fun id hid id' hid' => ?_⟩
      rw [mem_singleton.1 hid']
      exact UInt32.lt_of_le_of_lt (hi.opened id hid).1 hok.fresh
  · rw [h.role_eq]
    intro id hid
    rcases h.openedIds_queued with e | ⟨f, hok, hmax, e⟩
    · obtain ⟨h1, h2⟩ := hi.opened id (e ▸ hid)
      exact ⟨UInt32.le_trans h1 h.maxRemoteSid_le, h2⟩
    · rw [e] at hid
      rcases mem_append.1 hid with hid | hid
      · obtain ⟨h1, h2⟩ := hi.opened id hid
        exact ⟨UInt32.le_trans h1 h.maxRemoteSid_le, h2⟩
      · rw [mem_singleton.1 hid]
        exact ⟨hmax ▸ UInt32.le_refl _, hok.sid_ne, hok.not_own⟩

theorem inOrder_start (cfg role) : InOrder (startCore cfg role) := by
  refine ⟨sound_start cfg role, ?_, ?_, ?_⟩ <;> simp [startCore_queued]

structure Announces (c : Core) : Prop extends InOrder c where
  once : ∀ sid, sid ≠ muxSidControl → (notices sid c.queued).count .closed ≤ 1

theorem Step.announces (h : Step c a c') (ha : ∀ f, a = .hear f → ¬ RepeatsFin c f)
    (hi : Announces c) (hf : Few c') : Announces c' := by
  refine ⟨h.inOrder hi.toInOrder hf, fun sid h0 => ?_⟩
  refine (h.view hi.sound.ids hf h0).closed_once (hi.sound.tells sid h0) (fun hfin => ?_)
    (hi.once sid h0)
  obtain ⟨f, haf, hrep⟩ := h.repeatsFin hfin
  exact ha f haf hrep

theorem announces_start (cfg role) : Announces (startCore cfg role) :=
  ⟨inOrder_start cfg role, by simp [startCore_queued]⟩

/-- A call in which no FIN is heard again. -/
def FinsOnce (s : Session) : Call → Prop
  | .recv buf => EachFrame (fun s f => ¬ RepeatsFin s.toCore f) True buf.length s buf
  | _ => True

instance FinsOnce.decidable (s : Session) : ∀ a, Decidable (FinsOnce s a)
  | .recv buf => EachFrame.decidable _ _ buf.length s buf
  | .open _ | .write _ _ | .close _ | .reset _ _ | .consume _ _ | .sendCapacity _ | .goaway _
  | .onTimer _ | .sendAdvance _ | .nextEvent => inferInstanceAs (Decidable True)

theorem FinsOnce.permits {s a} (h : FinsOnce s a) :
    Permits (fun c a => ∀ f, a = .hear f → ¬ RepeatsFin c f) s a := by
  refine permits_unless (fun c f hrep ht => absurd (hrep.1.symm.trans ht) (by decide)) ?_
  rintro buf rfl
  exact h

/-- What a session tells its host of a stream, against any peer, as long as no FIN comes twice and a
dialer has not used up its ids. -/
theorem event_grammar {cfg : MuxConfig} {role : MuxRole} {s₀ s : Session} {taken : List UInt32}
    (h₀ : muxSessionNew cfg role = some s₀)
    (h : Reach (ofFun opening) (fun p a => FinsOnce p.1 a) (s₀, []) (s, taken))
    (hf : role = .acceptor ∨ taken.length < 2 ^ 31) :
    (∀ sid, Announced (Own role sid) (notices sid s.queued)
        ∧ (notices sid s.queued).count .closed ≤ 1)
      ∧ (openedIds s.queued).Pairwise (· < ·)
      ∧ ∀ id ∈ openedIds s.queued, id ≠ muxSidControl ∧ ¬ Own role id := by
  obtain ⟨hc, hw, -⟩ := muxSessionNew_spec h₀
  have hh := handed_reach h₀ (h.mono fun _ _ _ => trivial)
  have hfew : Few s.toCore := by
    rw [Few, hh.sent]
    exact hf.elim hh.bound id
  have hsteps := Session.reach_steps (reach_of_opening FinsOnce h) hw fun s a _ => FinsOnce.permits
  have hi : Announces s.toCore := by
    clear h hh
    generalize s.toCore = c at hsteps hfew
    rw [hc] at hsteps
    induction hsteps with
    | start => exact announces_start cfg role
    | step _ ha h ih => exact h.announces ha (ih (h.few hfew)) hfew
  refine ⟨fun sid => ?_, hi.sorted, fun id hid => hh.role_eq ▸ (hi.opened id hid).2⟩
  by_cases h0 : sid = muxSidControl
  · subst h0
    rw [hi.control]
    exact ⟨.nil _, by simp⟩
  · exact ⟨hh.role_eq ▸ (hi.sound.tells sid h0).announced, hi.once sid h0⟩

/-- A peer that opens a stream with a FIN and sends another. -/
def finTwiceRun : List Call :=
  [.recv (encode (helloFrame (initSession {} .dialer).toCore false)),
    .recv (encode { synFrame 1 [] with flags := muxFSyn ||| muxFFin }), .recv (encode (finFrame 1))]

/-- The second FIN is told as well. -/
theorem closed_told_twice : ∃ s₀ s, muxSessionNew { maxStreams := 1 } .acceptor = some s₀
    ∧ s = finTwiceRun.foldl Session.call s₀
    ∧ notices 1 s.queued = [.opened, .closed, .closed] :=
  ⟨initSession { maxStreams := 1 } .acceptor, _, rfl, rfl, by decide +kernel⟩

theorem event_grammar_finTwiceRun : ∃ s₀ s, muxSessionNew { maxStreams := 1 } .acceptor = some s₀
    ∧ s = ((finTwiceRun.take 2).foldl opening (s₀, [])).1
    ∧ notices 1 s.queued = [.opened, .closed] ∧ openedIds s.queued = [1]
    ∧ ∀ sid, Announced (Own .acceptor sid) (notices sid s.queued) := by
  have hnew : muxSessionNew { maxStreams := 1 } .acceptor
      = some (initSession { maxStreams := 1 } .acceptor) := rfl
  have h : Reach (ofFun opening) (fun p a => FinsOnce p.1 a)
      (initSession { maxStreams := 1 } .acceptor, [])
      ((finTwiceRun.take 2).foldl opening (initSession { maxStreams := 1 } .acceptor, [])) :=
    .foldl (finTwiceRun.take 2) (by decide +kernel)
  refine ⟨_, _, hnew, rfl, by decide +kernel, by decide +kernel, ?_⟩
  generalize (finTwiceRun.take 2).foldl opening (initSession { maxStreams := 1 } .acceptor, []) = p
    at h ⊢
  obtain ⟨s, taken⟩ := p
  exact fun sid => ((event_grammar hnew h (.inl rfl)).1 sid).1

end Events

end MuxProtocol
