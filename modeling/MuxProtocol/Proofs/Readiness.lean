import MuxProtocol.Proofs.Lifetime

/-!
# The readiness of the client library

In poll mode the notify pipe holds a byte whenever `lp_poll` would find something, and each stream
with something to read is in the ready list or was reported since. Both are true of news that comes
in poll mode. `lp_fileno` turns it on and looks at nothing that is there already.
-/

namespace MuxProtocol

open Machine Intrusive

/-- What can be read is reported, or will be by the next `lp_poll` that gets so far. -/
def LpStream.Noted (st : LpStream) : Prop :=
  st.appClosed = false → st.holds = true →
    st.reported = true ∨ st.inReady = true ∧ st.evPending.readable = true

namespace LpClient

variable {c c' : LpClient} {p : ℕ} {hmac : Hmac}

/-! ### Streams -/

/-- A change that makes a stream readable reports it. -/
theorem StreamStep.noted {a} {st st' : LpStream} (h : StreamStep true a st st') (hst : st.Noted) :
    st'.Noted := by
  cases h with
  | arrive | closed | reset | lose =>
    intro _ _
    exact .inr ⟨rfl, by simp [LpStream.news, LpStream.mark, LpBits.or]⟩
  | sated =>
    intro hc hh
    rcases hst hc hh with h | ⟨h1, h2⟩
    · exact .inl h
    · exact .inr ⟨rfl, by simp [LpStream.news, LpStream.mark, LpStream.sated, LpBits.or, h2]⟩
  | read n =>
    intro hc hh
    refine hst hc ?_
    simp only [LpStream.holds, LpStream.pend, LpStream.read, ne_eq, Bool.or_eq_true,
      decide_eq_true_eq] at hh ⊢
    rcases hh with (hb | he) | hr
    · refine .inl (.inl fun hnil => of_decide_eq_true hb ?_)
      rw [hnil, List.drop_nil]
    · exact .inl (.inr he)
    · exact .inr hr
  | again hr =>
    intro _ hh
    rw [show st.holds = true from hh] at hr
    cases hr
  | close =>
    intro hc
    cases hc
  | unmark =>
    intro hc hh
    refine .inl ?_
    rcases hst hc hh with h | ⟨-, h⟩
    · simp [LpStream.unmark, h]
    · have hopen : st.appClosed = false := hc
      simp [LpStream.unmark, h, hopen]
  | pend | credited | send | finish | retire | stall | accept | write | want => exact hst

/-! ### The pipe -/

/-- What a deed does to the lists that `lp_poll` looks at, and to the pipe: it takes from the lists,
or puts a byte in the pipe. -/
inductive Tolls (c c' : LpClient) : Prop
  | still (hm : c'.pollMode = c.pollMode) (hn : c'.notified = c.notified)
      (hb : c'.notify = c.notify) (ha : c'.accept <:+ c.accept) (hr : c'.ready <:+ c.ready)
  | raised (hm : c'.pollMode = c.pollMode) (hn : c'.notified = (c.notified || c.pollMode))
      (hb : c'.notify = if c.pollMode = false ∨ c.notified then c.notify else c.notify + 1)
      (hr : c.pollMode = false → c'.ready = c.ready)

theorem Tolls.refl (c) : Tolls c c :=
  .still rfl rfl rfl List.suffix_rfl List.suffix_rfl

theorem Tolls.congr {c'' : LpClient} (h : Tolls c c') (hm : c''.pollMode = c'.pollMode)
    (hn : c''.notified = c'.notified) (hb : c''.notify = c'.notify) (ha : c''.accept = c'.accept)
    (hr : c''.ready = c'.ready) : Tolls c c'' := by
  cases h with
  | still h1 h2 h3 h4 h5 =>
    exact .still (hm.trans h1) (hn.trans h2) (hb.trans h3) (ha ▸ h4) (hr ▸ h5)
  | raised h1 h2 h3 h4 =>
    exact .raised (hm.trans h1) (hn.trans h2) (hb.trans h3) fun h => hr.trans (h4 h)

theorem Tolls.streamTryFree (h : Tolls c c') : Tolls c (c'.streamTryFree p) := by
  rcases streamTryFree_cases c' p with heq | ⟨st, hp, hd, hc, hpen, hrdy⟩
  · rwa [heq]
  · rw [streamTryFree_eq hp hd hc hpen hrdy]
    exact h.congr rfl rfl rfl rfl rfl

theorem Tolls.pendingPush (h : Tolls c c') : Tolls c (c'.pendingPush p) := by
  unfold LpClient.pendingPush
  split
  · exact h
  · exact h.congr rfl rfl rfl rfl rfl

theorem tolls_readyMark {st} (hp : c.heap p = some st) (g bits) :
    Tolls c ((c.modify p g).readyMark p bits) := by
  rw [modify_readyMark_eq hp]
  refine .raised rfl rfl rfl fun hm => ?_
  simp [hm]

/-- What a deed puts into a list, it rings for. -/
theorem Deed.tolls {a} (h : Deed c a c') (hi : Links c) (hfileno : a ≠ .app .fileno)
    (hdrain : a ≠ .drain) (hrearm : a ≠ .rearm) : Tolls c c' := by
  have hstill := Tolls.refl c
  have hcall : ∀ {c'}, Tolls (c.call .nextEvent) c' → Tolls c c' := by
    intro c' h
    cases h with
    | still hm hn hb ha hr => exact .still hm hn hb ha hr
    | raised hm hn hb hr => exact .raised hm hn hb hr
  cases h with
  | call | note | skip | up | stop | credit | write | fin | again | want =>
    exact hstill.congr rfl rfl rfl rfl rfl
  | opened hs hf =>
    rw [onOpened_eq (by exact hi.unregistered hs hf)]
    exact .raised rfl rfl rfl fun _ => rfl
  | data _ _ hr => exact hcall (tolls_readyMark (by exact (regGet_some hr).2) ..)
  | closed _ _ hr | reset _ _ hr =>
    exact hcall (tolls_readyMark (by exact (regGet_some hr).2) ..).streamTryFree
  | writable => exact Tolls.pendingPush (hstill.congr (by rfl) (by rfl) (by rfl) (by rfl) (by rfl))
  | room hp | lose hp => exact tolls_readyMark hp ..
  | retire | stall =>
    exact Tolls.streamTryFree (hstill.congr (by rfl) (by rfl) (by rfl) (by rfl) (by rfl))
  | hangUp =>
    rw [hi.hangUp_eq]
    exact hstill.congr rfl rfl rfl rfl rfl
  | reap => exact hstill.streamTryFree
  | accept hl => exact .still rfl rfl rfl (hl ▸ List.suffix_cons ..) List.suffix_rfl
  | read | put | close =>
    exact Tolls.pendingPush (hstill.congr (by rfl) (by rfl) (by rfl) (by rfl) (by rfl))
  | report hl => exact .still rfl rfl rfl List.suffix_rfl (hl ▸ List.suffix_cons ..)
  | forget hl =>
    refine Tolls.streamTryFree (.still (by rfl) (by rfl) (by rfl) List.suffix_rfl ?_)
    exact hl ▸ List.suffix_cons ..
  | fileno => exact absurd rfl hfileno
  | drain => exact absurd rfl hdrain
  | rearm => exact absurd rfl hrearm

/-- The flag is set only over a byte, and there is no news before poll mode. -/
structure Armed (c : LpClient) : Prop where
  pipe : c.notified = true → 0 < c.notify
  off : c.pollMode = false → c.ready = []

/-- The flag is set if `lp_poll` would find something. -/
def Rung (c : LpClient) : Prop :=
  c.pollMode = true → c.accept ≠ [] ∨ c.ready ≠ [] → c.notified = true

theorem Tolls.armed (h : Tolls c c') (ha : Armed c) : Armed c' := by
  cases h with
  | still h1 h2 h3 _ h5 =>
    refine ⟨fun hn => ?_, fun hm => ?_⟩
    · rw [h3]
      exact ha.pipe (h2 ▸ hn)
    · rw [ha.off (h1 ▸ hm)] at h5
      exact List.suffix_nil.1 h5
  | raised h1 h2 h3 h4 =>
    refine ⟨fun hn => ?_, fun hm => ?_⟩
    · rw [h3]
      rw [h2] at hn
      split
      · rename_i hoff
        refine ha.pipe ?_
        rcases hoff with hoff | hoff
        · simpa [hoff] using hn
        · exact hoff
      · omega
    · rw [h1] at hm
      rw [h4 hm, ha.off hm]

theorem Tolls.rung (h : Tolls c c') (hr : Rung c) : Rung c' := by
  cases h with
  | still h1 h2 _ h4 h5 =>
    intro hm hne
    rw [h2]
    refine hr (h1 ▸ hm) (hne.imp ?_ ?_)
    · rintro hne hnil
      rw [hnil] at h4
      exact hne (List.suffix_nil.1 h4)
    · rintro hne hnil
      rw [hnil] at h5
      exact hne (List.suffix_nil.1 h5)
  | raised h1 h2 =>
    intro hm _
    rw [h2, ← h1, hm, Bool.or_true]

theorem Tolls.pollMode (h : Tolls c c') : c'.pollMode = c.pollMode := by
  cases h with
  | still hm | raised hm => exact hm

theorem Armed.rearm (h : Armed c) : Armed { c with notified := false }.notifyRaise := by
  rw [notifyRaise_eq]
  refine ⟨fun hn => ?_, h.off⟩
  dsimp only at hn ⊢
  rw [Bool.false_or] at hn
  simp [hn]

/-- A deed sets the flag only with a byte. -/
theorem Armed.deed {a} (h : Armed c) (hi : Links c) (hd : Deed c a c') (hf : a ≠ .app .fileno) :
    Armed c' ∧ c'.pollMode = c.pollMode := by
  by_cases hdr : a = .drain
  · subst hdr
    cases hd
    exact ⟨⟨fun hn => (by cases hn), h.off⟩, rfl⟩
  by_cases hre : a = .rearm
  · subst hre
    cases hd
    refine ⟨h.rearm, ?_⟩
    rw [notifyRaise_eq]
  have ht := hd.tolls hi hf hdr hre
  exact ⟨ht.armed h, ht.pollMode⟩

/-! ### Moves -/

theorem Armed.deeds {m} (h : Armed c) (hi : Links c) (hm : m ≠ .app .fileno) (hd : Deeds m c c') :
    Armed c' ∧ c'.pollMode = c.pollMode := by
  have :=
    Reach.inv (I := fun c' => Links c' ∧ Armed c' ∧ c'.pollMode = c.pollMode) ⟨hi, h, rfl⟩ ?_ hd
  · exact this.2
  · rintro c₁ a c₂ ⟨h1, h2, h3⟩ ha hs
    obtain ⟨h4, h5⟩ := h2.deed h1 hs fun e => hm (by subst e; exact ha)
    exact ⟨hs.links h1, h4, h5.trans h3⟩

/-- In every run, whenever poll mode is turned on. -/
theorem Armed.move (h : Armed c) (hi : Links c) (m) : Armed (c.move hmac m) := by
  by_cases hm : m = .app .fileno
  · subst hm
    exact ⟨h.pipe, fun hno => by cases hno⟩
  · exact (h.deeds hi hm (move_deeds hmac hi m)).1

/-- The invariant between moves, -/
structure Vigilant (c : LpClient) : Prop where
  links : Links c
  armed : Armed c
  noted : c.pollMode = true → Each (fun _ => LpStream.Noted) c.heap

theorem Vigilant.deed {a} (h : Vigilant c) (hd : Deed c a c') (hf : a ≠ .app .fileno) :
    Vigilant c' ∧ c'.pollMode = c.pollMode := by
  have hmode := h.armed.deed h.links hd hf
  refine ⟨⟨hd.links h.links, hmode.1, fun hm => ?_⟩, hmode.2⟩
  rw [hmode.2] at hm
  refine (hd.outcome h.links).each (h.noted hm) (fun _ _ _ hst => hst) (fun _ _ _ _ => ?_)
    (fun _ _ _ _ hst hs => (hm ▸ hs).noted hst) (fun _ _ _ _ hst => hst)
  intro _ hh
  cases hh

theorem Vigilant.deeds {m} (h : Vigilant c) (hm : m ≠ .app .fileno) (hd : Deeds m c c') :
    Vigilant c' ∧ c'.pollMode = c.pollMode := by
  refine Reach.inv (I := fun c' => Vigilant c' ∧ c'.pollMode = c.pollMode) ⟨h, rfl⟩ ?_ hd
  intro c₁ a c₂ h₁ ha hs
  obtain ⟨h2, h3⟩ := h₁.1.deed hs fun e => hm (by subst e; exact ha)
  exact ⟨h2, h3.trans h₁.2⟩

theorem lpPoll_rung (hr : Rung c) (max : ℕ) : Rung (c.lpPoll max).1 := by
  unfold lpPoll
  split
  · exact hr
  · generalize pollAccept max { c with notify := 0, notified := false } = r
    obtain ⟨c₁, evs⟩ := r
    dsimp only
    generalize pollReady c₁.ready.length (max - evs.length) c₁ = r
    obtain ⟨c₂, evs'⟩ := r
    dsimp only
    split
    · rw [notifyRaise_eq]
      intro hm _
      exact hm
    · rename_i hno
      exact fun _ hne => absurd hne hno

theorem rung_deeds {m} (h : Vigilant c) (hr : Rung c) (hm : m ≠ .app .fileno)
    (hpoll : ∀ max, m ≠ .app (.poll max)) (hd : Deeds m c c') : Rung c' := by
  have := Reach.inv (I := fun c => Vigilant c ∧ Rung c) ⟨h, hr⟩ ?_ hd
  · exact this.2
  · intro c₁ a c₂ h₁ ha hs
    have hf : a ≠ .app .fileno := fun e => hm (by subst e; exact ha)
    refine ⟨(h₁.1.deed hs hf).1, (hs.tolls h₁.1.links hf ?_ ?_).rung h₁.2⟩
    · rintro rfl
      obtain ⟨max, hmax⟩ := ha
      exact hpoll max hmax
    · rintro rfl
      obtain ⟨max, hmax⟩ := ha
      exact hpoll max hmax

/-- When poll mode is turned on, no stream waits to be accepted and none has anything to read. -/
def Early (c : LpClient) : Move → Prop
  | .app .fileno => c.pollMode = false → c.accept = []
    ∧ Each (fun _ st => st.appClosed = false → st.holds = false) c.heap
  | _ => True

theorem lpFileno_vigilant (h : Vigilant c) (hr : Rung c) (hok : c.Early (.app .fileno)) :
    Vigilant c.lpFileno ∧ Rung c.lpFileno := by
  rcases hm : c.pollMode with _ | _
  · obtain ⟨hacc, hread⟩ := hok hm
    refine ⟨⟨Deed.links .fileno h.links, ⟨h.armed.pipe, fun hno => by cases hno⟩,
      fun _ p st hp hc hh => ?_⟩, fun _ hne => ?_⟩
    · rw [hread p st hp hc] at hh
      cases hh
    · rcases hne with hne | hne
      · exact absurd hacc hne
      · exact absurd (h.armed.off hm) hne
  · have heq : c.lpFileno = c := by
      rw [lpFileno, ← hm]
    rw [heq]
    exact ⟨h, hr⟩

/-- The pipe stays readable while there is something to find. -/
theorem Vigilant.move (h : Vigilant c ∧ Rung c) {m} (hok : c.Early m) :
    Vigilant (c.move hmac m) ∧ Rung (c.move hmac m) := by
  by_cases hf : m = .app .fileno
  · subst hf
    exact lpFileno_vigilant h.1 h.2 hok
  · have hd := move_deeds hmac h.1.links m
    refine ⟨(h.1.deeds hf hd).1, ?_⟩
    by_cases hp : ∃ max, m = .app (.poll max)
    · obtain ⟨max, rfl⟩ := hp
      exact lpPoll_rung h.2 max
    · exact rung_deeds h.1 h.2 hf (fun max e => hp ⟨max, e⟩) hd

theorem vigilant_start (cfg) : Vigilant (lpConnect cfg) ∧ Rung (lpConnect cfg) := by
  refine ⟨⟨links_start cfg, ⟨fun h => (by cases h), fun _ => rfl⟩, fun h => (by cases h)⟩,
    fun h => ?_⟩
  cases h

end LpClient

end MuxProtocol
