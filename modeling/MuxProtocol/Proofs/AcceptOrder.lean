import MuxProtocol.Proofs.Lifetime

/-!
# Accept precedes readiness

Streams are numbered as they are opened. What `lp_accept` and the accept events of `lp_poll` have
returned so far, followed by the accept queue, is every number in its order; and as `lp_poll` turns
to the ready list only when the queue is empty, a stream in that list has been returned by then.
-/

namespace MuxProtocol

open Machine Intrusive List

/-- The streams of the accept events. -/
def acceptedIn (evs : List LpEvent) : List ℕ := (evs.filter (·.events.accept)).map (·.stream)

@[simp] theorem acceptedIn_append (l l') :
    acceptedIn (l ++ l') = acceptedIn l ++ acceptedIn l' := by
  simp [acceptedIn]

theorem acceptedIn_eq_map {l : List LpEvent} (h : ∀ ev ∈ l, ev.events.accept = true) :
    acceptedIn l = l.map (·.stream) := by
  rw [acceptedIn, filter_eq_self.2 h]

theorem acceptedIn_eq_nil {l} (h : ∀ ev ∈ l, ev.events.accept = false) : acceptedIn l = [] := by
  rw [acceptedIn, filter_eq_nil_iff.2 fun ev hev => by simp [h ev hev], map_nil]

/-- An event of another kind is for a stream that an earlier event has announced. -/
def AcceptFirst (evs : List LpEvent) : Prop :=
  ∀ l ev l', evs = l ++ ev :: l' → ev.events.accept = false → ev.stream ∈ acceptedIn l

theorem AcceptFirst.append {l l'} (h : AcceptFirst l)
    (h' : ∀ ev ∈ l', ev.events.accept = true ∨ ev.stream ∈ acceptedIn l) :
    AcceptFirst (l ++ l') := by
  intro k ev k' heq hev
  rcases append_eq_append_iff.1 heq with ⟨m, rfl, rfl⟩ | ⟨m, rfl, hm⟩
  · rcases h' ev (by simp) with h1 | h1
    · simp [hev] at h1
    · rw [acceptedIn_append]
      exact mem_append_left _ h1
  · rcases m with _ | ⟨x, m⟩
    · rw [nil_append] at hm
      rcases h' ev (by simp [← hm]) with h1 | h1
      · simp [hev] at h1
      · simpa using h1
    · obtain ⟨rfl, -⟩ := cons_eq_cons.1 hm
      exact h k _ m rfl hev

namespace LpClient

variable {c c' : LpClient} {p : ℕ} {hmac : Hmac}

/-- What a move returns to the application: the events of `lp_poll`, and the stream of `lp_accept`
as one. -/
def returns (c : LpClient) : Move → List LpEvent
  | .app .accept =>
    match c.lpAccept.2 with
    | some (some p) => [{ stream := p, events := { accept := true } }]
    | _ => []
  | .app (.poll max) => (c.lpPoll max).2
  | _ => []

/-- A move of a client, with the record of what has been returned. -/
def logMove (hmac : Hmac) (x : LpClient × List LpEvent) (m : Move) :
    LpClient × List LpEvent :=
  (x.1.move hmac m, x.2 ++ x.1.returns m)

/-! ### The accept queue -/

/-- What the streams, the lists they are linked in and the notify pipe have no part in. -/
def Aloof {α : Type*} (φ : LpClient → α) : Prop :=
  ∀ (c : LpClient) heap ready pending notified notify all reg freed,
    φ { c with heap, ready, pending, notified, notify, all, reg, freed } = φ c

namespace Aloof

variable {α : Type*} {φ : LpClient → α} {g : LpStream → LpStream} {bits : LpBits}

theorem notifyRaise (h : Aloof φ) : φ c.notifyRaise = φ c := by
  rw [notifyRaise_eq]
  exact h c ..

theorem readyMark (h : Aloof φ) : φ (c.readyMark p bits) = φ c := by
  unfold LpClient.readyMark
  split
  · rfl
  · rw [h.notifyRaise]
    exact h c ..

theorem pendingPush (h : Aloof φ) : φ (c.pendingPush p) = φ c := by
  unfold LpClient.pendingPush
  split
  · rfl
  · exact h c ..

theorem streamTryFree (h : Aloof φ) : φ (c.streamTryFree p) = φ c := by
  unfold LpClient.streamTryFree
  split
  · rfl
  · split
    · rfl
    · split
      · rfl
      · exact h c ..

end Aloof

/-- The streams to be accepted, and how many were opened. -/
def queue (c : LpClient) : List ℕ × ℕ := (c.accept, c.next)

theorem queue_aloof : Aloof queue := fun _ _ _ _ _ _ _ _ _ => rfl

section Queue

/-- A deed leaves the queue alone, appends a new stream or takes the head. -/
theorem Deed.queue {a} (h : Deed c a c') (hi : Links c) : c'.queue = c.queue
    ∨ c'.queue = (c.accept ++ [c.next], c.next + 1)
    ∨ ∃ b p, a = .app b ∧ c.queue = (p :: c'.accept, c'.next) := by
  cases h with
  | call | note | skip | up | fileno | stop | drain | credit | write | fin | again | want
  | report =>
    exact .inl rfl
  | rearm => exact .inl queue_aloof.notifyRaise
  | opened hs hf =>
    rw [onOpened_eq (by exact hi.unregistered hs hf)]
    exact .inr (.inl rfl)
  | data | room | lose => exact .inl queue_aloof.readyMark
  | closed | reset => exact .inl (queue_aloof.streamTryFree.trans queue_aloof.readyMark)
  | writable | read | put | close => exact .inl queue_aloof.pendingPush
  | retire | stall | reap | forget => exact .inl queue_aloof.streamTryFree
  | hangUp =>
    rw [hi.hangUp_eq]
    exact .inl rfl
  | accept hl => exact .inr (.inr ⟨_, _, rfl, by rw [LpClient.queue, hl]; rfl⟩)

theorem app_queue {a} (h1 : a ≠ .accept) (h2 : ∀ max, a ≠ .poll max) :
    (c.app a).queue = c.queue := by
  have hhandle : ∀ {p : ℕ} {f : LpStream → LpClient}, (∀ st, (f st).queue = c.queue) →
      (((c.handle p).map f).getD c).queue = c.queue := by
    intro p f hf
    rcases c.handle p with _ | st
    · rfl
    · exact hf st
  have hread : ∀ p st n, (c.takeRead p st n).1.queue = c.queue :=
    fun _ _ _ => queue_aloof.pendingPush
  have hput : ∀ p b, (c.putWrite p b).1.queue = c.queue := fun _ _ => queue_aloof.pendingPush
  cases a with
  | accept => exact absurd rfl h1
  | poll max => exact absurd rfl (h2 max)
  | fileno | disconnect => rfl
  | read p n =>
    refine hhandle fun st => ?_
    unfold lpRead
    split_ifs
    all_goals first | rfl | exact hread _ st _
  | readNb p n =>
    refine hhandle fun st => ?_
    unfold lpReadNb
    split_ifs
    all_goals first | rfl | exact hread _ st _
  | write p b =>
    refine hhandle fun st => ?_
    unfold lpWrite
    split_ifs
    all_goals first | rfl | exact hput ..
  | writeNb p b =>
    refine hhandle fun st => ?_
    unfold lpWriteNb
    split_ifs
    all_goals first | rfl | exact hput ..
  | close p => exact hhandle fun _ => queue_aloof.pendingPush

end Queue

/-! ### Events -/

/-- The accept bit is not among those that wait in a stream. -/
def Unannounced (c : LpClient) : Prop := Each (fun _ st => st.evPending.accept = false) c.heap

theorem StreamStep.unannounced {on a} {st st' : LpStream} (h : StreamStep on a st st')
    (hst : st.evPending.accept = false) : st'.evPending.accept = false := by
  have hnews : ∀ (st : LpStream) (bits : LpBits), st.evPending.accept = false →
      bits.accept = false → (st.news on bits).evPending.accept = false := by
    intro st bits h1 h2
    unfold LpStream.news
    split
    · simp [LpStream.mark, LpBits.or, h1, h2]
    · exact h1
  cases h with
  | arrive | closed | reset | sated => exact hnews _ _ hst rfl
  | lose =>
    refine hnews _ _ ?_ rfl
    split
    · exact hst
    · exact hst
  | unmark => rfl
  | _ => exact hst

theorem Unannounced.deed {a} (h : Unannounced c) (hi : Links c) (hd : Deed c a c') :
    Unannounced c' :=
  (hd.outcome hi).each h (fun _ _ _ hst => hst) (fun _ _ _ _ => rfl)
    (fun _ _ _ _ hst hs => hs.unannounced hst) (fun _ _ _ _ hst => hst)

theorem Unannounced.deeds {m} (h : Unannounced c) (hi : Links c) (hd : Deeds m c c') :
    Unannounced c' := by
  have := Reach.inv (I := fun c => Links c ∧ Unannounced c) ⟨hi, h⟩
    (fun _ _ _ h _ hs => ⟨hs.links h.1, h.2.deed h.1 hs⟩) hd
  exact this.2

/-- The accept events of `lp_poll` are the queue from its head on, all of it if there is space
left. -/
theorem pollAccept_spec : ∀ (n : ℕ) (c : LpClient),
    (∀ ev ∈ (pollAccept n c).2, ev.events = { accept := true })
      ∧ (pollAccept n c).2.map (·.stream) ++ (pollAccept n c).1.accept = c.accept
      ∧ (pollAccept n c).1.next = c.next
      ∧ ((pollAccept n c).2.length < n → (pollAccept n c).1.accept = [])
  | 0, c => by simp [pollAccept]
  | n + 1, c => by
    rw [pollAccept, acceptPop]
    rcases hl : c.accept with _ | ⟨p, ps⟩
    · simp [hl]
    · obtain ⟨h1, h2, h3, h4⟩ :=
        pollAccept_spec n ({ c with accept := ps }.modify p fun st => { st with handed := true })
      dsimp only
      refine ⟨?_, ?_, h3, fun h => h4 ?_⟩
      · simpa using h1
      · rw [map_cons, cons_append, h2]
        rfl
      · simpa using h

theorem readyPop_spec (hi : Links c) (hu : Unannounced c) :
    c.readyPop.1.queue = c.queue
      ∧ ∀ ev ∈ c.readyPop.2, ev.events.accept = false ∧ ev.stream < c.next := by
  unfold readyPop
  rcases hl : c.ready with _ | ⟨p, ps⟩
  · simp
  · obtain ⟨st, hp, -⟩ := (hi.ready.mem_iff p).1 (hl ▸ mem_cons_self)
    dsimp only
    rw [hp]
    dsimp only
    split
    · exact ⟨queue_aloof.streamTryFree, by simp⟩
    · refine ⟨rfl, fun ev hev => ?_⟩
      rw [mem_singleton.1 hev]
      exact ⟨hu p st hp, hi.lt_next hp⟩

theorem pollReady_spec : ∀ (f n : ℕ) {c : LpClient}, Links c → Unannounced c →
    (pollReady f n c).1.queue = c.queue
      ∧ (∀ ev ∈ (pollReady f n c).2, ev.events.accept = false ∧ ev.stream < c.next)
      ∧ (n = 0 → (pollReady f n c).2 = [])
  | 0, _, _, _, _ => by simp [pollReady]
  | f + 1, n, c, hi, hu => by
    rw [pollReady]
    by_cases hn : n = 0 ∨ c.ready = []
    · rw [if_pos hn]
      simp
    · rw [if_neg hn]
      have hd := readyPop_deeds 0 hi
      obtain ⟨h1, h2⟩ := readyPop_spec hi hu
      obtain ⟨h3, h4, -⟩ := pollReady_spec f (n - c.readyPop.2.length) (hd.links hi)
        (hu.deeds hi hd)
      have hnext : c.readyPop.1.next = c.next := congrArg Prod.snd h1
      refine ⟨h3.trans h1, fun ev hev => ?_, fun h => absurd (.inl h) hn⟩
      rcases mem_append.1 hev with hev | hev
      · exact h2 ev hev
      · exact hnext ▸ h4 ev hev

/-- What `lp_poll` returns: first what it takes from the accept queue, then news of streams, and
these only if the queue is empty. -/
structure Polled (c c' : LpClient) (evs evs' : List LpEvent) : Prop where
  accept : ∀ ev ∈ evs, ev.events = { accept := true }
  taken : evs.map (·.stream) ++ c'.accept = c.accept
  next : c'.next = c.next
  news : ∀ ev ∈ evs', ev.events.accept = false ∧ ev.stream < c.next
  last : evs' ≠ [] → c'.accept = []

/-- A poll reports streams to accept, and then those that are ready. -/
theorem lpPoll_spec (hi : Links c) (hu : Unannounced c) (max : ℕ) : ∃ evs evs',
    (c.lpPoll max).2 = evs ++ evs' ∧ Polled c (c.lpPoll max).1 evs evs' := by
  unfold lpPoll
  by_cases hmax : max = 0
  · rw [if_pos hmax]
    exact ⟨[], [], rfl, by simp, rfl, rfl, by simp, by simp⟩
  · rw [if_neg hmax]
    have hd0 : Deeds (.app (.poll max)) c { c with notify := 0, notified := false } :=
      .one .drain ⟨max, rfl⟩
    obtain ⟨h1, h2, h3, h4⟩ := pollAccept_spec max { c with notify := 0, notified := false }
    have hd1 := hd0.trans (pollAccept_deeds max _)
    generalize pollAccept max { c with notify := 0, notified := false } = r at h1 h2 h3 h4 hd1 ⊢
    obtain ⟨c₁, evs₁⟩ := r
    obtain ⟨h5, h6, h7⟩ := pollReady_spec c₁.ready.length (max - evs₁.length) (hd1.links hi)
      (hu.deeds hi hd1)
    dsimp only at h1 h2 h3 h4 h5 h6 h7 ⊢
    generalize pollReady c₁.ready.length (max - evs₁.length) c₁ = r at h5 h6 h7 ⊢
    obtain ⟨c₂, evs₂⟩ := r
    dsimp only at h5 h6 h7 ⊢
    have hq : ∀ c' : LpClient, c'.queue = c₁.queue → Polled c c' evs₁ evs₂ := by
      intro c' hc'
      obtain ⟨ha, hn⟩ := Prod.ext_iff.1 hc'
      change c'.accept = c₁.accept at ha
      change c'.next = c₁.next at hn
      refine ⟨h1, by rw [ha]; exact h2, hn.trans h3, fun ev hev => h3 ▸ h6 ev hev, fun hne => ?_⟩
      -- there is space left for an event of the ready list
      rw [ha]
      refine h4 ?_
      by_contra hno
      exact hne (h7 (by omega))
    refine ⟨evs₁, evs₂, rfl, hq _ ?_⟩
    split
    · exact queue_aloof.notifyRaise.trans h5
    · exact h5

/-! ### Runs -/

/-- The streams are returned as they were opened, and an event comes after its stream. -/
structure InOrder (x : LpClient × List LpEvent) : Prop where
  links : Links x.1
  unannounced : Unannounced x.1
  taken : acceptedIn x.2 ++ x.1.accept = range x.1.next
  first : AcceptFirst x.2

namespace InOrder

variable {evs : List LpEvent}

theorem deeds {m} (h : InOrder (c, evs)) (hd : Deeds m c c')
    (ht : acceptedIn evs ++ c'.accept = range c'.next) : InOrder (c', evs) :=
  ⟨hd.links h.links, h.unannounced.deeds h.links hd, ht, h.first⟩

theorem idle {m} (h : InOrder (c, evs)) (hd : Deeds m c c') (hq : c'.queue = c.queue) :
    InOrder (c', evs) := by
  obtain ⟨h1, h2⟩ := Prod.ext_iff.1 hq
  refine h.deeds hd ?_
  rw [show c'.accept = c.accept from h1, show c'.next = c.next from h2]
  exact h.taken

/-- What the io thread does leaves the reports in order. -/
theorem deed {a : Act} {m} (h : InOrder (c, evs)) (hm : ∀ b, m ≠ .app b) (ha : a.Of m)
    (hd : Deed c a c') : InOrder (c', evs) := by
  rcases hd.queue h.links with hq | hq | ⟨b, p, rfl, -⟩
  · exact h.idle (.one hd ha) hq
  · obtain ⟨h1, h2⟩ := Prod.ext_iff.1 hq
    refine h.deeds (.one hd ha) ?_
    rw [show c'.accept = _ from h1, show c'.next = _ from h2, range_succ, ← h.taken, append_assoc]
  · exact absurd ha (hm b)

theorem thread {m} (h : InOrder (c, evs)) (hm : ∀ b, m ≠ .app b) : InOrder (c.move hmac m, evs) :=
  Reach.inv (I := fun c => InOrder (c, evs)) h (fun _ _ _ h ha hd => h.deed hm ha hd)
    (move_deeds hmac h.links m)

theorem accept (h : InOrder (c, evs)) : InOrder (logMove hmac (c, evs) (.app .accept)) := by
  have hd := move_deeds hmac h.links (.app .accept)
  have ht := h.taken
  dsimp only at ht
  unfold logMove
  dsimp only
  simp only [returns, move, app] at hd ⊢
  unfold lpAccept acceptPop at hd ⊢
  by_cases hw : c.accept = [] ∧ c.stopping = false
  · simp only [if_pos hw, append_nil]
    exact h
  · simp only [if_neg hw] at hd ⊢
    rcases hl : c.accept with _ | ⟨p, ps⟩
    · simp only [append_nil]
      exact h
    · simp only [hl] at hd ⊢
      refine ⟨hd.links h.links, h.unannounced.deeds h.links hd, ?_, h.first.append (by simp)⟩
      rw [hl] at ht
      rw [acceptedIn_append, append_assoc]
      exact ht

/-- A poll reports from the front of the queue, so in order. -/
theorem poll (h : InOrder (c, evs)) (max : ℕ) :
    InOrder (logMove hmac (c, evs) (.app (.poll max))) := by
  have hd := move_deeds hmac h.links (.app (.poll max))
  obtain ⟨evs₁, evs₂, heq, hp⟩ := lpPoll_spec h.links h.unannounced max
  simp only [logMove, returns, move, app] at hd ⊢
  rw [heq]
  have hall : ∀ ev ∈ evs₁, ev.events.accept = true := fun ev hev => by rw [hp.accept ev hev]
  have hnil : acceptedIn evs₂ = [] := acceptedIn_eq_nil fun ev hev => (hp.news ev hev).1
  have htaken : acceptedIn (evs ++ evs₁) ++ (c.lpPoll max).1.accept = range c.next := by
    rw [acceptedIn_append, acceptedIn_eq_map hall, append_assoc, hp.taken]
    exact h.taken
  -- there is an event of the ready list only if the queue is empty
  have hready : ∀ ev ∈ evs₂, ev.stream ∈ acceptedIn (evs ++ evs₁) := by
    intro ev hev
    rw [hp.last (ne_nil_of_mem hev), append_nil] at htaken
    rw [htaken, mem_range]
    exact (hp.news ev hev).2
  refine ⟨hd.links h.links, h.unannounced.deeds h.links hd, ?_, ?_⟩
  · rw [← append_assoc, acceptedIn_append, hnil, append_nil, hp.next]
    exact htaken
  · rw [← append_assoc]
    exact (h.first.append fun ev hev => .inl (hall ev hev)).append fun ev hev =>
      .inr (hready ev hev)

/-- Every move leaves the reports in order. -/
theorem move (h : InOrder (c, evs)) (m) : InOrder (logMove hmac (c, evs) m) := by
  have hquiet : c.returns m = [] → InOrder (c.move hmac m, evs) →
      InOrder (logMove hmac (c, evs) m) := by
    intro hr hx
    rw [logMove, hr, append_nil]
    exact hx
  cases m with
  | app a =>
    cases a with
    | accept => exact h.accept
    | poll max => exact h.poll max
    | _ =>
      exact hquiet rfl (h.idle (move_deeds hmac h.links _)
        (app_queue (by rintro ⟨⟩) (by rintro _ ⟨⟩)))
  | _ => exact hquiet rfl (h.thread (by rintro _ ⟨⟩))

end InOrder

/-- In every run of the client. -/
theorem accept_precedes_readiness {cfg : LpConfig} {x : LpClient × List LpEvent}
    (hr : Reach (ofFun (logMove hmac)) (fun _ _ => True) (lpConnect cfg, []) x) :
    AcceptFirst x.2 ∧ acceptedIn x.2 ++ x.1.accept = List.range x.1.next := by
  have h0 : InOrder (lpConnect cfg, []) :=
    ⟨links_start cfg, fun p st hp => by simp [lpConnect] at hp, rfl, by simp [AcceptFirst]⟩
  have h := hr.inv (I := InOrder) h0 fun _ m _ h _ hs => by
    rw [hs]
    exact h.move m
  exact ⟨h.first, h.taken⟩

/-- Two streams are opened, with bytes for both, and the array holds a single event. -/
def acceptRun : List Move :=
  plugIn ++ [.app .fileno] ++ hears (synFrame 1 []) ++ hears (synFrame 3 [])
    ++ hears (dataFrame 3 [7]) ++ hears (dataFrame 1 [8])
    ++ [.app (.poll 1), .app .accept, .app (.poll 1), .app (.poll 2)]

theorem accept_precedes_readiness_acceptRun :
    ∃ x, x = acceptRun.foldl (logMove nullHmac) (lpConnect { listens := true }, [])
      ∧ x.2.map (·.stream) = [0, 1, 0, 1] ∧ AcceptFirst x.2 := by
  have hr : Reach (ofFun (logMove nullHmac)) (fun _ _ => True) (lpConnect { listens := true }, [])
      (acceptRun.foldl (logMove nullHmac) (lpConnect { listens := true }, [])) :=
    .foldl _ (by decide +kernel)
  exact ⟨_, rfl, by decide +kernel, (accept_precedes_readiness hr).1⟩

end LpClient

end MuxProtocol
