import MuxProtocol.Proofs.Deeds

/-!
# The lifetime of a stream

A stream is freed once, when both the protocol and the application are done with it, and is then
linked nowhere; until then a stream that both are done with waits in a list from which it is freed.
-/

namespace MuxProtocol

open Machine Intrusive

/-- If the stream is done with, it is in a list. -/
def LpStream.Waits (st : LpStream) : Prop :=
  st.protoDone = true → st.appClosed = true → st.inPending = true ∨ st.inReady = true

theorem LpStream.Waits.news {st : LpStream} (h : st.Waits) (on bits) : (st.news on bits).Waits := by
  unfold LpStream.news
  split
  · exact fun _ _ => .inr rfl
  · exact h

namespace LpClient

variable {c c' : LpClient} {p : ℕ} {st : LpStream} {hmac : Hmac}

/-- Every stream that is done with is in a list, but for those of `l`. -/
def Kept (l : List ℕ) (c : LpClient) : Prop := Each (fun q st => q ∉ l → st.Waits) c.heap

theorem Kept.tryFree {l} (h : Kept (p :: l) c) : Kept l (c.streamTryFree p) := by
  by_cases hfree : ∃ st, c.heap p = some st ∧ st.protoDone = true ∧ st.appClosed = true
      ∧ st.inPending = false ∧ st.inReady = false
  · obtain ⟨st, hp, hd, hc, hpen, hrdy⟩ := hfree
    rw [streamTryFree_eq hp hd hc hpen hrdy]
    intro q st' hq hl
    by_cases hqp : q = p
    · subst hqp
      simp at hq
    · exact h.drop q st' hq (by simp [hqp, hl])
  · have hwait : ∀ st, c.heap p = some st → st.Waits := by
      intro st hp hd hc
      by_contra hno
      rw [not_or, Bool.not_eq_true, Bool.not_eq_true] at hno
      exact hfree ⟨st, hp, hd, hc, hno⟩
    rw [streamTryFree_keep hwait]
    intro q st hq hl
    by_cases hqp : q = p
    · exact hwait st (hqp ▸ hq)
    · exact h q st hq (by simp [hqp, hl])

theorem Kept.but (h : Kept [] c) {heap o} (hheap : heap = Function.update c.heap p o) :
    Each (fun q st => q ∉ [p] → st.Waits) heap := by
  rw [hheap]
  intro q st hq hne
  rw [Function.update_of_ne (by simpa using hne)] at hq
  exact h q st hq (by simp)

theorem Kept.foldl_tryFree : ∀ (l : List ℕ) {c : LpClient}, Kept l c →
    Kept [] (l.foldl streamTryFree c)
  | [], _, h => h
  | _ :: l, _, h => Kept.foldl_tryFree l h.tryFree

/-- A stream that a deed is done with is freed, or is in a list. -/
theorem Deed.kept {a : Act} {m} (h : Deed c a c') (ha : a.Of m) (hm : m ≠ .down) (hi : Links c)
    (hk : Kept [] c) : Kept [] c' := by
  have hwaits : ∀ {p st}, c.heap p = some st → st.Waits := fun hp => hk _ _ hp (by simp)
  have hset : ∀ {p : ℕ} {heap : ℕ → Option LpStream} {st : LpStream},
      heap = Function.update c.heap p (some st) → st.Waits →
      Each (fun q st => q ∉ ([] : List ℕ) → st.Waits) heap := by
    rintro p _ st rfl hw
    exact Each.set hk fun _ => hw
  cases h with
  | call | note | skip | up | fileno | stop | drain => exact hk
  | rearm =>
    rw [notifyRaise_eq]
    exact hk
  | lose | hangUp | reap => exact absurd ha hm
  | opened hs hf =>
    rw [onOpened_eq (by exact hi.unregistered hs hf)]
    exact hset rfl fun _ h => by simp at h
  | data hs hf hr =>
    have hp := (regGet_some hr).2
    have hw := hwaits hp
    exact hset (modify_readyMark_heap (c := c.call .nextEvent) hp _ _)
      (LpStream.Waits.news (by exact hw) _ _)
  | closed hs hf hr | reset hs hf hr =>
    have hp := (regGet_some hr).2
    exact Kept.tryFree (hk.but (modify_readyMark_heap (c := c.call .nextEvent) hp _ _))
  | writable hs hf hr hw =>
    rw [pendingPush_eq (c := c.call .nextEvent) (regGet_some hr).2]
    exact hset rfl fun _ _ => .inl rfl
  | credit hp hin | write hp hin | fin hp hin =>
    rw [modify_eq (by exact hp)]
    exact hset rfl fun _ _ => .inl hin
  | room hp hin =>
    exact hset (modify_readyMark_heap hp _ _)
      (LpStream.Waits.news (by exact fun _ _ => .inl hin) _ _)
  | retire hl hp | stall hl hp =>
    refine Kept.tryFree ?_
    rw [LpClient.retire, modify_eq (by exact hp)]
    exact hk.but rfl
  | accept hl =>
    obtain ⟨st, hp, -⟩ := (hi.accept.mem_iff _).1 (hl ▸ List.mem_cons_self)
    have hw := hwaits hp
    rw [modify_eq (by exact hp)]
    exact hset rfl (by exact hw)
  | read hh hr | put hh hr | close hh =>
    exact hset (modify_pendingPush_heap (handle_some hh).1 _) fun _ _ => .inl rfl
  | again hh | want hh =>
    have hw := hwaits (handle_some hh).1
    rw [modify_eq (handle_some hh).1]
    exact hset rfl (by exact hw)
  | report hl hp hc =>
    rw [modify_eq (by exact hp)]
    exact hset rfl fun _ h => by simp [LpStream.unmark, hc] at h
  | forget hl hp =>
    refine Kept.tryFree ?_
    rw [modify_eq (by exact hp)]
    exact hk.but rfl

/-- The end of a session loses track of no stream. -/
theorem sessionDown_kept (hi : Links c) : Kept [] c.sessionDown := by
  refine Kept.foldl_tryFree _ fun q st hq hno => absurd ?_ hno
  have h : Links (c.all.foldl lose c) :=
    (foldl_lose_deeds c.all fun p hp => by
      obtain ⟨st, hst, -⟩ := (hi.all.mem_iff p).1 hp
      simp [hst]).1.links hi
  exact (h.hangUp.all.mem hq).2 trivial

/-- No move loses track of a stream that is done with. -/
theorem move_kept (hi : Links c) (hk : Kept [] c) (m) : Kept [] (c.move hmac m) := by
  by_cases hm : m = .down
  · subst hm
    exact sessionDown_kept hi
  · have := Reach.inv (I := fun c => Links c ∧ Kept [] c) ⟨hi, hk⟩
      (fun _ _ _ h ha hd => ⟨hd.links h.1, hd.kept ha hm h.1 h.2⟩) (move_deeds hmac hi m)
    exact this.2

/-- In every run of the client, with any tunnels lost and replaced. -/
theorem stream_lifetime {cfg : LpConfig}
    (hr : Reach (ofFun (move hmac)) (fun _ _ => True) (lpConnect cfg) c) :
    (∀ x ∈ c.freed, (x.2.protoDone = true ∧ x.2.appClosed = true)
        ∧ x.1 ∉ c.pending ∧ x.1 ∉ c.ready ∧ x.1 ∉ c.accept ∧ x.1 ∉ c.all
        ∧ ∀ sid, c.reg.lookup sid ≠ some x.1)
      ∧ (c.freed.map Prod.fst).Nodup
      ∧ ∀ p st, c.heap p = some st → st.protoDone = true → st.appClosed = true →
        p ∈ c.pending ∨ p ∈ c.ready := by
  obtain ⟨hi, hk⟩ := hr.inv (I := fun c => Links c ∧ Kept [] c)
    ⟨links_start cfg, fun p st hp => by simp [lpConnect] at hp⟩
    fun _ m _ h _ hs => by
      rw [hs]
      exact ⟨(move_deeds hmac h.1 m).links h.1, move_kept h.1 h.2 m⟩
  refine ⟨fun x hx => ?_, hi.once, fun p st hp hd hc => ?_⟩
  · obtain ⟨hnone, -, hdone⟩ := hi.freed x hx
    refine ⟨hdone, hi.pending.not_mem hnone, hi.ready.not_mem hnone, hi.accept.not_mem hnone,
      hi.all.not_mem hnone, fun sid hl => ?_⟩
    obtain ⟨st, hst, -⟩ := (hi.reg sid x.1).1 hl
    simp [hnone] at hst
  · rw [hi.pending.mem hp, hi.ready.mem hp]
    exact hk p st hp (by simp) hd hc

/-- A tunnel comes up, and the peer greets. -/
def plugIn (cfg : MuxConfig := {}) : List Move :=
  [.up zeroNonce,
    .stash (encode (helloFrame (initSession cfg .dialer).toCore false)), .recv, .event]

/-- The peer sends a frame, and its event is handled. -/
def hears (f : Frame) : List Move := [.stash (encode f), .recv, .event]

/-- A stream is opened, accepted and closed on both sides. -/
def closedRun : List Move :=
  plugIn ++ hears (synFrame 1 []) ++ [.app .accept] ++ hears (finFrame 1)
    ++ [.app (.close 0), .work]

theorem stream_lifetime_closedRun :
    ∃ c, c = closedRun.foldl (move nullHmac) (lpConnect { listens := true })
      ∧ c.freed.map Prod.fst = [0] ∧ c.all = []
      ∧ ∀ x ∈ c.freed, x.1 ∉ c.pending ∧ x.2.protoDone = true := by
  have hr : Reach (ofFun (move nullHmac)) (fun _ _ => True) (lpConnect { listens := true })
      (closedRun.foldl (move nullHmac) (lpConnect { listens := true })) :=
        .foldl _ (by decide +kernel)
  refine ⟨_, rfl, by decide +kernel, by decide +kernel, fun x hx => ?_⟩
  obtain ⟨hdone, hpen, -⟩ := (stream_lifetime hr).1 x hx
  exact ⟨hpen, hdone.1⟩

end LpClient

end MuxProtocol
