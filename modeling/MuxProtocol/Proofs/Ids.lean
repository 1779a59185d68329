import MuxProtocol.Proofs.Connection

/-!
# Stream ids

A session takes the ids of its streams in order, from those of its own parity. Until it has opened
`2 ^ 31` streams the ids do not wrap, so an id is never taken twice, and the ids of the streams it
opens are the ids its peer expects: each above the last.
-/

namespace MuxProtocol

open LinearProbe Machine

section Parity

/-- The first id a session takes. -/
def firstSid : MuxRole → ℕ
  | .dialer => 1
  | .acceptor => 2

/-- The id is of the parity the session opens. -/
def Own (r : MuxRole) (sid : UInt32) : Prop := sid &&& 1 ≠ peerParity r

theorem and_one_eq (sid v : UInt32) : sid &&& 1 = v ↔ sid.toNat % 2 = v.toNat := by
  rw [← UInt32.toNat_inj, UInt32.toNat_and, show (1 : UInt32).toNat = 1 from rfl,
    Nat.and_one_is_mod]

theorem own_iff {r} {sid : UInt32} : Own r sid ↔ sid.toNat % 2 = firstSid r % 2 := by
  unfold Own
  rw [ne_eq, and_one_eq]
  cases r
  · rw [show (peerParity .dialer).toNat = 0 from rfl, show firstSid .dialer = 1 from rfl]
    omega
  · rw [show (peerParity .acceptor).toNat = 1 from rfl, show firstSid .acceptor = 2 from rfl]
    omega

theorem own_peer {r r'} (h : r ≠ r') {sid} : Own r sid ↔ ¬ Own r' sid := by
  rw [own_iff, own_iff]
  cases r <;> cases r' <;> simp_all [firstSid]

theorem parity_iff {r sid} : sid &&& 1 = peerParity r ↔ ¬ Own r sid := by
  rw [Own, not_not]

end Parity

section Ids

variable {c c' : Core} {a : Act}

/-- The session has opened fewer than `2 ^ 31` streams. -/
def Few (c : Core) : Prop := (synIds c.sent).length < 2 ^ 31

structure Ids (c : Core) : Prop where
  wf : TabWf c.tab
  distinct : c.tab.Distinct MuxStream.sid
  sorted : (synIds c.sent).Pairwise (· < ·)
  own : ∀ id ∈ synIds c.sent, Own c.role id
    ∧ id.toNat < firstSid c.role + 2 * (synIds c.sent).length
  next : c.dead = false →
    c.nextLocalSid.toNat = (firstSid c.role + 2 * (synIds c.sent).length) % 2 ^ 32
  mine : c.dead = false → Every c.tab fun st => Own c.role st.sid → st.sid ∈ synIds c.sent
  theirs : Every c.tab fun st => ¬ Own c.role st.sid → st.sid ≤ c.maxRemoteSid
  heard : c.dead = false → ∀ id ∈ synIds c.got, id ≤ c.maxRemoteSid
  last : c.maxRemoteSid = 0 ∨ c.maxRemoteSid ∈ synIds c.got

theorem Ids.next_eq (hi : Ids c) (hf : Few c) {m} (hok : OpenOk c m) :
    c.nextLocalSid.toNat = firstSid c.role + 2 * (synIds c.sent).length
      ∧ Own c.role c.nextLocalSid := by
  have hn := hi.next hok.alive
  have hne : c.nextLocalSid.toNat ≠ 0 := fun h => hok.sid_ne (UInt32.toNat_inj.1 h)
  have hle : firstSid c.role ≤ 2 := by cases c.role <;> decide
  unfold Few at hf
  rw [own_iff]
  omega

theorem Ids.fresh (hi : Ids c) (hf : Few c) {m} (hok : OpenOk c m) {st : MuxStream}
    (hm : c.tab.Mem st) : st.sid ≠ c.nextLocalSid := by
  intro h
  obtain ⟨hn, hown⟩ := hi.next_eq hf hok
  obtain ⟨i, hg⟩ := Table.get_of_mem hm
  have := (hi.own _ (hi.mine hok.alive i st hg (h ▸ hown))).2
  rw [h] at this
  omega

theorem Step.synIds_sent (h : Step c a c') :
    synIds c'.sent = synIds c.sent
        ∧ (c'.dead = false → c'.nextLocalSid = c.nextLocalSid)
      ∨ (a = .open ∧ ∃ m, OpenOk c m) ∧ synIds c'.sent = synIds c.sent ++ [c.nextLocalSid]
        ∧ c'.nextLocalSid = c.nextLocalSid + 2 := by
  cases h with
  | opened hok => exact .inr ⟨⟨rfl, _, hok⟩, by simp [synIds_singleton], rfl⟩
  | openFailed => exact .inl ⟨by simp, fun hd => by simp at hd⟩
  | control _ hc => exact .inl ⟨by simp [synIds_singleton, hc.mute.isSyn], fun _ => rfl⟩
  | reset ok | refused ok | aborted ok =>
    exact .inl ⟨by cases ok <;> simp [synIds_singleton], by simp⟩
  | ping ok =>
    exact .inl ⟨by cases ok <;> simp [synIds_singleton, (mute_pingFrame _ _).isSyn], by simp⟩
  | helloBad _ _ hl | hello _ _ _ _ hl =>
    exact .inl ⟨by simp, by simp⟩
  | helloReply ok _ _ _ _ hl =>
    exact .inl ⟨by cases ok <;> simp [synIds_singleton, (mute_helloFrame _ _).isSyn], by simp⟩
  | _ => exact .inl ⟨by simp [synIds_singleton], by simp⟩

theorem isSyn_eq {f : Frame} (ht : f.type = muxTData) : f.isSyn = f.has muxFSyn := by
  simp [Frame.isSyn, ht]

/-- A step takes one SYN at most, and its id is the largest then. -/
theorem Step.synIds_got (h : Step c a c') :
    c'.maxRemoteSid = c.maxRemoteSid ∧ synIds c.got <+: synIds c'.got
        ∧ (c'.dead = false → synIds c'.got = synIds c.got)
      ∨ ∃ f, SynOk c f ∧ c'.maxRemoteSid = f.sid ∧ synIds c'.got = synIds c.got ++ [f.sid] := by
  have hsyn : ∀ {f}, SynOk c f → synIds [f] = [f.sid] := fun h => by
    simp [synIds_singleton, isSyn_eq h.type, h.syn]
  have hdata : ∀ {f}, DataOn c f → synIds [f] = [] := fun h => by
    simp [synIds_singleton, isSyn_eq h.type, h.syn]
  have hmute : ∀ {f : Frame} {t}, f.type = t → t ≠ muxTData → synIds [f] = [] := fun h ht => by
    simp [synIds_singleton, isSyn_of_type (h ▸ ht)]
  have hcredit : ∀ {f}, CreditOn c f → synIds [f] = [] := fun h => hmute h.type (by decide)
  cases h with
  | refused _ _ h | accepted _ h | acceptedFin _ h | acceptedRst _ h =>
    exact .inr ⟨_, h, by simp, by simp [hsyn h]⟩
  | stray _ h | resetBy _ _ h | aborted _ _ h | data _ h | fin _ h | finLast _ h =>
    exact .inl ⟨by simp, by simp, by simp [hdata h]⟩
  | credited _ h | strayCredit _ h | creditedOn _ h | woken _ h =>
    exact .inl ⟨by simp, by simp, by simp [hcredit h]⟩
  | pong _ _ ht | ping _ _ _ ht => exact .inl ⟨by simp, by simp, by simp [hmute ht (by decide)]⟩
  | notice _ _ _ he =>
    refine .inl ⟨by simp, by simp, ?_⟩
    rcases he with ⟨-, ht⟩ | ⟨-, ht⟩ <;> simp [hmute ht (by decide)]
  | hello _ _ ht _ hl =>
    refine .inl ⟨by simp, by simp, ?_⟩
    rcases ht with ht | ht <;> simp [hmute ht (by decide)]
  | helloReply _ _ _ ht _ hl =>
    exact .inl ⟨by simp, by simp, by simp [hmute ht (by decide)]⟩
  | _ => exact .inl ⟨by simp, by simp, by simp⟩

theorem Step.maxRemoteSid_le (h : Step c a c') : c.maxRemoteSid ≤ c'.maxRemoteSid := by
  rcases h.synIds_got with ⟨e, -⟩ | ⟨f, hok, e, -⟩
  · exact e ▸ UInt32.le_refl _
  · rw [e]
    exact UInt32.le_of_lt hok.fresh

/-- A new record has an id of its own. -/
theorem Step.distinct (h : Step c a c') (hi : Ids c) (hf : Few c) :
    c'.tab.Distinct MuxStream.sid := by
  have hd := hi.distinct
  have hw := hi.wf
  have hopen : ∀ {m t i}, OpenOk c m → stInsert c.tab (freshStream c c.nextLocalSid) = (t, some i) →
      t.Distinct MuxStream.sid :=
    fun hok h => (Inserted.of_eq hw h).distinct hd fun _ hm => hi.fresh hf hok hm
  have hsyn : ∀ {f t i}, SynOk c f → stInsert c.tab (freshStream c f.sid) = (t, some i) →
      t.Distinct MuxStream.sid :=
    fun hok h => (Inserted.of_eq hw h).distinct hd ((stFind_none hw).1 hok.absent)
  cases h with
  | opened hok h => simpa using hopen hok h
  | openFailed hok h => simpa using (hopen hok h).remove _
  | accepted _ hok _ _ _ h => simpa using hsyn hok h
  | acceptedRst _ hok _ _ h => simpa using (hsyn hok h).remove _
  | acceptedFin _ hok _ _ _ h =>
    simp only [Core.push_tab, Core.edit_tab, Core.seeSid_tab, Core.setTab_tab]
    exact (hsyn hok h).modify _ fun _ => rfl
  | block | short | wrote | closedHalf | useOn | creditOn | wake | data | creditedOn
  | creditedOnOver =>
    simp only [Core.block_tab, Core.edit_tab, Core.put_tab, Core.debit_tab, Core.push_tab,
      Core.unblock_tab, Core.deliver_tab, Core.die_tab, Core.hear_tab]
    exact hd.modify _ fun _ => rfl
  | woken | fin =>
    simp only [Core.push_tab, Core.unblock_tab, Core.edit_tab, Core.hear_tab, Core.deliver_tab,
      Table.modify_modify]
    exact hd.modify _ fun _ => rfl
  | closedFull | reset | resetBy | aborted => simpa using hd.remove _
  | finLast =>
    simp only [Core.push_tab, Core.drop_tab, Core.deliver_tab, Core.hear_tab]
    refine (hd.modify _ ?_).remove _
    exact fun _ => rfl
  | _ => simpa using hd

theorem Step.few (h : Step c a c') (hf : Few c') : Few c :=
  Nat.lt_of_le_of_lt (synIds_mono h.sent_prefix).length_le hf

/-- The ids of an acceptor end at zero, before it has opened `2 ^ 31` streams. -/
theorem Step.few_of_acceptor (h : Step c a c') (hi : Ids c) (hr : c.role = .acceptor)
    (hf : Few c) : Few c' := by
  rcases h.synIds_sent with ⟨e, -⟩ | ⟨⟨-, m, hok⟩, e, -⟩
  · rwa [Few, e]
  · obtain ⟨hn, -⟩ := hi.next_eq hf hok
    have hlt := c.nextLocalSid.toNat_lt
    rw [hr, show firstSid .acceptor = 2 from rfl] at hn
    rw [Few, e, List.length_append, List.length_singleton]
    omega

/-- The ids of the streams opened are our own, and go up. -/
theorem Step.ids_sent (h : Step c a c') (hi : Ids c) (hf : Few c') :
    (synIds c'.sent).Pairwise (· < ·)
      ∧ (∀ id ∈ synIds c'.sent, Own c.role id
        ∧ id.toNat < firstSid c.role + 2 * (synIds c'.sent).length)
      ∧ (c'.dead = false →
        c'.nextLocalSid.toNat = (firstSid c.role + 2 * (synIds c'.sent).length) % 2 ^ 32) := by
  rcases h.synIds_sent with ⟨h1, h2⟩ | ⟨⟨-, m, hok⟩, h1, h2⟩
  · rw [h1]
    exact ⟨hi.sorted, hi.own, fun hd => by rw [h2 hd]; exact hi.next (h.alive hd)⟩
  · obtain ⟨hn, hown⟩ := hi.next_eq (h.few hf) hok
    have hlen : (synIds c'.sent).length = (synIds c.sent).length + 1 := by simp [h1]
    refine ⟨?_, fun id hid => ?_, fun _ => ?_⟩
    · rw [h1, List.pairwise_append]
      refine ⟨hi.sorted, List.pairwise_singleton _ _, fun id hid id' hid' => ?_⟩
      rw [List.mem_singleton.1 hid', UInt32.lt_iff_toNat_lt, hn]
      exact (hi.own id hid).2
    · rw [hlen]
      rw [h1, List.mem_append, List.mem_singleton] at hid
      rcases hid with hid | rfl
      · have := hi.own id hid
        exact ⟨this.1, by omega⟩
      · exact ⟨hown, by omega⟩
    · rw [h2, hlen, UInt32.toNat_add, hn]
      change (_ + 2) % _ = _
      omega

/-- A step keeps all that is known of the ids. -/
theorem Step.ids (h : Step c a c') (hi : Ids c) (hf : Few c') : Ids c' := by
  obtain ⟨h1, h2, h3⟩ := h.ids_sent hi hf
  have hsub : ∀ id ∈ synIds c.sent, id ∈ synIds c'.sent := fun id hid =>
    (synIds_mono h.sent_prefix).subset hid
  have hmax := h.maxRemoteSid_le
  have hopen : ∀ m, OpenOk c m → Own c.role c.nextLocalSid := fun m hok =>
    (hi.next_eq (h.few hf) hok).2
  have hpeer : ∀ {f}, SynOk c f → ¬ Own c.role f.sid := fun hok => parity_iff.1 hok.parity
  refine ⟨h.tabWf hi.wf, h.distinct hi (h.few hf), h1, h.role_eq ▸ h2, h.role_eq ▸ h3, fun hd => ?_,
    ?_, fun hd => ?_, ?_⟩
  · rw [h.role_eq]
    refine h.every_sid (P := fun sid => Own c.role sid → sid ∈ synIds c'.sent) hi.wf
      ((hi.mine (h.alive hd)).imp fun _ h ho => hsub _ (h ho)) ?_ ?_
    · intro m hok hin _
      exact hin.resolve_left (by simp [hd])
    · intro f hok _ ho
      exact absurd ho (hpeer hok)
  · rw [h.role_eq]
    refine h.every_sid (P := fun sid => ¬ Own c.role sid → sid ≤ c'.maxRemoteSid) hi.wf
      (hi.theirs.imp fun _ h ho => UInt32.le_trans (h ho) hmax) ?_ ?_
    · intro m hok _ ho
      exact absurd (hopen m hok) ho
    · intro f _ e _
      exact e ▸ UInt32.le_refl _
  · rcases h.synIds_got with ⟨e, -, hgot⟩ | ⟨f, hok, e, hgot⟩
    · rw [hgot hd, e]
      exact hi.heard (h.alive hd)
    · intro id hid
      rw [hgot, List.mem_append, List.mem_singleton] at hid
      rcases hid with hid | rfl
      · exact UInt32.le_trans (hi.heard (h.alive hd) id hid) hmax
      · exact e ▸ UInt32.le_refl _
  · rcases h.synIds_got with ⟨e, hgot, -⟩ | ⟨f, -, e, hgot⟩
    · rw [e]
      exact hi.last.imp_right fun hm => hgot.subset hm
    · exact .inr (by simp [e, hgot])

theorem Steps.ids {ok : Core → Act → Prop} (h : Reach Step ok c c') (hi : Few c → Ids c)
    (hf : Few c') : Ids c' := by
  induction h with
  | start => exact hi hf
  | step _ _ h ih => exact h.ids (ih (h.few hf)) hf

end Ids

/-! ### The start -/

section Start

theorem startCore_synIds (cfg role) : synIds (startCore cfg role).sent = [] := by
  cases role
  · simp [startCore, initSession, synIds_singleton, (mute_helloFrame _ _).isSyn]
  · rfl

theorem startCore_role (cfg role) : (startCore cfg role).role = role := by
  cases role <;> rfl

theorem startCore_got (cfg role) : (startCore cfg role).got = [] := by
  cases role <;> rfl

theorem startCore_queued (cfg role) : (startCore cfg role).queued = [] := by
  cases role <;> rfl

theorem ids_start (cfg role) : Ids (startCore cfg role) := by
  obtain ⟨hw, hnone⟩ := startCore_tab cfg role
  have hempty : ∀ P, Every (startCore cfg role).tab P := fun P i st hg => by simp [hnone i] at hg
  refine ⟨hw, ?_, ?_, ?_, fun _ => ?_, fun _ => hempty _, hempty _, fun _ => ?_, .inl ?_⟩
  · intro i _ _ _ _ _ hr
    have := Table.get_eq_some.2 hr
    rw [hnone i] at this
    cases this
  · simp [startCore_synIds]
  · simp [startCore_synIds]
  · rw [startCore_synIds]
    cases role <;> rfl
  · simp [startCore_got]
  · cases role <;> rfl

end Start

end MuxProtocol
