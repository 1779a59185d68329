import MuxProtocol.Protocol
import MuxProtocol.Proofs.Codec

/-!
# The stream table and the output buffer

A search in the table finds the record of an id; an insertion always finds a slot. An `emit`
either appends the encoding of its frame to the bytes to be sent or leaves them alone and fails
the session.
-/

namespace MuxProtocol

open LinearProbe MuxStream Table Option

/-! ### The stream table -/

section Table

variable {t : Table MuxStream}

/-- The invariant of the stream table. -/
abbrev TabWf (t : Table MuxStream) : Prop := t.Wf mixSid sid

theorem growTo_pow {want : ℕ} : ∀ {n c : ℕ}, (∃ m, c = 2 ^ m) → ∃ m, growTo want n c = 2 ^ m
  | 0, _, h => h
  | n + 1, c, ⟨m, hm⟩ => by
    unfold growTo
    split
    · exact growTo_pow ⟨m + 1, by rw [hm, Nat.pow_succ]⟩
    · exact ⟨m, hm⟩

theorem le_growTo {want : ℕ} : ∀ {n c : ℕ}, c ≤ growTo want n c
  | 0, _ => Nat.le_refl _
  | n + 1, c => by
    unfold growTo
    split
    · exact Nat.le_trans (by omega) (le_growTo (n := n) (c := c * 2))
    · exact Nat.le_refl _

theorem want_le_growTo {want : ℕ} : ∀ {n c : ℕ}, want ≤ c * 2 ^ n → want ≤ growTo want n c
  | 0, c, h => by simpa [growTo] using h
  | n + 1, c, h => by
    unfold growTo
    split
    · exact want_le_growTo (by rwa [Nat.pow_succ, Nat.mul_comm (2 ^ n), ← Nat.mul_assoc] at h)
    · omega

theorem want_le_growTo_self {want c : ℕ} (hc : 0 < c) : want ≤ growTo want want c :=
  want_le_growTo (Nat.le_trans Nat.lt_two_pow_self.le (Nat.le_mul_of_pos_left _ hc))

theorem stFind_get {sid} {i : ℕ} {st : MuxStream} (hf : stFind t sid = some (i, st)) :
    t.get i = some st := by
  simp only [stFind, bind_eq_some_iff, map_eq_some_iff, Prod.mk.injEq] at hf
  obtain ⟨j, -, r, hr, rfl, rfl⟩ := hf
  exact hr

theorem stFind_some (h : TabWf t) {sid} {i : ℕ} {st : MuxStream}
    (hf : stFind t sid = some (i, st)) : t.get i = some st ∧ st.sid = sid := by
  simp only [stFind, bind_eq_some_iff, map_eq_some_iff, Prod.mk.injEq] at hf
  obtain ⟨j, hj, r, hr, rfl, rfl⟩ := hf
  obtain ⟨-, r', hs, hk⟩ := find_some h hj
  rw [get_eq_some.2 hs, some_inj] at hr
  subst hr
  exact ⟨get_eq_some.2 hs, hk⟩

theorem stFind_none (h : TabWf t) {sid} : stFind t sid = none ↔ ∀ st, t.Mem st → st.sid ≠ sid := by
  rw [← lookup_eq_none h]
  unfold stFind lookup
  rcases t.find mixSid MuxStream.sid sid with _ | i
  · simp
  · rcases t.get i with _ | st <;> simp

theorem lookup_of_stFind {sid} {i : ℕ} {st} (hf : stFind t sid = some (i, st)) :
    t.lookup mixSid MuxStream.sid sid = some st := by
  simp only [stFind, bind_eq_some_iff, map_eq_some_iff, Prod.mk.injEq] at hf
  obtain ⟨j, hj, r, hr, rfl, rfl⟩ := hf
  rw [lookup, hj, bind_some, hr]

theorem stFind_of_lookup {sid st} (h : t.lookup mixSid MuxStream.sid sid = some st) :
    ∃ i, stFind t sid = some (i, st) := by
  obtain ⟨i, hi, hg⟩ := bind_eq_some_iff.1 h
  exact ⟨i, by rw [stFind, hi, bind_some, hg, map_some]⟩

/-- What an insertion does to the records of the table. -/
structure Inserted (t t' : Table MuxStream) (st : MuxStream) (i : ℕ) : Prop where
  wf : TabWf t'
  get : t'.get i = some st
  mem : ∀ st', t'.Mem st' ↔ st' = st ∨ t.Mem st'
  countIf : ∀ q, t'.countIf q = t.countIf q + (q st).toNat
  distinct : t.Distinct sid → (∀ st', t.Mem st' → st'.sid ≠ st.sid) →
    t'.Distinct sid

theorem insert_inserted (h : TabWf t) (hroom : t.count + t.tombs + 1 < t.cap) (st) :
    ∃ t' i, t.insert mixSid sid st = (t', some i) ∧ Inserted t t' st i := by
  obtain ⟨d, hd, b, hi, -, -⟩ := insert_spec h st
  have hwf := h.insert hroom st
  have hmem := mem_insert h st
  have hcount := countIf_insert h st
  have hdist := fun hd hne => Table.Distinct.insert h hd (r := st) hne
  rw [hi] at hwf hmem hcount hdist
  exact ⟨_, _, hi, hwf, get_eq_some.2 (by simp), hmem, hcount, hdist⟩

theorem stGrow_wf (h : TabWf t) {want : ℕ} (hw : t.count < want) : TabWf (stGrow t want) := by
  have hpos := pos_of_pow h.pow
  unfold stGrow
  rw [if_neg (by omega)]
  exact Table.Wf.rehashed h.count_eq (growTo_pow h.pow)
    (Nat.lt_of_lt_of_le hw (want_le_growTo_self hpos))

theorem stGrow_spec (h : TabWf t) (want : ℕ) :
    (∀ st, (stGrow t want).Mem st ↔ t.Mem st) ∧ (∀ q, (stGrow t want).countIf q = t.countIf q)
      ∧ (t.Distinct sid → (stGrow t want).Distinct sid) := by
  have hpos := pos_of_pow h.pow
  have hlt : t.countIf (fun _ => true) < growTo want want (if t.cap = 0 then 64 else t.cap) := by
    rw [if_neg (by omega), ← h.count_eq]
    have := h.room
    exact Nat.lt_of_lt_of_le (by omega) le_growTo
  have hp : ∃ m, growTo want want (if t.cap = 0 then 64 else t.cap) = 2 ^ m := by
    rw [if_neg (by omega)]
    exact growTo_pow h.pow
  have hr : Rehashed mixSid sid t.slots _ t.cap _ := rehash_spec hp t.cap hlt
  exact ⟨hr.mem, hr.tally_eq, hr.distinct⟩

theorem stInsert_inserted (h : TabWf t) (st) :
    ∃ t' i, stInsert t st = (t', some i) ∧ Inserted t t' st i := by
  unfold stInsert
  by_cases hfull : (t.count + t.tombs + 1) * 4 ≥ t.cap * 3
  · simp only [if_pos hfull]
    set want := max ((t.count + 1) * 2) 64 with hwant
    have hwf : TabWf (stGrow t want) := stGrow_wf h (by omega)
    obtain ⟨hmem, hcount, hdist⟩ := stGrow_spec h want
    have hcap : want ≤ (stGrow t want).cap := by
      have hpos := pos_of_pow h.pow
      change want ≤ growTo want want _
      rw [if_neg (by omega)]
      exact want_le_growTo_self hpos
    have hroom : (stGrow t want).count + (stGrow t want).tombs + 1 < (stGrow t want).cap := by
      change t.count + 0 + 1 < _
      omega
    obtain ⟨t', i, hi, hins⟩ := insert_inserted hwf hroom st
    refine ⟨t', i, hi, hins.wf, hins.get, fun st' => ?_, fun q => ?_, fun hd hne => ?_⟩
    · rw [hins.mem, hmem]
    · rw [hins.countIf, hcount]
    · exact hins.distinct (hdist hd) fun st' hm => hne st' ((hmem st').1 hm)
  · simp only [if_neg hfull]
    exact insert_inserted h (by omega) st

theorem Inserted.of_eq (h : TabWf t) {t' st} {i : ℕ} (hi : stInsert t st = (t', some i)) :
    Inserted t t' st i := by
  obtain ⟨t₁, i₁, h1, h2⟩ := stInsert_inserted h st
  rw [hi] at h1
  cases h1
  exact h2

end Table

/-! ### Every record of a table -/

section Every

variable {t t' : Table MuxStream} {P : MuxStream → Prop} {i : ℕ}

/-- Every record of the table satisfies `P`. -/
def Every (t : Table MuxStream) (P : MuxStream → Prop) : Prop := ∀ i st, t.get i = some st → P st

theorem Every.imp {Q : MuxStream → Prop} (h : Every t P) (hPQ : ∀ st, P st → Q st) : Every t Q :=
  fun i st hg => hPQ st (h i st hg)

theorem Every.modify {g} (h : Every t P) (hg : ∀ st, P st → P (g st)) : Every (t.modify i g) P := by
  intro j st hj
  rcases get_modify hj with hj | ⟨r, hr, rfl⟩
  · exact h j st hj
  · exact hg r (h i r hr)

theorem Every.modify_at {g r} (h : Every t P) (hr : t.get i = some r) (hg : P (g r)) :
    Every (t.modify i g) P := by
  intro j st hj
  rcases get_modify hj with hj | ⟨r', hr', rfl⟩
  · exact h j st hj
  · rw [hr] at hr'
    cases hr'
    exact hg

theorem Every.remove (h : Every t P) : Every (t.remove i) P :=
  fun j st hj => h j st (get_remove hj)

theorem Every.insert {st} (hw : TabWf t) (h : Every t P) (hi : stInsert t st = (t', some i))
    (hst : P st) : Every t' P := by
  have hins := Inserted.of_eq hw hi
  intro j st' hj
  rcases (hins.mem st').1 (mem_of_get hins.wf hj) with rfl | hm
  · exact hst
  · obtain ⟨k, hk⟩ := get_of_mem hm
    exact h k st' hk

theorem countIf_modify_same (hw : TabWf t) {q g} (hq : ∀ st, q (g st) = q st) :
    (t.modify i g).countIf q = t.countIf q := by
  rcases hs : t.slots i with _ | _ | r
  · rw [show t.modify i g = t by simp only [Table.modify, hs]]
  · rw [show t.modify i g = t by simp only [Table.modify, hs]]
  · have := countIf_modify hw hs g q
    rw [hq] at this
    omega

end Every

/-! ### The output buffer -/

section Output

theorem nz_pos {d : UInt32} (hd : 0 < d.toNat) (n) : 0 < (nz n d).toNat := by
  unfold nz
  split
  · rename_i hne
    exact Nat.pos_of_ne_zero fun h0 => hne (UInt32.toNat_inj.1 h0)
  · exact hd

/-- The bytes to be sent. -/
def OutBuf.pending (o : OutBuf) : Bytes := o.data.drop o.spos

theorem muxSendBuf_eq (s : Session) : muxSendBuf s = s.out.pending := rfl

theorem OutBuf.length_pending (o : OutBuf) : o.pending.length = o.data.length - o.spos :=
  List.length_drop

/-- A reservation moves no byte, and where it succeeds there is room. -/
theorem obReserve_spec (o : OutBuf) (need limit : ℕ) :
    (obReserve o need limit).1.pending = o.pending
      ∧ (o.spos ≤ o.data.length →
        (obReserve o need limit).1.spos ≤ (obReserve o need limit).1.data.length)
      ∧ ((obReserve o need limit).2 = .ok () →
        (obReserve o need limit).1.data.length + need ≤ (obReserve o need limit).1.cap) := by
  have hgrow : ∀ o' : OutBuf, (obGrow o' need limit).1.pending = o'.pending
      ∧ (o'.spos ≤ o'.data.length →
        (obGrow o' need limit).1.spos ≤ (obGrow o' need limit).1.data.length)
      ∧ ((obGrow o' need limit).2 = .ok () →
        (obGrow o' need limit).1.data.length + need ≤ (obGrow o' need limit).1.cap) := by
    intro o'
    unfold obGrow
    dsimp only
    split
    · exact ⟨rfl, id, by simp⟩
    · refine ⟨rfl, id, fun _ => want_le_growTo_self ?_⟩
      split <;> omega
  unfold obReserve
  by_cases h1 : o.data.length + need ≤ o.cap
  · rw [if_pos h1]
    exact ⟨rfl, id, fun _ => h1⟩
  · rw [if_neg h1]
    by_cases h2 : 0 < o.spos
    · rw [if_pos h2]
      have hp : ({ o with data := o.data.drop o.spos, spos := 0 } : OutBuf).pending
        = o.pending := by
        simp [OutBuf.pending]
      dsimp only
      split
      · exact ⟨hp, fun _ => Nat.zero_le _, fun _ => ‹_›⟩
      · obtain ⟨h3, h4, h5⟩ := hgrow { o with data := o.data.drop o.spos, spos := 0 }
        exact ⟨h3.trans hp, fun _ => h4 (Nat.zero_le _), h5⟩
    · rw [if_neg h2]
      exact hgrow o

/-- A reservation succeeds where the bytes fit the capacity, once those sent are dropped, or the
limit. -/
theorem obReserve_ok_iff {o : OutBuf} {need limit : ℕ} : (obReserve o need limit).2 = .ok ()
    ↔ o.pending.length + need ≤ o.cap ∨ limit = 0 ∨ o.pending.length + need ≤ limit := by
  have hgrow : ∀ o' : OutBuf, o.cap < o'.data.length + need → o'.data.length = o.pending.length →
      ((obGrow o' need limit).2 = .ok ()
        ↔ o.pending.length + need ≤ o.cap ∨ limit = 0 ∨ o.pending.length + need ≤ limit) := by
    intro o' hlt hlen
    unfold obGrow
    dsimp only
    split <;> simp <;> omega
  unfold obReserve
  split
  · simp [OutBuf.pending]
    omega
  rename_i hfull
  split
  · dsimp only
    split
    · rename_i hfit
      exact iff_of_true rfl (.inl hfit)
    · exact hgrow _ (Nat.not_le.1 ‹_›) rfl
  · exact hgrow o (Nat.not_le.1 hfull) (by simp [OutBuf.pending]; omega)

theorem cap_le_obReserve (o : OutBuf) (need limit : ℕ) :
    o.cap ≤ (obReserve o need limit).1.cap := by
  have hgrow : ∀ o' : OutBuf, o'.cap ≤ (obGrow o' need limit).1.cap := by
    intro o'
    unfold obGrow
    dsimp only
    split
    · exact Nat.le_refl _
    · refine le_trans ?_ (le_growTo ..)
      split <;> omega
  unfold obReserve
  split
  · exact Nat.le_refl _
  split
  · dsimp only
    split
    · exact Nat.le_refl _
    · exact hgrow { o with data := o.data.drop o.spos, spos := 0 }
  · exact hgrow o

theorem emit_cases (s : Session) (type flags sid) {payload : Bytes}
    (hp : payload.length ≤ muxMaxPayload) : (∃ out, emit s type flags sid payload
        = ({ s with out, sent := s.sent ++ [{ type, flags, sid, payload }] }, .ok ())
      ∧ muxHeaderSize + payload.length ≤ out.cap
      ∧ (s.out.spos ≤ s.out.data.length → out.spos ≤ out.data.length
        ∧ out.pending = s.out.pending ++ encode { type, flags, sid, payload }))
    ∨ ∃ out, emit s type flags sid payload
        = (raiseFatal { s with out, overflow := true } muxCodeInternal, .error .nospace)
      ∧ s.out.cap < s.out.data.length + (muxHeaderSize + payload.length)
      ∧ (s.out.spos ≤ s.out.data.length → out.spos ≤ out.data.length)
      ∧ out.pending = s.out.pending := by
  obtain ⟨h1, h2, h3⟩ := obReserve_spec s.out (muxHeaderSize + payload.length) s.maxOutBuffer.toNat
  unfold emit
  rcases hr : obReserve s.out (muxHeaderSize + payload.length) s.maxOutBuffer.toNat
    with ⟨out, e | ⟨⟩⟩
  · rw [hr] at h1 h2
    refine .inr ⟨out, rfl, ?_, h2, h1⟩
    by_contra hfit
    rw [obReserve, if_pos (Nat.not_lt.1 hfit)] at hr
    cases hr
  · rw [hr] at h1 h2 h3
    dsimp only at h1 h2 h3 ⊢
    have hroom := h3 rfl
    rw [muxCraft_ok hp (by omega)]
    refine .inl ⟨_, rfl, by dsimp only; omega, fun hs => ?_⟩
    have := h2 hs
    refine ⟨by simp only [List.length_append]; omega, ?_⟩
    rw [← h1, OutBuf.pending, OutBuf.pending, List.drop_append_of_le_length this]

theorem emit_of_reserve {s : Session} {type flags sid} {payload : Bytes}
    (hp : payload.length ≤ muxMaxPayload)
    (h : (obReserve s.out (muxHeaderSize + payload.length) s.maxOutBuffer.toNat).2 = .ok ()) :
    (emit s type flags sid payload).2 = .ok () := by
  obtain ⟨-, -, h3⟩ := obReserve_spec s.out (muxHeaderSize + payload.length) s.maxOutBuffer.toNat
  have hroom := h3 h
  unfold emit
  rcases hr : obReserve s.out (muxHeaderSize + payload.length) s.maxOutBuffer.toNat
    with ⟨out, e | ⟨⟩⟩
  · rw [hr] at h
    cases h
  · rw [hr] at hroom
    dsimp only at hroom ⊢
    rw [muxCraft_ok hp (by omega)]

/-- How much of `p` both windows let through. -/
def placeable (s : Session) (st : MuxStream) (p : Bytes) : ℕ :=
  if (p.length : ℤ) > min st.sendWin s.sessSendWin then (min st.sendWin s.sessSendWin).toNat
  else p.length

/-- The bytes of the frames that carry `n` bytes of data. -/
def framed (n : ℕ) : ℕ := n + muxHeaderSize * ((n + muxMaxDataFrame - 1) / muxMaxDataFrame)

/-- The output buffer takes `n` bytes more. -/
def Session.HasRoom (s : Session) (n : ℕ) : Prop :=
  (obReserve s.out n s.maxOutBuffer.toNat).2 = .ok ()

instance Session.HasRoom.decidable (s : Session) (n : ℕ) : Decidable (s.HasRoom n) :=
  inferInstanceAs (Decidable (_ = _))

namespace Session.HasRoom

variable {s : Session} {n m : ℕ}

theorem mono (h : s.HasRoom n) (hm : m ≤ n) : s.HasRoom m := by
  rw [Session.HasRoom, obReserve_ok_iff] at h ⊢
  omega

/-- A frame that fits is appended, and leaves the rest of the room. -/
theorem emit {type flags sid} {payload : Bytes}
    (h : s.HasRoom (muxHeaderSize + payload.length + m)) :
    (emit s type flags sid payload).1.dead = s.dead
      ∧ (emit s type flags sid payload).1.HasRoom m := by
  have hfit : s.HasRoom (muxHeaderSize + payload.length) := h.mono (Nat.le_add_right _ m)
  have hcap := cap_le_obReserve s.out (muxHeaderSize + payload.length) s.maxOutBuffer.toNat
  obtain ⟨hpend, -, hroom⟩ :=
    obReserve_spec s.out (muxHeaderSize + payload.length) s.maxOutBuffer.toNat
  rw [Session.HasRoom, obReserve_ok_iff] at h
  unfold MuxProtocol.emit
  unfold Session.HasRoom at hfit
  rcases hr : obReserve s.out (muxHeaderSize + payload.length) s.maxOutBuffer.toNat
    with ⟨out, e | ⟨⟩⟩
  · rw [hr] at hfit
    cases hfit
  rw [hr] at hcap hpend hroom
  have hroom := hroom rfl
  dsimp only at hcap hpend hroom ⊢
  split
  · refine ⟨rfl, ?_⟩
    rw [Session.HasRoom, obReserve_ok_iff]
    dsimp only
    rw [hpend]
    omega
  · rename_i bytes hb
    have hlen : bytes.length = muxHeaderSize + payload.length := by
      by_cases hp : payload.length ≤ muxMaxPayload
      · rw [muxCraft_ok hp (by omega)] at hb
        cases hb
        exact length_encode _
      · rw [muxCraft, if_pos (by omega)] at hb
        cases hb
    have hle : ({ out with data := out.data ++ bytes } : OutBuf).pending.length
        ≤ s.out.pending.length + bytes.length := by
      rw [← hpend]
      simp only [OutBuf.pending, List.length_drop, List.length_append]
      omega
    refine ⟨rfl, ?_⟩
    rw [Session.HasRoom, obReserve_ok_iff]
    dsimp only
    omega

end Session.HasRoom

/-- What a call puts out: some frames more, and their bytes behind those that wait. -/
def Outgoing (s s' : Session) : Prop :=
  s.out.spos ≤ s.out.data.length → s'.out.spos ≤ s'.out.data.length
    ∧ ∃ fs, s'.sent = s.sent ++ fs ∧ (∀ f ∈ fs, f.Sized)
      ∧ s'.out.pending = s.out.pending ++ encodeAll fs

namespace Outgoing

variable {s s' s'' : Session}

theorem refl (s) : Outgoing s s := fun h => ⟨h, [], by simp⟩

theorem trans (h : Outgoing s s') (h' : Outgoing s' s'') : Outgoing s s'' := by
  intro hs
  obtain ⟨hs', fs, h1, h2, h3⟩ := h hs
  obtain ⟨hs'', fs', h1', h2', h3'⟩ := h' hs'
  refine ⟨hs'', fs ++ fs', by rw [h1', h1, List.append_assoc], fun f hf => ?_, ?_⟩
  · rcases List.mem_append.1 hf with hf | hf
    · exact h2 f hf
    · exact h2' f hf
  · rw [h3', h3, encodeAll_append, List.append_assoc]

theorem congr (h : Outgoing s s') (ho : s''.out = s'.out) (hs : s''.sent = s'.sent) :
    Outgoing s s'' := by
  unfold Outgoing at *
  rwa [ho, hs]

theorem of_eq (ho : s'.out = s.out) (hs : s'.sent = s.sent) : Outgoing s s' :=
  (refl s).congr ho hs

end Outgoing

end Output

/-! ### The primitives, as changes of the core -/

section Primitives

variable (s : Session)

theorem Core.die_of_dead {c : Core} (h : c.dead = true) (code) : c.die code = c := by
  rcases c
  simp_all [Core.die]

@[simp] theorem evqPush_toCore (e) : (evqPush s e).toCore = s.toCore.push e := rfl

@[simp] theorem evqPush_out (e) : (evqPush s e).out = s.out := rfl

@[simp] theorem raiseFatal_toCore (code) : (raiseFatal s code).toCore = s.toCore.die code := by
  unfold raiseFatal
  split
  · exact (Core.die_of_dead ‹_› code).symm
  · rename_i h
    simp [Core.die, Core.push, h]

@[simp] theorem raiseFatal_out (code) : (raiseFatal s code).out = s.out := by
  unfold raiseFatal
  split <;> rfl

@[simp] theorem stRemove_toCore (i : ℕ) : (stRemove s i).toCore = s.toCore.drop i := by
  unfold stRemove Core.drop
  rcases hg : s.tab.get i with _ | st
  · have : s.tab.remove i = s.tab := by
      unfold Table.get at hg
      unfold remove
      rcases hs : s.tab.slots i with _ | _ | r <;> simp_all
    simp [this]
  · simp

@[simp] theorem stRemove_out (i : ℕ) : (stRemove s i).out = s.out := by
  unfold stRemove
  split <;> rfl

@[simp] theorem setBlocked_out (i : ℕ) (b) : (setBlocked s i b).out = s.out := by
  unfold setBlocked
  repeat' split
  all_goals rfl

@[simp] theorem setBlocked_sent (i : ℕ) (b) : (setBlocked s i b).sent = s.sent := by
  unfold setBlocked
  repeat' split
  all_goals rfl

theorem setBlocked_true {i : ℕ} {st : MuxStream} (hg : s.tab.get i = some st)
    (hb : st.sendBlocked = false) : (setBlocked s i true).toCore = s.toCore.block i := by
  simp [setBlocked, hg, hb, Core.block]

theorem setBlocked_true_of_blocked {i : ℕ} {st : MuxStream} (hg : s.tab.get i = some st)
    (hb : st.sendBlocked = true) : setBlocked s i true = s := by
  simp [setBlocked, hg, hb]

theorem setBlocked_false {i : ℕ} {st : MuxStream} (hg : s.tab.get i = some st)
    (hb : st.sendBlocked = true) : (setBlocked s i false).toCore = s.toCore.unblock i := by
  simp [setBlocked, hg, hb, Core.unblock]

variable {s} {type : UInt8} {flags : UInt16} {sid : UInt32} {payload : Bytes}

variable (s type flags sid) in
theorem emit_toCore (hp : payload.length ≤ muxMaxPayload) :
    (emit s type flags sid payload).1.toCore
      = s.toCore.tryPut (emit s type flags sid payload).2.isOk { type, flags, sid, payload } := by
  rcases emit_cases s type flags sid hp with ⟨out, h, -⟩ | ⟨out, h, -⟩
  · rw [h]
    simp [Core.tryPut, Except.isOk, Except.toBool]
  · rw [h, raiseFatal_toCore]
    simp [Core.tryPut, Core.die, Except.isOk, Except.toBool]

theorem emit_ok (hp : payload.length ≤ muxMaxPayload) {s' : Session}
    (h : emit s type flags sid payload = (s', .ok ())) :
    s'.toCore = s.toCore.put { type, flags, sid, payload } := by
  have := emit_toCore s type flags sid hp
  rw [h] at this
  simpa [Core.tryPut, Core.put, Except.isOk, Except.toBool] using this

theorem emit_error (hp : payload.length ≤ muxMaxPayload) {s' : Session} {e}
    (h : emit s type flags sid payload = (s', .error e)) : s'.toCore = s.toCore.spill := by
  have := emit_toCore s type flags sid hp
  rw [h] at this
  simpa [Core.tryPut, Core.spill, Except.isOk, Except.toBool] using this

theorem emit_outgoing (hp : payload.length ≤ muxMaxPayload) :
    Outgoing s (emit s type flags sid payload).1 := by
  intro hs
  rcases emit_cases s type flags sid hp with ⟨out, h, -, h'⟩ | ⟨out, h, -, h1, h2⟩
  · rw [h]
    obtain ⟨h1, h2⟩ := h' hs
    exact ⟨h1, _, rfl, by simpa [Frame.Sized] using hp, by simpa using h2⟩
  · rw [h]
    exact ⟨by simpa using h1 hs, [], by simp [h2]⟩

theorem emit_outgoing_of (hp : payload.length ≤ muxMaxPayload) {r : Session × Except MuxErr Unit}
    (h : emit s type flags sid payload = r) : Outgoing s r.1 :=
  h ▸ emit_outgoing hp

end Primitives

end MuxProtocol
