import MuxProtocol.Proofs.Ids

/-!
# The ids `mux_open` hands out

The counter goes up by 2 modulo `2 ^ 32` from the role's first id. The acceptor's comes to 0 when
its ids are used up, which `mux_open` checks for. The dialer's goes past 0 to 1, so after `2 ^ 31`
opens it hands out its first id again.
-/

namespace MuxProtocol

open LinearProbe Machine List Session

section Opening

variable {s s' : Session} {role : MuxRole} {cfg : MuxConfig} {taken : List UInt32} {a : Call}

/-- The ids a call returns. -/
def Session.returned (s : Session) : Call → List UInt32
  | .open m => (muxOpen s m).2.toOption.toList
  | _ => []

/-- A call, on a session next to the ids its opens have returned. -/
def opening (p : Session × List UInt32) (a : Call) : Session × List UInt32 :=
  (p.1.call a, p.2 ++ p.1.returned a)

theorem reach_of_opening (ok : Session → Call → Prop) {p p' : Session × List UInt32}
    (h : Reach (ofFun opening) (fun p a => ok p.1 a) p p') :
    Reach (ofFun call) ok p.1 p'.1 :=
  h.map Prod.fst (fun _ _ => id) fun p a p' (hp : p' = opening p a) => congrArg Prod.fst hp

/-- `mux_open` passes its checks, but for that of the id. -/
structure OpenReady (c : Core) (metadata : Bytes) : Prop where
  alive : c.dead = false
  seen : c.peerHelloSeen = true
  staying : c.localGoaway = false
  bounded : metadata.length ≤ muxMaxMeta
  room : c.tab.count < c.peerMaxStreams.toNat

/-- Every id of the role has been returned. -/
def UsedUp (role : MuxRole) (taken : List UInt32) : Prop :=
  ∀ id, id ≠ muxSidControl → Own role id → id ∈ taken

/-- What the allocation of ids is to keep: they go up, none is 0 and all are of the role's parity;
a record is made only for an id that has none; once all are used up no open succeeds, and one that
fails for no other reason returns `MUX_ERR_STATE`. -/
structure Allocates (role : MuxRole) (s : Session) (taken : List UInt32) : Prop where
  sorted : taken.Pairwise (· < ·)
  valid : ∀ id ∈ taken, id ≠ muxSidControl ∧ Own role id
  fresh : ∀ m, OpenOk s.toCore m → stFind s.tab s.nextLocalSid = none
  usedUp : UsedUp role taken → ∀ m, (∃ e, (muxOpen s m).2 = .error e)
    ∧ (OpenReady s.toCore m → (muxOpen s m).2 = .error .state)

/-! ### What the counter gives -/

/-- The `k`-th id the counter gives. -/
def nthSid (role : MuxRole) (k : ℕ) : UInt32 := .ofNat (firstSid role + 2 * k)

theorem toNat_nthSid (role) (k : ℕ) :
    (nthSid role k).toNat = (firstSid role + 2 * k) % 2 ^ 32 := UInt32.toNat_ofNat'

theorem nthSid_succ (role) (k : ℕ) : nthSid role k + 2 = nthSid role (k + 1) := by
  rw [← UInt32.toNat_inj, UInt32.toNat_add, toNat_nthSid, toNat_nthSid,
    show (2 : UInt32).toNat = 2 from rfl]
  omega

theorem firstSid_le (role) : 1 ≤ firstSid role ∧ firstSid role ≤ 2 := by
  cases role <;> decide

structure Handed (role : MuxRole) (s : Session) (taken : List UInt32) : Prop where
  wf : s.toCore.Wf
  role_eq : s.role = role
  sent : synIds s.sent = taken
  eq : taken = (range taken.length).map (nthSid role)
  next : s.dead = false → s.nextLocalSid = nthSid role taken.length
  bound : role = .acceptor → taken.length < 2 ^ 31
  sound : Few s.toCore → Ids s.toCore

theorem permits_not_open (s) (ha : ∀ m, a ≠ .open m) : Permits (fun _ a => a ≠ .open) s a :=
  ⟨fun _ => by simp,
    fun _ _ => eachFrame_of_forall (fun _ _ _ _ _ => by simp) (fun _ => by simp) _ _ _,
    fun m hm => absurd hm (ha m), by simp, by simp, by simp, by simp, by simp, by simp⟩

theorem Steps.no_open {c c' : Core} (h : Reach Step (fun _ a => a ≠ .open) c c') :
    synIds c'.sent = synIds c.sent ∧ (c'.dead = false → c'.nextLocalSid = c.nextLocalSid) := by
  induction h with
  | start => exact ⟨rfl, fun _ => rfl⟩
  | step _ ha h ih =>
    rcases h.synIds_sent with ⟨h1, h2⟩ | ⟨⟨h1, -⟩, -⟩
    · exact ⟨h1.trans ih.1, fun hd => (h2 hd).trans (ih.2 (h.alive hd))⟩
    · exact absurd h1 ha

theorem Session.call_role (hw : s.toCore.Wf) : (s.call a).role = s.role := by
  have := Steps.config_eq (call_steps hw (permits_any s a))
  exact congrArg Prod.fst this

theorem Handed.opened (hi : Handed role s taken) {m} (hok : OpenOk s.toCore m)
    (hr : s'.role = s.role) (hw : s'.toCore.Wf) (hids : Few s'.toCore → Ids s'.toCore)
    (hsent : synIds s'.sent = synIds s.sent ++ [s.nextLocalSid])
    (hnext : s'.nextLocalSid = s.nextLocalSid + 2) :
    Handed role s' (taken ++ [s.nextLocalSid]) := by
  have hn := hi.next hok.alive
  refine ⟨hw, hr.trans hi.role_eq, by rw [hsent, hi.sent], ?_, fun _ => ?_, fun hacc => ?_, hids⟩
  · rw [length_append, length_singleton, range_succ, map_append, ← hi.eq, hn]
    rfl
  · rw [hnext, hn, nthSid_succ, length_append, length_singleton]
  · have hb := hi.bound hacc
    have hne : s.nextLocalSid.toNat ≠ 0 := fun h => hok.sid_ne (UInt32.toNat_inj.1 h)
    rw [hn, toNat_nthSid, hacc, show firstSid .acceptor = 2 from rfl] at hne
    rw [length_append, length_singleton]
    omega

/-- A call hands out the next ids, and no other. -/
theorem Handed.call (hi : Handed role s taken) (a) :
    Handed role (s.call a) (taken ++ s.returned a) := by
  have hsteps := Session.call_steps hi.wf (permits_any s a)
  have hw := Steps.wf hsteps hi.wf
  have hids := Steps.ids hsteps hi.sound
  have hrole := Session.call_role (a := a) hi.wf
  by_cases ha : ∃ m, a = .open m
  · obtain ⟨m, rfl⟩ := ha
    rcases muxOpen_cases hi.wf m with ⟨-, e, he⟩ | ⟨hok, t, i, s', -, -, ⟨he, hc⟩ | ⟨he, hc⟩⟩
    · simpa [Session.returned, Session.call, he, Except.toOption] using hi
    · rw [Session.call, he] at hw hids hrole
      have hret : s.returned (.open m) = [s.nextLocalSid] := by
        simp [Session.returned, he, Except.toOption]
      rw [Session.call, he, hret]
      exact hi.opened hok hrole hw hids (by simp [hc, synIds_singleton]) (by simp [hc])
    · rw [Session.call, he] at hw hids hrole ⊢
      have hret : s.returned (.open m) = [] := by simp [Session.returned, he, Except.toOption]
      rw [hret, append_nil]
      exact ⟨hw, hrole.trans hi.role_eq, by simpa [hc] using hi.sent, hi.eq, by simp [hc], hi.bound,
        hids⟩
  · have hno : ∀ m, a ≠ .open m := fun m h => ha ⟨m, h⟩
    obtain ⟨h1, h2⟩ := Steps.no_open (Session.call_steps hi.wf (permits_not_open s hno))
    have hret : s.returned a = [] := by
      cases a with
      | «open» m => exact absurd rfl (hno m)
      | _ => rfl
    rw [hret, append_nil]
    exact ⟨hw, hrole.trans hi.role_eq, h1.trans hi.sent, hi.eq,
      fun hd => (h2 hd).trans (hi.next (Session.call_alive hi.wf hd)), hi.bound, hids⟩

theorem handed_start (h₀ : muxSessionNew cfg role = some s) : Handed role s [] := by
  obtain ⟨hc, hw, -⟩ := muxSessionNew_spec h₀
  refine ⟨hw, by rw [hc, startCore_role], by rw [hc, startCore_synIds], rfl, fun _ => ?_, by simp,
    fun _ => hc ▸ ids_start cfg role⟩
  rw [hc]
  cases role <;> rfl

theorem handed_reach (h₀ : muxSessionNew cfg role = some s)
    (h : Reach (ofFun opening) (fun _ _ => True) (s, []) (s', taken)) : Handed role s' taken :=
  h.inv (I := fun p => Handed role p.1 p.2) (handed_start h₀)
    fun p a p' hi _ (hp : p' = opening p a) => hp ▸ hi.call a

/-! ### Below the wrap -/

/-- Until the counter wraps, the ids go up and are of the role's parity. -/
theorem sorted_nthSid {n : ℕ} (h : ∀ k < n, firstSid role + 2 * k < 2 ^ 32) :
    ((range n).map (nthSid role)).Pairwise (· < ·) := by
  rw [pairwise_map]
  refine (pairwise_lt_range (n := n)).imp_of_mem fun {j k} hj hk hlt => ?_
  rw [UInt32.lt_iff_toNat_lt, toNat_nthSid, toNat_nthSid,
    Nat.mod_eq_of_lt (h j (mem_range.1 hj)), Nat.mod_eq_of_lt (h k (mem_range.1 hk))]
  omega

theorem valid_nthSid {k : ℕ} (h : firstSid role + 2 * k < 2 ^ 32) :
    nthSid role k ≠ muxSidControl ∧ Own role (nthSid role k) := by
  have hn := toNat_nthSid role k
  rw [Nat.mod_eq_of_lt h] at hn
  refine ⟨fun h0 => ?_, ?_⟩
  · rw [h0, show muxSidControl.toNat = 0 from rfl] at hn
    have := (firstSid_le role).1
    omega
  · rw [own_iff, hn]
    omega

theorem exists_nthSid {id : UInt32} (h0 : id ≠ muxSidControl) (ho : Own role id) :
    ∃ k, firstSid role + 2 * k = id.toNat ∧ nthSid role k = id := by
  rw [own_iff] at ho
  have hlt := id.toNat_lt
  have hne : id.toNat ≠ 0 := fun h => h0 (UInt32.toNat_inj.1 h)
  have hle := firstSid_le role
  refine ⟨(id.toNat - firstSid role) / 2, by omega, ?_⟩
  rw [← UInt32.toNat_inj, toNat_nthSid, Nat.mod_eq_of_lt (by omega)]
  omega

theorem Handed.lt_of_usedUp (hi : Handed role s taken) {k : ℕ}
    (hk : firstSid role + 2 * k < 2 ^ 32) (hlt : ∀ j < taken.length, firstSid role + 2 * j < 2 ^ 32)
    (hu : UsedUp role taken) : k < taken.length := by
  obtain ⟨h0, ho⟩ := valid_nthSid hk
  have hm := hu _ h0 ho
  rw [hi.eq, mem_map] at hm
  obtain ⟨j, hj, he⟩ := hm
  have hj := mem_range.1 hj
  have := congrArg UInt32.toNat he
  rw [toNat_nthSid, toNat_nthSid, Nat.mod_eq_of_lt hk, Nat.mod_eq_of_lt (hlt j hj)] at this
  omega

theorem OpenOk.ready {c m} (h : OpenOk c m) : OpenReady c m :=
  ⟨h.alive, h.seen, h.staying, h.bounded, h.room⟩

theorem OpenReady.open_ok {c : Core} {m} (h : OpenReady c m) (h0 : c.nextLocalSid ≠ muxSidControl) :
    OpenOk c m :=
  ⟨h.alive, h.seen, h.staying, h.bounded, h.room, h0⟩

theorem muxOpen_zero {m} (h : OpenReady s.toCore m) (h0 : s.nextLocalSid = muxSidControl) :
    muxOpen s m = (s, .error .state) := by
  unfold muxOpen
  rw [if_neg (by simp [h.alive]), if_neg (by simp [h.seen]), if_neg (by simp [h.staying]),
    if_neg (Nat.not_lt.2 h.bounded), if_neg (Nat.not_le.2 h.room)]
  exact if_pos h0

theorem muxOpen_fails (hw : s.toCore.Wf) {m} (h : ¬ OpenOk s.toCore m) :
    ∃ e, (muxOpen s m).2 = .error e := by
  rcases muxOpen_cases hw m with ⟨-, e, he⟩ | ⟨hok, -⟩
  · exact ⟨e, by rw [he]⟩
  · exact absurd hok h

theorem Handed.fresh (hi : Handed role s taken) (hlt : taken.length < 2 ^ 31) {m}
    (hok : OpenOk s.toCore m) : stFind s.tab s.nextLocalSid = none := by
  have hf : Few s.toCore := by rw [Few, hi.sent]; exact hlt
  exact (stFind_none hi.wf.tab).2 fun st hm => (hi.sound hf).fresh hf hok hm

theorem Handed.allocates (hi : Handed role s taken)
    (h : role = .acceptor ∨ taken.length < 2 ^ 31
      ∨ taken.length = 2 ^ 31 ∧ ∀ m, ¬ OpenReady s.toCore m) : Allocates role s taken := by
  have hlt : ∀ k < taken.length, firstSid role + 2 * k < 2 ^ 32 := fun k hk => by
    have hb := hi.bound
    cases role with
    | dialer =>
      have h := h.resolve_left (by simp)
      rw [show firstSid .dialer = 1 from rfl]
      omega
    | acceptor =>
      have hb := hb rfl
      rw [show firstSid .acceptor = 2 from rfl]
      omega
  refine ⟨hi.eq ▸ sorted_nthSid hlt, fun id hid => ?_, fun m hok => ?_, fun hu m => ?_⟩
  · rw [hi.eq, mem_map] at hid
    obtain ⟨k, hk, rfl⟩ := hid
    exact valid_nthSid (hlt k (mem_range.1 hk))
  · refine hi.fresh ?_ hok
    rcases h with h | h | ⟨-, h⟩
    · exact hi.bound h
    · exact h
    · exact absurd hok.ready (h m)
  · cases role with
    | dialer =>
      have hlast := hi.lt_of_usedUp (k := 2 ^ 31 - 1) (by decide) hlt hu
      obtain ⟨-, hno⟩ := (h.resolve_left (by simp)).resolve_left (by omega)
      exact ⟨muxOpen_fails hi.wf fun hok => hno m hok.ready, fun hr => absurd hr (hno m)⟩
    | acceptor =>
      have hlast := hi.lt_of_usedUp (k := 2 ^ 31 - 2) (by decide) hlt hu
      have hlen : taken.length = 2 ^ 31 - 1 := by
        have := hi.bound rfl
        omega
      have h0 : s.dead = false → s.nextLocalSid = muxSidControl := fun hd => by
        rw [hi.next hd, hlen]
        rfl
      exact ⟨muxOpen_fails hi.wf fun hok => hok.sid_ne (h0 hok.alive),
        fun hr => by rw [muxOpen_zero hr (h0 hr.alive)]⟩

/-! ### The wrap -/

theorem nthSid_wrap : nthSid .dialer (2 ^ 31) = nthSid .dialer 0 := rfl

theorem Handed.usedUp_of_eq (hi : Handed .dialer s taken) (hlen : taken.length = 2 ^ 31) :
    UsedUp .dialer taken := by
  intro id h0 ho
  obtain ⟨k, hk, rfl⟩ := exists_nthSid h0 ho
  rw [hi.eq, mem_map]
  refine ⟨k, mem_range.2 ?_, rfl⟩
  have := (nthSid .dialer k).toNat_lt
  rw [show firstSid .dialer = 1 from rfl] at hk
  omega

theorem Handed.not_sorted (hi : Handed .dialer s taken) (hlen : 2 ^ 31 < taken.length) :
    ¬ taken.Pairwise (· < ·) := by
  intro hs
  rw [hi.eq, pairwise_iff_getElem] at hs
  have := hs 0 (2 ^ 31) (by simp; omega) (by simpa using hlen) (by decide)
  simp only [getElem_map, getElem_range] at this
  rw [nthSid_wrap] at this
  exact absurd this (UInt32.lt_irrefl _)

end Opening

/-! ### A run past the wrap -/

section Wrap

variable {s s' : Session} {taken : List UInt32}

/-- The output buffer is empty, and its ceiling is above the frames of an open and a reset. -/
structure Roomy (s : Session) : Prop where
  data : s.out.data = []
  spos : s.out.spos = 0
  ceiling : 28 ≤ s.maxOutBuffer.toNat

theorem Roomy.reserve (h : Roomy s) {n : ℕ} (hn : n ≤ 28) :
    (obReserve s.out n s.maxOutBuffer.toNat).2 = .ok () := by
  have := h.ceiling
  rw [obReserve_ok_iff, OutBuf.length_pending, h.data, length_nil]
  omega

theorem Roomy.emit (h : Roomy s) (type flags sid) {payload : Bytes} (hp : payload.length ≤ 16) :
    ∃ out, emit s type flags sid payload
      = ({ s with out, sent := s.sent ++ [{ type, flags, sid, payload }] }, .ok ())
      ∧ out.spos ≤ out.data.length := by
  have hmax : payload.length ≤ muxMaxPayload := Nat.le_trans hp (by decide)
  rcases emit_cases s type flags sid hmax with ⟨out, he, -, hout⟩ | ⟨out, he, -⟩
  · exact ⟨out, he, (hout (by rw [h.spos]; exact Nat.zero_le _)).1⟩
  · have hr := h.reserve (n := muxHeaderSize + payload.length) (by unfold muxHeaderSize; omega)
    have hok : (MuxProtocol.emit s type flags sid payload).2 = .ok () := emit_of_reserve hmax hr
    rw [he] at hok
    cases hok

theorem flush_reach (h : s.out.spos ≤ s.out.data.length) :
    Reach (ofFun opening) (fun _ _ => True) (s, taken)
      ({ s with out := { s.out with data := [], spos := 0 } }, taken) := by
  refine .single (a := .sendAdvance s.out.data.length) trivial ?_
  unfold ofFun opening call returned muxSendAdvance
  dsimp only
  rw [if_pos (by omega), append_nil]

/-- A dialer without streams that may open one. -/
structure Lull (s : Session) : Prop where
  roomy : Roomy s
  wf : s.toCore.Wf
  alive : s.dead = false
  seen : s.peerHelloSeen = true
  staying : s.localGoaway = false
  empty : s.tab.count = 0
  cap : 0 < s.peerMaxStreams.toNat
  sid_ne : s.nextLocalSid ≠ muxSidControl

theorem Lull.open_ok (h : Lull s) : OpenOk s.toCore [] :=
  ⟨h.alive, h.seen, h.staying, Nat.zero_le _, by rw [h.empty]; exact h.cap, h.sid_ne⟩

theorem Roomy.open (h : Roomy s) (hok : OpenOk s.toCore []) {t} {i : ℕ}
    (hi : stInsert s.tab (freshStream s.toCore s.nextLocalSid) = (t, some i)) :
    ∃ out, muxOpen s [] = ({ s with
          nextLocalSid := s.nextLocalSid + 2, tab := t, out
          sent := s.sent ++ [synFrame s.nextLocalSid []] }, .ok s.nextLocalSid)
      ∧ out.spos ≤ out.data.length := by
  have hr : Roomy { s with nextLocalSid := s.nextLocalSid + 2, tab := t } :=
    ⟨h.data, h.spos, h.ceiling⟩
  obtain ⟨out, he, hout⟩ := hr.emit muxTData muxFSyn s.nextLocalSid
    (by simp : ([] : Bytes).length ≤ 16)
  exact ⟨out, muxOpen_ok hok hi he, hout⟩

theorem muxReset_of_find (hr : Roomy s) (hd : s.dead = false) {sid} {i : ℕ} {st}
    (hf : stFind s.tab sid = some (i, st)) (code) : ∃ out, muxReset s sid code
        = (stRemove { s with out, sent := s.sent ++ [rstFrame sid code] } i, .ok ())
      ∧ out.spos ≤ out.data.length := by
  obtain ⟨out, he, hout⟩ := hr.emit muxTData muxFRst sid
    (by simp : (bePut32 code).length ≤ 16)
  refine ⟨out, ?_, hout⟩
  unfold muxReset
  rw [if_neg (by simp [hd]), hf]
  simp only [he]
  rfl

theorem stRemove_maxOutBuffer (s : Session) (i : ℕ) :
    (stRemove s i).maxOutBuffer = s.maxOutBuffer := by
  unfold stRemove
  split <;> rfl

/-- A stream opened and reset, with both frames sent, gives the same kind of state again. -/
theorem Lull.cycle (h : Lull s) (hodd : s.nextLocalSid + 2 ≠ muxSidControl) (taken) :
    ∃ s', Reach (ofFun opening) (fun _ _ => True) (s, taken) (s', taken ++ [s.nextLocalSid])
      ∧ Lull s' ∧ s'.nextLocalSid = s.nextLocalSid + 2 := by
  obtain ⟨t, i, hi, hins⟩ := stInsert_inserted h.wf.tab (freshStream s.toCore s.nextLocalSid)
  obtain ⟨out, hopen, hout⟩ := h.roomy.open h.open_ok hi
  set s₁ : Session := { s with
    nextLocalSid := s.nextLocalSid + 2, tab := t, out
    sent := s.sent ++ [synFrame s.nextLocalSid []] }
  set s₂ : Session := { s₁ with out := { out with data := [], spos := 0 } }
  have h₁ : Reach (ofFun opening) (fun _ _ => True) (s, taken) (s₁, taken ++ [s.nextLocalSid]) := by
    refine .single (a := .open []) trivial ?_
    simp only [ofFun, opening, call, returned, hopen]
    rfl
  have h₂ := h₁.trans (flush_reach (s := s₁) hout)
  have hcount : t.countIf (fun _ => true) = 1 := by
    rw [hins.countIf, ← h.wf.tab.count_eq, h.empty]
    rfl
  obtain ⟨j, st, hf⟩ : ∃ j st, stFind s₂.tab s.nextLocalSid = some (j, st) := by
    rcases hf : stFind s₂.tab s.nextLocalSid with _ | ⟨j, st⟩
    · exact absurd rfl ((stFind_none hins.wf).1 hf _ ((hins.mem _).2 (.inl rfl)))
    · exact ⟨j, st, rfl⟩
  obtain ⟨hg, -⟩ := stFind_some hins.wf hf
  obtain ⟨out', hreset, hout'⟩ :=
    muxReset_of_find (s := s₂) ⟨rfl, rfl, h.roomy.ceiling⟩ h.alive hf 0
  set s₃ : Session := { s₂ with out := out', sent := s₂.sent ++ [rstFrame s.nextLocalSid 0] }
  have ho₃ : (stRemove s₃ j).out = out' := stRemove_out s₃ j
  have h₃ : Reach (ofFun opening) (fun _ _ => True) (s₂, taken ++ [s.nextLocalSid])
      (stRemove s₃ j, taken ++ [s.nextLocalSid]) := by
    refine .single (a := .reset s.nextLocalSid 0) trivial ?_
    simp only [ofFun, opening, call, returned, append_nil, hreset]
  have h₄ := (h₂.trans h₃).trans (flush_reach (by rw [ho₃]; exact hout'))
  set s₄ : Session :=
    { stRemove s₃ j with out := { (stRemove s₃ j).out with data := [], spos := 0 } }
  have hcore : s₄.toCore = s₃.toCore.drop j := stRemove_toCore s₃ j
  have hmax : s₄.maxOutBuffer = s.maxOutBuffer := stRemove_maxOutBuffer s₃ j
  have hcount₄ := Table.countIf_remove hins.wf (Table.get_eq_some.1 hg) fun _ => true
  have hwf₄ : s₄.toCore.Wf :=
    hcore ▸ ⟨hins.wf.remove j, h.wf.peerId, h.wf.auth, h.wf.nonce⟩
  refine ⟨s₄, h₄, ⟨⟨rfl, rfl, hmax ▸ h.roomy.ceiling⟩, hwf₄, by rw [hcore]; exact h.alive,
    by rw [hcore]; exact h.seen, by rw [hcore]; exact h.staying, ?_, by rw [hcore]; exact h.cap,
    by rw [hcore]; exact hodd⟩, by rw [hcore]; rfl⟩
  rw [hwf₄.tab.count_eq, hcore, Core.drop_tab]
  change (t.remove j).countIf _ = 0
  rw [hcount] at hcount₄
  exact Nat.succ.inj hcount₄

theorem nthSid_dialer_ne (k : ℕ) : nthSid .dialer k ≠ muxSidControl := by
  intro h
  have := congrArg UInt32.toNat h
  rw [toNat_nthSid, show firstSid .dialer = 1 from rfl,
    show muxSidControl.toNat = 0 from rfl] at this
  omega

theorem Lull.cycles (h : Lull s) (h1 : s.nextLocalSid = nthSid .dialer 0) : ∀ n, ∃ s',
    Reach (ofFun opening) (fun _ _ => True) (s, []) (s', (range n).map (nthSid .dialer))
      ∧ Lull s' ∧ s'.nextLocalSid = nthSid .dialer n
  | 0 => ⟨s, .start, h, h1⟩
  | n + 1 => by
    obtain ⟨s', hr, hs', hn⟩ := h.cycles h1 n
    obtain ⟨s'', hr', hs'', hn'⟩ := hs'.cycle
      (by rw [hn, nthSid_succ]; exact nthSid_dialer_ne _) ((range n).map (nthSid .dialer))
    refine ⟨s'', ?_, hs'', by rw [hn', hn, nthSid_succ]⟩
    rw [range_succ, map_append, map_singleton]
    exact hr.trans (hn ▸ hr')

/-- A dialer's greeting is sent and answered. -/
def greetedRun : List Call :=
  [.recv (encode (helloFrame (initSession {} .acceptor).toCore true)), .sendAdvance 100]

/-- A dialer just made. -/
def newDialer : Session := (sendHello (initSession { maxStreams := 1 } .dialer) false).1

theorem muxSessionNew_newDialer : muxSessionNew { maxStreams := 1 } .dialer = some newDialer := by
  have h : (sendHello (initSession { maxStreams := 1 } .dialer) false).2 = .ok () := by
    decide +kernel
  unfold muxSessionNew newDialer
  rw [if_neg (by decide)]
  rcases hr : sendHello (initSession { maxStreams := 1 } .dialer) false with ⟨s, r⟩
  rw [hr] at h
  dsimp only at h
  rw [h]

theorem lull_greetedRun : Lull (greetedRun.foldl call newDialer) := by
  have hw := (reach_wf muxSessionNew_newDialer
    (show Reach (ofFun call) (fun _ _ => True) newDialer _ from
      .foldl greetedRun (by simp [greetedRun, Allowed]))).1
  refine ⟨⟨?_, ?_, ?_⟩, hw, ?_, ?_, ?_, ?_, ?_, ?_⟩
  all_goals decide +kernel

/-- The ids handed out are as they should be exactly as long as a dialer has not used up its own:
after that it starts again at 1. -/
theorem stream_ids_iff {role : MuxRole} {cfg : MuxConfig} (h₀ : muxSessionNew cfg role = some s)
    (h : Reach (ofFun opening) (fun _ _ => True) (s, []) (s', taken)) :
    Allocates role s' taken ↔ role = .acceptor ∨ taken.length < 2 ^ 31
      ∨ taken.length = 2 ^ 31 ∧ ∀ m, ¬ OpenReady s'.toCore m := by
  have hi := handed_reach h₀ h
  refine ⟨fun ha => ?_, hi.allocates⟩
  cases role with
  | acceptor => exact .inl rfl
  | dialer =>
    refine .inr ?_
    rcases Nat.lt_trichotomy taken.length (2 ^ 31) with hlen | hlen | hlen
    · exact .inl hlen
    · refine .inr ⟨hlen, fun m hr => ?_⟩
      have hstate := (ha.usedUp (hi.usedUp_of_eq hlen) m).2 hr
      have hok : OpenOk s'.toCore m := hr.open_ok (by rw [hi.next hr.alive, hlen]; decide)
      rcases muxOpen_cases hi.wf m with ⟨hno, -⟩ | ⟨-, _, _, _, -, -, ⟨he, -⟩ | ⟨he, -⟩⟩
      · exact hno hok
      all_goals
        rw [he] at hstate
        cases hstate
    · exact absurd ha.sorted (hi.not_sorted hlen)

/-- After `2 ^ 31` opens a dialer returns its first id again. -/
theorem first_id_returned_again : ∃ s s' taken,
    muxSessionNew { maxStreams := 1 } .dialer = some s
      ∧ Reach (ofFun opening) (fun _ _ => True) (s, []) (s', taken)
      ∧ taken.length = 2 ^ 31 + 1 ∧ taken[0]? = some 1 ∧ taken[2 ^ 31]? = some 1 := by
  obtain ⟨s', hr, -⟩ := lull_greetedRun.cycles (by decide +kernel) (2 ^ 31 + 1)
  have h0 : Reach (ofFun opening) (fun _ _ => True) (newDialer, [])
      (greetedRun.foldl opening (newDialer, [])) :=
    .foldl greetedRun (by simp [greetedRun, Allowed])
  rw [show greetedRun.foldl opening (newDialer, []) = (greetedRun.foldl Session.call newDialer, [])
    by simp only [greetedRun, List.foldl, opening, Session.returned, List.append_nil]] at h0
  refine ⟨_, s', _, muxSessionNew_newDialer, h0.trans hr, by simp, ?_, ?_⟩
  · rw [List.getElem?_map, List.getElem?_range (by decide)]
    rfl
  · rw [List.getElem?_map, List.getElem?_range (by decide), Option.map_some, nthSid_wrap]
    rfl

def openedRun : List Call := greetedRun ++ [.open []]

theorem stream_ids_iff_openedRun :
    Allocates .dialer (openedRun.foldl opening (newDialer, [])).1 [1] := by
  have h : Reach (ofFun opening) (fun _ _ => True) (newDialer, [])
      (openedRun.foldl opening (newDialer, [])) :=
    .foldl openedRun (by simp [openedRun, greetedRun, Allowed])
  have h2 : (openedRun.foldl opening (newDialer, [])).2 = [1] := by decide +kernel
  generalize openedRun.foldl opening (newDialer, []) = p at h h2 ⊢
  obtain ⟨s', taken⟩ := p
  cases h2
  exact (stream_ids_iff muxSessionNew_newDialer h).2 (.inr (.inl (by decide)))

end Wrap

end MuxProtocol
