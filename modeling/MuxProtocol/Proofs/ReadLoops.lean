import MuxProtocol.Proofs.AcceptOrder
import MuxProtocol.Proofs.Edits
import MuxProtocol.Proofs.Relay

/-!
# The read loops

The router, the relay and the client library read their tunnels with the same loop, each over a
`mux_recv` and its own handlers. The handlers leave the receive buffer alone, so what the loop
leaves in it is what its last `mux_recv` did not consume: the rest of a frame, unless `mux_recv`
stopped because the event queue was full. A frame longer than the buffer is never completed. -/

namespace MuxProtocol

open List Option EpConn

/-! ### Where `mux_recv` stops -/

section Stop

variable {s : Session} {buf : Bytes}

/-- The frames at the front of the bytes fill the event queue, and what follows is not the beginning
of a frame only. -/
def Sated (s : Session) (buf : Bytes) : Prop :=
  ∃ fs rest, buf = encodeAll fs ++ rest ∧ (∀ f ∈ fs, f.Sized)
    ∧ muxEventQueueSoftCap ≤ (fs.foldl processFrame s).q.count ∧ muxParse rest ≠ .error .short

theorem sated_cons {f} {n : ℕ} (hq : s.q.count < muxEventQueueSoftCap)
    (hp : muxParse buf = .ok (f, n)) : Sated s buf ↔ Sated (processFrame s f) (buf.drop n) := by
  obtain ⟨hf, rfl, hb⟩ := muxParse_ok hp
  constructor
  · rintro ⟨fs, rest, h1, h2, h3, h4⟩
    rcases fs with _ | ⟨g, fs⟩
    · rw [foldl_nil] at h3
      omega
    · have hg := h2 g mem_cons_self
      have hpg := muxParse_encode hg (encodeAll fs ++ rest)
      rw [← append_assoc, ← encodeAll_cons, ← h1, hp] at hpg
      obtain rfl : f = g := by
        have := Except.ok.inj hpg
        exact (Prod.ext_iff.1 this).1
      refine ⟨fs, rest, ?_, fun g hg => h2 g (mem_cons_of_mem _ hg), h3, h4⟩
      rw [h1, encodeAll_cons, append_assoc, drop_left]
  · rintro ⟨fs, rest, h1, h2, h3, h4⟩
    refine ⟨f :: fs, rest, ?_, ?_, h3, h4⟩
    · rw [encodeAll_cons, append_assoc, ← h1]
      exact hb
    · rintro g hg
      rcases mem_cons.1 hg with rfl | hg
      · exact hf
      · exact h2 g hg

/-- A session that lives on after `mux_recv` waits for the rest of a frame, unless its queue is
full. -/
theorem recvLoop_left : ∀ (n : ℕ) {s : Session} {buf : Bytes}, buf.length ≤ n →
    (recvLoop n s buf).1.dead = false →
    (muxParse (buf.drop (recvLoop n s buf).2) = .error .short ↔ ¬ Sated s buf)
  | 0, s, buf, hn, _ => by
    obtain rfl : buf = [] := length_eq_zero_iff.1 (by omega)
    refine iff_of_true rfl ?_
    rintro ⟨fs, rest, h1, -, -, h4⟩
    obtain ⟨-, rfl⟩ := append_eq_nil_iff.1 h1.symm
    exact h4 rfl
  | n + 1, s, buf, hn, hd => by
    unfold recvLoop at hd ⊢
    by_cases hb : buf = []
    · subst hb
      refine iff_of_true rfl ?_
      rintro ⟨fs, rest, h1, -, -, h4⟩
      obtain ⟨-, rfl⟩ := append_eq_nil_iff.1 h1.symm
      exact h4 rfl
    rw [if_neg hb] at hd ⊢
    by_cases hq : s.q.count ≥ muxEventQueueSoftCap
    · rw [if_pos hq, drop_zero]
      constructor
      · rintro hp ⟨fs, rest, h1, h2, -, h4⟩
        rcases fs with _ | ⟨g, fs⟩
        · rw [encodeAll_nil, nil_append] at h1
          exact h4 (h1 ▸ hp)
        · rw [h1, encodeAll_cons, append_assoc, muxParse_encode (h2 g mem_cons_self)] at hp
          cases hp
      · intro hno
        by_contra hp
        exact hno ⟨[], buf, rfl, by simp, hq, hp⟩
    rw [if_neg hq] at hd ⊢
    rw [ge_iff_le, Nat.not_le] at hq
    rcases hp : muxParse buf with e | ⟨f, used⟩
    · rw [hp] at hd
      cases e with
      | short =>
        refine iff_of_true hp ?_
        rintro ⟨fs, rest, h1, h2, h3, h4⟩
        rcases fs with _ | ⟨g, fs⟩
        · rw [foldl_nil] at h3
          omega
        · rw [h1, encodeAll_cons, append_assoc, muxParse_encode (h2 g mem_cons_self)] at hp
          cases hp
      | _ => simp at hd
    · rw [hp] at hd
      dsimp only at hd ⊢
      by_cases hf : (processFrame s f).dead = true
      · rw [if_pos hf] at hd
        simp [hf] at hd
      rw [if_neg hf] at hd ⊢
      have hlen : (buf.drop used).length ≤ n := by
        obtain ⟨-, hu, -⟩ := muxParse_ok hp
        have := length_pos_of_ne_nil (encode_ne_nil f)
        rw [length_drop]
        omega
      rw [sated_cons hq hp, ← recvLoop_left n hlen hd, drop_drop]

end Stop

/-! ### The loop -/

/-- The receive buffer of a tunnel and its session. -/
structure Inlet where
  recv : Bytes
  mux : Option Session

namespace Inlet

variable {x y z : Inlet}

/-- The buffer stays as it is, and a dead session dead. -/
def Kept (x y : Inlet) : Prop :=
  y.recv = x.recv ∧ ∀ s, x.mux = some s → s.dead = true → ∃ s', y.mux = some s' ∧ s'.dead = true

theorem Kept.refl (x : Inlet) : x.Kept x := ⟨rfl, fun s h hd => ⟨s, h, hd⟩⟩

theorem Kept.trans (h : x.Kept y) (h' : y.Kept z) : x.Kept z := by
  refine ⟨h'.1.trans h.1, fun s hs hd => ?_⟩
  obtain ⟨s', hs', hd'⟩ := h.2 s hs hd
  exact h'.2 s' hs' hd'

theorem Kept.call (x : Inlet) (a) : x.Kept ⟨x.recv, x.mux.map (·.call a)⟩ := by
  refine ⟨rfl, fun s hs hd => ⟨s.call a, by rw [hs]; rfl, ?_⟩⟩
  rw [Session.call_dead hd]
  exact hd

/-- The session after calls that take no event and no bytes; the buffer is as it was. -/
def Worked (x y : Inlet) : Prop :=
  ∃ l : List Call, (∀ b ∈ l, b.Inner ∧ b.Quiet) ∧ y = ⟨x.recv, x.mux.map (l.foldl Session.call)⟩

namespace Worked

theorem refl (x : Inlet) : x.Worked x := ⟨[], by simp, by simp⟩

theorem call (x : Inlet) {b : Call} (h : b.Inner) (h' : b.Quiet) :
    x.Worked ⟨x.recv, x.mux.map (·.call b)⟩ := ⟨[b], by simp [h, h'], rfl⟩

theorem trans (h : x.Worked y) (h' : y.Worked z) : x.Worked z := by
  obtain ⟨l, hl, rfl⟩ := h
  obtain ⟨l', hl', rfl⟩ := h'
  refine ⟨l ++ l', fun b hb => (mem_append.1 hb).elim (hl b) (hl' b), ?_⟩
  rw [Option.map_map]
  congr 2
  funext s
  simp

/-- Calls on a dead session do nothing. -/
theorem dead (h : x.Worked y) {s : Session} (hs : x.mux = some s) (hd : s.dead = true) : y = x := by
  obtain ⟨l, hl, rfl⟩ := h
  obtain ⟨recv, mux⟩ := x
  dsimp only at hs
  subst hs
  induction l with
  | nil => rfl
  | cons b l ih =>
    have hb := hl b mem_cons_self
    rw [map_some, foldl_cons, Session.call_of_dead hd hb.1]
    exact ih fun b hb => hl b (mem_cons_of_mem _ hb)

/-- They add nothing to the events that can be taken. -/
theorem left (h : x.Worked y) {n : ℕ} (hx : ∀ s ∈ x.mux, s.left ≤ n) : ∀ s ∈ y.mux, s.left ≤ n := by
  obtain ⟨l, hl, rfl⟩ := h
  intro s' hs'
  obtain ⟨s, hs, rfl⟩ := map_eq_some_iff.1 hs'
  replace hx := hx s hs
  clear hs' hs
  induction l generalizing s with
  | nil => exact hx
  | cons b l ih =>
    refine ih (fun b hb => hl b (mem_cons_of_mem _ hb)) (s.call b) ?_
    rw [(Session.call_hushed (hl b mem_cons_self).2 s).left]
    exact hx

theorem kept (h : x.Worked y) : x.Kept y := by
  refine ⟨?_, fun s hs hd => ⟨s, by rw [h.dead hs hd, hs], hd⟩⟩
  obtain ⟨l, -, rfl⟩ := h
  rfl

end Worked

/-- The tunnel as `mux_recv` leaves it. -/
def fed (x : Inlet) (s : Session) : Inlet :=
  ⟨x.recv.drop (accepted (muxRecv s x.recv).2), some (muxRecv s x.recv).1⟩

end Inlet

/-- A host that reads a tunnel. It calls `mux_recv` with its buffer and handles the events. -/
structure ReadHost (σ : Type) extends Reader σ where
  mux : σ → Option Session
  stash_recv : ∀ x b, recv (stash x b) = recv x ++ b
  stash_mux : ∀ x b, mux (stash x b) = mux x
  pump_none : ∀ x, mux x = none → ∃ e, (pump x).2 = .error e
  pump_snd : ∀ x s, mux x = some s → (pump x).2 = (muxRecv s (recv x)).2
  /-- The handlers see to the streams. -/
  pump_kept : ∀ x s, mux x = some s →
    (Inlet.fed ⟨recv x, mux x⟩ s).Kept ⟨recv (pump x).1, mux (pump x).1⟩
  /-- Without events they do nothing. -/
  pump_idle : ∀ x s, mux x = some s → (muxRecv s (recv x)).1.q.count = 0 →
    (⟨recv (pump x).1, mux (pump x).1⟩ : Inlet) = Inlet.fed ⟨recv x, mux x⟩ s

namespace ReadHost

open Reader

variable {σ : Type} (h : ReadHost σ) {x x' : σ} {as : List ReadAnswer}

/-- The state at the `mux_recv` that makes room, if one does. -/
def roomPump (x : σ) : Option σ := if (h.recv x).length < recvCap then none else some x

/-- The state at the last `mux_recv` that the loop makes. -/
def lastPump : List ReadAnswer → σ → Option σ
  | [], x => h.roomPump x
  | a :: as, x =>
    match h.makeRoom x with
    | (_, some _) => h.roomPump x
    | (y, none) =>
      match a with
      | .bytes b =>
        let space := recvCap - (h.recv y).length
        let b := b.take space
        if b = [] then h.roomPump x
        else
          match h.pump (h.stash y b) with
          | (_, .error _) => some (h.stash y b)
          | (z, .ok _) =>
            if b.length < space then some (h.stash y b)
            else (lastPump as z).or (some (h.stash y b))
      | .eof | .again | .error => h.roomPump x

theorem makeRoom_fst :
    (h.makeRoom x).1 = ((h.roomPump x).map fun y => (h.pump y).1).getD x := by
  unfold makeRoom roomPump
  split_ifs
  · rfl
  · rcases hp : h.pump x with ⟨y, _ | _ | n⟩
    all_goals simp [hp]

/-- The loop leaves what its last pump left. -/
theorem readLoop_fst : ∀ (as : List ReadAnswer) (x : σ),
    (h.readLoop as x).1 = ((h.lastPump as x).map fun y => (h.pump y).1).getD x
  | [], x => by
    have h1 := h.makeRoom_fst (x := x)
    unfold readLoop lastPump
    rcases hm : h.makeRoom x with ⟨y, _ | ok⟩
    · rw [hm] at h1
      exact h1
    · rw [hm] at h1
      exact h1
  | a :: as, x => by
    have h1 := h.makeRoom_fst (x := x)
    unfold readLoop lastPump
    rcases hm : h.makeRoom x with ⟨y, _ | ok⟩
    · rw [hm] at h1
      dsimp only at h1 ⊢
      rcases a with b | _ | _ | _
      · dsimp only
        generalize h.stash y (b.take (recvCap - (h.recv y).length)) = z
        rcases hp : h.pump z with ⟨y', e | n⟩
        · split_ifs
          · exact h1
          all_goals simp [hp]
        · split_ifs
          · exact h1
          · simp [hp]
          · dsimp only
            rw [readLoop_fst as y']
            rcases h.lastPump as y' with _ | z'
            · simp [hp]
            · rfl
      · exact h1
      · exact h1
      · exact h1
    · rw [hm] at h1
      exact h1

theorem makeRoom_ok (hr : (h.makeRoom x).2 ≠ some false) :
    ∀ y ∈ h.roomPump x, ∃ n, (h.pump y).2 = .ok n := by
  unfold makeRoom at hr
  unfold roomPump
  split_ifs at hr ⊢
  · simp
  · rcases hp : h.pump x with ⟨y, e | n⟩
    · simp [hp] at hr
    · rintro _ ⟨⟩
      exact ⟨n, by rw [hp]⟩

theorem readLoop_ok : ∀ (as : List ReadAnswer) (x : σ), (h.readLoop as x).2 = true →
    ∀ y ∈ h.lastPump as x, ∃ n, (h.pump y).2 = .ok n
  | [], x, hr => by
    have h1 := h.makeRoom_ok (x := x)
    unfold readLoop at hr
    unfold lastPump
    rcases hm : h.makeRoom x with ⟨y, _ | ok⟩
    · exact h1 (by simp [hm])
    · rw [hm] at hr
      exact h1 (by simpa [hm] using hr)
  | a :: as, x, hr => by
    have h1 := h.makeRoom_ok (x := x)
    unfold readLoop at hr
    unfold lastPump
    rcases hm : h.makeRoom x with ⟨y, _ | ok⟩
    · rw [hm] at hr
      replace h1 := h1 (by simp [hm])
      rcases a with b | _ | _ | _
      · dsimp only at hr ⊢
        generalize h.stash y (b.take (recvCap - (h.recv y).length)) = z at hr ⊢
        have hok : ∀ {y' : σ} {n : ℕ}, h.pump z = (y', .ok n) →
            ∀ z' ∈ some z, ∃ n, (h.pump z').2 = .ok n := by
          rintro y' n hp _ ⟨⟩
          exact ⟨n, by rw [hp]⟩
        rcases hp : h.pump z with ⟨y', e | n⟩
        · rw [hp] at hr
          split_ifs at hr ⊢
        · rw [hp] at hr
          split_ifs at hr ⊢
          · exact hok hp
          · dsimp only at hr ⊢
            have ih := readLoop_ok as y' hr
            rcases hl : h.lastPump as y' with _ | z'
            · exact hok hp
            · rw [hl] at ih
              exact ih
      · exact h1
      · exact h1
      · exact h1
    · rw [hm] at hr
      exact h1 (by simpa [hm] using hr)

/-- The last `mux_recv` of the loop is not stopped by a full queue; if there is none, there is no
frame to begin with. -/
def Clears (as : List ReadAnswer) (x : σ) : Prop :=
  match h.lastPump as x with
  | none => muxParse (h.recv x) = .error .short
  | some y => ∀ s, h.mux y = some s → ¬ Sated s (h.recv y)

/-- What is left is the rest of a frame, unless the pump stopped for a full queue. -/
theorem readLoop_left (hok : (h.readLoop as x).2 = true) {s : Session}
    (hs : h.mux (h.readLoop as x).1 = some s) (hd : s.dead = false) :
    muxParse (h.recv (h.readLoop as x).1) = .error .short ↔ h.Clears as x := by
  have hlast := h.readLoop_ok as x hok
  rw [readLoop_fst] at hs ⊢
  unfold Clears
  rcases hl : h.lastPump as x with _ | y
  · exact Iff.rfl
  rw [hl] at hlast hs
  obtain ⟨n, hn⟩ := hlast y rfl
  rw [map_some, getD_some] at hs ⊢
  dsimp only
  rcases hm : h.mux y with _ | m
  · obtain ⟨e, he⟩ := h.pump_none y hm
    rw [he] at hn
    cases hn
  obtain ⟨hrecv, hkept⟩ := h.pump_kept y m hm
  dsimp only at hrecv
  rw [h.pump_snd y m hm] at hn
  have hmd : m.dead = false := by
    by_contra hno
    rw [muxRecv, if_pos (by simpa using hno)] at hn
    cases hn
  have hfed : muxRecv m (h.recv y) = ((recvLoop (h.recv y).length m (h.recv y)).1,
      .ok (recvLoop (h.recv y).length m (h.recv y)).2) := by
    rw [muxRecv, if_neg (by simp [hmd])]
  have halive : (recvLoop (h.recv y).length m (h.recv y)).1.dead = false := by
    by_contra hno
    obtain ⟨s', hs', hd'⟩ := hkept _ rfl (by rw [hfed]; simpa using hno)
    rw [hs] at hs'
    cases hs'
    simp [hd] at hd'
  rw [hrecv]
  simp only [Inlet.fed, hfed, accepted, Except.toOption, getD_some]
  rw [recvLoop_left _ le_rfl halive]
  constructor
  · rintro hc _ ⟨⟩
    exact hc
  · exact fun hc => hc m rfl

/-! ### A frame that does not fit -/

/-- The buffer holds the beginning of a frame that is within the limit of the protocol, and longer
than the buffer. -/
def Oversized (buf : Bytes) : Prop :=
  ∃ f : Frame, f.Sized ∧ recvCap < (encode f).length ∧ buf <+: encode f

section Header

variable {ver type f₀ f₁ s₀ s₁ s₂ s₃ l₀ l₁ l₂ l₃ : UInt8} {rest buf : Bytes}

/-- With the whole header there, `mux_parse` waits for the payload. -/
theorem muxParse_short_header
    (h : muxParse (ver :: type :: f₀ :: f₁ :: s₀ :: s₁ :: s₂ :: s₃ :: l₀ :: l₁ :: l₂ :: l₃ :: rest)
      = .error .short) :
    ver = muxVersion ∧ (beGet32 l₀ l₁ l₂ l₃).toNat ≤ muxMaxPayload
      ∧ rest.length < (beGet32 l₀ l₁ l₂ l₃).toNat := by
  rw [muxParse] at h
  generalize (beGet32 l₀ l₁ l₂ l₃).toNat = k at h ⊢
  split_ifs at h with h1 h2 h3
  · simp at h
  · simp at h
  exact ⟨not_not.1 h1, Nat.not_lt.1 h2, h3⟩

theorem exists_frame {k : ℕ} (hhdr : bePut32 (.ofNat k) = [l₀, l₁, l₂, l₃]) (hv : ver = muxVersion)
    (hk : k ≤ muxMaxPayload) (hlt : rest.length < k)
    (hb : buf = ver :: type :: f₀ :: f₁ :: s₀ :: s₁ :: s₂ :: s₃ :: l₀ :: l₁ :: l₂ :: l₃ :: rest) :
    ∃ f : Frame, f.Sized ∧ buf.length < (encode f).length ∧ buf <+: encode f := by
  have hlen : (rest ++ replicate (k - rest.length) 0).length = k := by
    rw [length_append, length_replicate]
    omega
  refine ⟨⟨ver, type, beGet16 f₀ f₁, beGet32 s₀ s₁ s₂ s₃,
    rest ++ replicate (k - rest.length) 0⟩, ⟨hv, hlen.trans_le hk⟩, ?_,
    replicate (k - rest.length) 0, ?_⟩
  · rw [length_encode, hlen, muxHeaderSize, hb]
    simp only [length_cons]
    omega
  · rw [encode, hb]
    dsimp only
    rw [hlen, hhdr, bePut16_get, bePut32_get]
    rfl

end Header

theorem exists_header {buf : Bytes} (h12 : 12 ≤ buf.length) :
    ∃ ver type f₀ f₁ s₀ s₁ s₂ s₃ l₀ l₁ l₂ l₃ rest,
      buf = ver :: type :: f₀ :: f₁ :: s₀ :: s₁ :: s₂ :: s₃ :: l₀ :: l₁ :: l₂ :: l₃ :: rest := by
  match buf, h12 with
  | a :: b :: c :: d :: e :: f :: g :: i :: j :: k :: l :: m :: rest, _ =>
    exact ⟨a, b, c, d, e, f, g, i, j, k, l, m, rest, rfl⟩

theorem muxParse_short_iff {buf : Bytes} (hf : buf.length = recvCap) :
    muxParse buf = .error .short ↔ Oversized buf := by
  constructor
  · intro h
    obtain ⟨_, _, _, _, _, _, _, _, _, _, _, _, _, hb⟩ := exists_header (hf.ge.trans' (by decide))
    obtain ⟨hv, hk, hlt⟩ := muxParse_short_header (hb ▸ h)
    obtain ⟨f, h1, h2, h3⟩ := exists_frame (by rw [UInt32.ofNat_toNat, bePut32_get]) hv hk hlt hb
    exact ⟨f, h1, hf ▸ h2, h3⟩
  · rintro ⟨f, hs, hlt, hp⟩
    exact muxParse_short hs hp (hf ▸ hlt)

/-- The next `mux_recv` takes something, or the loop gives the tunnel up, now or in its next
round. -/
def Advances (pump : σ → σ × Except MuxErr ℕ) (loop : List ReadAnswer → σ → σ × Bool) (x : σ) :
    Prop :=
  (∃ n, (pump x).2 = .ok (n + 1)) ∨ (∀ as, (loop as x).2 = false)
    ∨ ∀ as, (loop as (pump x).1).2 = false

theorem readLoop_error (hf : recvCap ≤ (h.recv x).length) {e} (hp : (h.pump x).2 = .error e) :
    (h.readLoop as x).2 = false := by
  have hm : h.makeRoom x = ((h.pump x).1, some false) := by
    unfold makeRoom
    rw [if_neg (Nat.not_lt.2 hf)]
    rcases hr : h.pump x with ⟨y, r⟩
    rw [hr] at hp
    dsimp only at hp
    subst hp
    rfl
  cases as with
  | nil => simp only [readLoop, hm]
  | cons a as => simp only [readLoop, hm]

theorem readLoop_stuck (hf : recvCap ≤ (h.recv x).length) (hp : (h.pump x).2 = .ok 0) :
    h.readLoop as x = ((h.pump x).1, true) := by
  have hm : h.makeRoom x = ((h.pump x).1, some true) := by
    unfold makeRoom
    rw [if_neg (Nat.not_lt.2 hf)]
    rcases hr : h.pump x with ⟨y, r⟩
    rw [hr] at hp
    dsimp only at hp
    subst hp
    rfl
  cases as with
  | nil => simp only [readLoop, hm]
  | cons a as => simp only [readLoop, hm]

theorem muxRecv_short {s : Session} {buf} (hd : s.dead = false)
    (hp : muxParse buf = .error .short) : muxRecv s buf = (s, .ok 0) := by
  rw [muxRecv, if_neg (by simp [hd])]
  have hstay : ∀ n, recvLoop n s buf = (s, 0) := by
    intro n
    cases n with
    | zero => rfl
    | succ n =>
      unfold recvLoop
      rw [hp]
      split_ifs
      · rfl
      · rfl
      · rfl
  rw [hstay]

theorem pump_short {s : Session} (hs : h.mux x = some s) (hd : s.dead = false)
    (hq : s.q.count = 0) (hp : muxParse (h.recv x) = .error .short) :
    (h.pump x).2 = .ok 0 ∧ h.recv (h.pump x).1 = h.recv x ∧ h.mux (h.pump x).1 = some s := by
  have hidle := h.pump_idle x s hs (by rw [muxRecv_short hd hp]; exact hq)
  simp only [Inlet.fed, muxRecv_short hd hp, accepted, Except.toOption, getD_some,
    drop_zero] at hidle
  exact ⟨by rw [h.pump_snd x s hs, muxRecv_short hd hp], Inlet.mk.inj hidle⟩

/-- The loop finds the buffer full of the beginning of a frame, and leaves it so. -/
theorem readLoop_wedged {s : Session} (hf : (h.recv x).length = recvCap)
    (hs : h.mux x = some s) (hd : s.dead = false) (hq : s.q.count = 0)
    (hp : muxParse (h.recv x) = .error .short) (as) :
    (h.readLoop as x).2 = true ∧ h.recv (h.readLoop as x).1 = h.recv x
      ∧ h.mux (h.readLoop as x).1 = some s := by
  obtain ⟨h1, h2⟩ := h.pump_short hs hd hq hp
  rw [h.readLoop_stuck hf.ge h1]
  exact ⟨rfl, h2⟩

theorem readLoop_fills {s : Session} {b : Bytes} (hr : h.recv x = [])
    (hs : h.mux x = some s) (hd : s.dead = false) (hq : s.q.count = 0)
    (hb : b.length = recvCap) (hp : muxParse b = .error .short) :
    (h.readLoop [.bytes b] x).2 = true ∧ h.recv (h.readLoop [.bytes b] x).1 = b
      ∧ h.mux (h.readLoop [.bytes b] x).1 = some s := by
  have hm : h.makeRoom x = (x, none) := by
    unfold makeRoom
    rw [hr, if_pos (by decide)]
  have hrecv : h.recv (h.stash x b) = b := by rw [h.stash_recv, hr, nil_append]
  obtain ⟨h1, h2, hmux⟩ := h.pump_short ((h.stash_mux x b).trans hs) hd hq (hrecv.symm ▸ hp)
  rw [hrecv] at h2
  obtain ⟨h3, h4, h5⟩ := h.readLoop_wedged (h2.symm ▸ hb) hmux hd hq (h2.symm ▸ hp) []
  have hne : b ≠ [] := by
    rintro rfl
    cases hb
  have hloop : h.readLoop [.bytes b] x = h.readLoop [] (h.pump (h.stash x b)).1 := by
    conv_lhs => rw [readLoop, hm]
    dsimp only
    rw [hr, length_nil, Nat.sub_zero, take_of_length_le hb.le, if_neg hne]
    rcases hp' : h.pump (h.stash x b) with ⟨y, r⟩
    rw [hp'] at h1
    dsimp only at h1
    subst h1
    dsimp only
    rw [if_neg (by omega)]
  rw [hloop]
  exact ⟨h3, h4.trans h2, h5⟩

theorem advances_iff {s : Session} (hf : (h.recv x).length = recvCap)
    (hs : h.mux x = some s) (hd : s.dead = false) (hq : s.q.count = 0) :
    Advances h.pump h.readLoop x ↔ ¬ Oversized (h.recv x) := by
  have hsnd := h.pump_snd x s hs
  rw [← muxParse_short_iff hf]
  constructor
  · intro ha hp
    obtain ⟨hsnd, hrecv, hmux⟩ := h.pump_short hs hd hq hp
    rcases ha with ⟨n, hn⟩ | ha | ha
    · rw [hsnd] at hn
      cases hn
    · have := ha []
      rw [h.readLoop_stuck hf.ge hsnd] at this
      cases this
    · -- the next round finds what this one found
      have hsnd' := (h.pump_short hmux hd hq (hrecv.symm ▸ hp)).1
      have := ha []
      rw [h.readLoop_stuck (by rw [hrecv]; exact hf.ge) hsnd'] at this
      cases this
  · intro hp
    have hfed : muxRecv s (h.recv x)
        = ((recvLoop (h.recv x).length s (h.recv x)).1,
          .ok (recvLoop (h.recv x).length s (h.recv x)).2) := by
      rw [muxRecv, if_neg (by simp [hd])]
    rcases h0 : (recvLoop (h.recv x).length s (h.recv x)).2 with _ | n
    · rcases Host.recvLoop_stop (by rw [hq]; decide) le_rfl h0 with hdead | ⟨-, hshort⟩
      · -- the session is dead, so the next `mux_recv` fails
        obtain ⟨hrecv, hkept⟩ := h.pump_kept x s hs
        dsimp only at hrecv
        obtain ⟨s', hs', hd'⟩ := hkept _ rfl (by rw [hfed]; exact hdead)
        refine .inr (.inr fun as => h.readLoop_error ?_ (e := .state) ?_)
        · rw [hrecv]
          simp only [Inlet.fed, hfed, h0, accepted, Except.toOption, getD_some, drop_zero]
          exact hf.ge
        · rw [h.pump_snd _ s' hs', muxRecv, if_pos hd']
      · exact absurd hshort hp
    · exact .inl ⟨n, by rw [hsnd, hfed, h0]⟩

theorem readLoop_single {b : Bytes} {n : ℕ}
    (hx : h.recv x = []) (hb : b ≠ []) (hlt : b.length < recvCap)
    (hp : (h.pump (h.stash x b)).2 = .ok n) :
    h.readLoop [.bytes b] x = ((h.pump (h.stash x b)).1, true) := by
  have hm : h.makeRoom x = (x, none) := by
    unfold makeRoom
    rw [hx, if_pos (by decide)]
  have htake : b.take recvCap = b := take_of_length_le hlt.le
  unfold readLoop
  rw [hm]
  dsimp only
  rw [hx, length_nil, Nat.sub_zero, htake, if_neg hb]
  rcases hr : h.pump (h.stash x b) with ⟨y, r⟩
  rw [hr] at hp
  dsimp only at hp
  subst hp
  dsimp only
  rw [if_pos hlt]

end ReadHost

/-! ### The client library -/

theorem muxNextEvent_idle {s : Session} (hq : s.q.count = 0) : (muxNextEvent s).2 = none := by
  unfold muxNextEvent
  rcases hp : s.q.pop with _ | ⟨e, q⟩
  · rfl
  · have := congrArg length (RingQueue.pop_some hp)
    rw [RingQueue.length_toList, hq] at this
    simp at this

theorem Inlet.Kept.iterate {σ : Type} {inlet : σ → Inlet} {g : σ → σ}
    (hg : ∀ x, (inlet x).Kept (inlet (g x))) : ∀ (n : ℕ) (x : σ), (inlet x).Kept (inlet (g^[n] x))
  | 0, _ => .refl _
  | n + 1, x => (hg x).trans (Inlet.Kept.iterate hg n (g x))

namespace LpClient

variable {c : LpClient} (hmac : Hmac)

def inlet (c : LpClient) : Inlet := ⟨c.recv, c.mux⟩

theorem inlet_aloof : Aloof inlet := fun _ _ _ _ _ _ _ _ _ => rfl

theorem onOpened_inlet (c : LpClient) (sid m) : (c.onOpened sid m).inlet = c.inlet := by
  unfold onOpened
  dsimp only
  rw [inlet_aloof.notifyRaise]
  unfold regPut
  split
  · rfl
  · rfl

/-- The handlers of the client call the session, and leave its buffer. -/
theorem onEvent_worked (c : LpClient) (ev) : c.inlet.Worked (c.onEvent hmac ev).inlet := by
  have hsame : ∀ {c' : LpClient}, c'.inlet = c.inlet → c.inlet.Worked c'.inlet :=
    fun h => h ▸ .refl _
  cases ev with
  | peerHello _ _ _ _ auth nonce =>
    simp only [onEvent, onPeerHello]
    split
    · exact .refl _
    · split
      · exact .refl _
      · exact .call c.inlet trivial trivial
  | opened sid m => exact hsame (onOpened_inlet c sid m)
  | data sid b =>
    simp only [onEvent]
    split
    · exact .refl _
    · exact hsame inlet_aloof.readyMark
  | closed sid =>
    simp only [onEvent]
    split
    · exact .refl _
    · exact hsame (inlet_aloof.streamTryFree.trans inlet_aloof.readyMark)
  | reset sid code =>
    simp only [onEvent]
    split
    · exact .refl _
    · exact hsame (inlet_aloof.streamTryFree.trans inlet_aloof.readyMark)
  | writable sid =>
    simp only [onEvent]
    split
    · exact .refl _
    · unfold onWritable
      split
      · exact hsame inlet_aloof.pendingPush
      · exact .refl _
  | capacity | goaway | fatal => exact .refl _

theorem nextEvent_kept (c : LpClient) : c.inlet.Kept (c.nextEvent hmac).inlet := by
  unfold nextEvent
  split
  · exact .refl _
  · exact (Inlet.Kept.call c.inlet .nextEvent).trans (onEvent_worked hmac _ _).kept

theorem nextEvent_idle {s : Session} (hs : c.mux = some s) (hq : s.q.count = 0) :
    c.nextEvent hmac = c := by
  rw [nextEvent, hs, bind_some, muxNextEvent_idle hq]

/-- The loop of `tunnel_read` in `libpeer.c`. -/
def reader : ReadHost LpClient where
  toReader := tunnelReader hmac
  mux := mux
  stash_recv _ _ := rfl
  stash_mux _ _ := rfl
  pump_none c hc := by
    simp only [tunnelReader, tunnelPump, show c.mux = none from hc]
    exact ⟨_, rfl⟩
  pump_snd c s hc := by
    simp only [tunnelReader, tunnelPump, show c.mux = some s from hc]
  pump_kept c s hc := by
    replace hc : c.mux = some s := hc
    have hk := Inlet.Kept.iterate (nextEvent_kept hmac) (c.call (.recv c.recv)).eventsLeft
      (c.call (.recv c.recv))
    have hcall : (c.call (.recv c.recv)).inlet = ⟨c.recv, some (muxRecv s c.recv).1⟩ := by
      rw [call, hc]
      rfl
    rw [hcall] at hk
    change (c.inlet.fed s).Kept (c.tunnelPump hmac).1.inlet
    simp only [tunnelPump, hc]
    exact ⟨congrArg (List.drop _) hk.1, hk.2⟩
  pump_idle c s hc hq := by
    replace hc : c.mux = some s := hc
    have hcall : (c.call (.recv c.recv)).mux = some (muxRecv s c.recv).1 := by
      rw [call, hc]
      rfl
    change (c.tunnelPump hmac).1.inlet = c.inlet.fed s
    simp only [tunnelPump, hc, handleEvents]
    rw [Function.iterate_fixed (nextEvent_idle hmac hcall hq)]
    simp only [inlet, hcall]
    rfl

theorem tunnelRead_eq (as) (c : LpClient) : tunnelRead hmac as c = (reader hmac).readLoop as c :=
  rfl

end LpClient

/-! ### The relay -/

namespace Relay

variable {r r' : Relay} (hmac : Hmac)

def inlet (r : Relay) : Inlet := ⟨r.recv, some r.mux⟩

theorem inlet_connAlloc (r : Relay) (c) : (r.connAlloc c).1.inlet = r.inlet := by
  unfold connAlloc
  split
  · rfl
  · rfl

/-- Only what the tunnel brings changes the buffer. -/
theorem Deed.kept {a} (h : Deed r a r') (ha : a ≠ .stash) : r.inlet.Kept r'.inlet := by
  have hcall : ∀ (r : Relay) (a), r.inlet.Kept (r.call a).inlet := fun r a => .call r.inlet a
  cases h with
  | stash => exact absurd rfl ha
  | note | pause | shut | unblock | connected => exact .refl _
  | call => exact hcall r _
  | skip | stray | data | closed => exact hcall r .nextEvent
  | drain => exact hcall r (.consume _ _)
  | pass | stick | input => exact hcall r (.write _ _)
  | fin | eof => exact hcall r (.close _)
  | busy => exact hcall r (.open _)
  | refuse => exact (hcall r .nextEvent).trans (hcall (r.call .nextEvent) _)
  | dial =>
    exact (hcall r .nextEvent).trans ((inlet_connAlloc (r.call .nextEvent) _).symm ▸ .refl _)
  | @accept _ peer =>
    exact (hcall r (.open peer)).trans ((inlet_connAlloc (r.call (.open peer)) _).symm ▸ .refl _)
  | reset _ _ hc =>
    obtain ⟨n, p, heq⟩ := giveUp_eq (r := r.call .nextEvent) hc
    exact heq ▸ hcall r .nextEvent
  | @broken _ c b _ hc =>
    obtain ⟨n, p, heq⟩ := giveUp_eq (r := r.call (.write c.sid b)) hc
    exact heq ▸ hcall r (.write _ _)
  | @kill _ c hc =>
    obtain ⟨n, p, heq⟩ := giveUp_eq (r := r.call (.reset c.sid muxCodeInternal)) hc
    exact heq ▸ hcall r (.reset _ _)
  | fail hc =>
    obtain ⟨n, p, heq⟩ := giveUp_eq hc
    exact heq ▸ .refl _
  | done hc =>
    obtain ⟨n, p, heq⟩ := connDestroy_eq hc
    exact heq ▸ .refl _

theorem nextEvent_kept (r : Relay) (a) : r.inlet.Kept (r.nextEvent hmac a).inlet := by
  unfold nextEvent
  split
  · exact .refl _
  · rename_i ev hf
    refine (onEvent_deeds (t := anyhow) hmac hf ⟨rfl, nofun⟩ a).inv
      (I := fun r' => r.inlet.Kept r'.inlet) (.refl _) fun _ _ _ h hfit hd => h.trans (hd.kept ?_)
    rintro rfl
    cases hfit

theorem nextEvent_idle (a) (hq : r.mux.q.count = 0) : r.nextEvent hmac a = r := by
  rw [nextEvent, muxNextEvent_idle hq]

/-- The loop of `tunnel_read` in `relay.c`. -/
def reader (ans : ℕ → EventAnswer) : ReadHost Relay where
  toReader := tunnelReader hmac ans
  mux r := some r.mux
  stash_recv _ _ := rfl
  stash_mux _ _ := rfl
  pump_none r hr := by cases hr
  pump_snd r s hr := by
    obtain rfl : r.mux = s := Option.some.inj hr
    rfl
  pump_kept r s hr := by
    obtain rfl : r.mux = s := Option.some.inj hr
    have hk := Inlet.Kept.iterate (fun r : Relay => nextEvent_kept hmac r (ans r.mux.popped.length))
      (r.call (.recv r.recv)).eventsLeft (r.call (.recv r.recv))
    exact ⟨congrArg (List.drop _) hk.1, hk.2⟩
  pump_idle r s hr hq := by
    obtain rfl : r.mux = s := Option.some.inj hr
    change (r.pumpRecv hmac ans).1.inlet = r.inlet.fed r.mux
    simp only [pumpRecv, handleEvents]
    rw [Function.iterate_fixed (nextEvent_idle hmac _ hq)]
    rfl

end Relay

/-! ### The router -/

namespace Router

variable {ne nw : ℕ} {e e' : Router ne nw} {t : Tunnel ne nw} (hmac : Hmac)

def inlet (t : Tunnel ne nw) (e : Router ne nw) : Inlet := ⟨(e.conn t).recv, (e.conn t).mux⟩

/-- This of every tunnel. -/
def Kept (e e' : Router ne nw) : Prop := ∀ t, (e.inlet t).Kept (e'.inlet t)

theorem Kept.refl (e : Router ne nw) : e.Kept e := fun _ => .refl _

theorem Kept.trans {e''} (h : e.Kept e') (h' : e'.Kept e'') : e.Kept e'' :=
  fun t => (h t).trans (h' t)

theorem Kept.call (e : Router ne nw) (t a) : e.Kept (e.call t a) := by
  intro t'
  by_cases ht : t' = t
  · subst ht
    have h : (e.call t' a).inlet t' = ⟨(e.inlet t').recv, (e.inlet t').mux.map (·.call a)⟩ := by
      unfold inlet
      rw [call_mux_self, call_field e t' a recv fun _ _ _ => rfl]
    exact h ▸ .call _ a
  · rw [inlet, inlet, call_of_ne _ _ _ ht]
    exact .refl _

theorem kept_of_field (hb : ∀ t, (e'.conn t).recv = (e.conn t).recv)
    (hm : ∀ t, (e'.conn t).mux = (e.conn t).mux) : e.Kept e' := by
  intro t
  rw [inlet, inlet, hb, hm]
  exact .refl _

theorem routeFree_kept (e : Router ne nw) (p : ℕ) : e.Kept (e.routeFree p) :=
  kept_of_field (routeFree_field e recv fun _ _ _ => rfl) fun _ => routeFree_mux ..

theorem Edit.kept (h : Edit e e') : e.Kept e' := by
  cases h with
  | call t => exact .call e t _
  | minor h hb => exact kept_of_field hb h.mux
  | set => exact .refl e
  | drop | free => exact routeFree_kept _ _

theorem Edits.kept (h : Edits e e') : e.Kept e' := by
  induction h with
  | refl => exact .refl e
  | tail _ h ih => exact ih.trans h.kept

theorem Handled.kept {hmac} {ev : Event} (h : Handled hmac e t ev e') : e.Kept e' := by
  cases h with
  | edits _ h => exact h.kept
  | greet _ _ h hb => exact kept_of_field hb h.mux
  | refuse => exact .call _ t _
  | route _ h =>
    exact h.kept.trans (kept_of_field (routeNew_field _ _ _ _ _ recv fun _ _ _ => rfl)
      fun _ => routeNew_mux ..)

theorem nextEvent_kept (e : Router ne nw) (t) : e.Kept (e.nextEvent hmac t) := by
  rcases nextEvent_cases hmac e t with heq | ⟨s, ev, -, -, heq⟩
  · rw [heq]
    exact .refl e
  · rw [heq]
    exact (Kept.call e t .nextEvent).trans (onEvent_handled hmac _ t ev).kept

theorem nextEvent_idle {s : Session} (hs : (e.conn t).mux = some s) (hq : s.q.count = 0) :
    e.nextEvent hmac t = e := by
  rw [nextEvent, hs, bind_some, muxNextEvent_idle hq]

theorem inlet_recv_modify (e : Router ne nw) (t : Tunnel ne nw) (g : Bytes → Bytes) :
    (e.modify t fun c => { c with recv := g c.recv }).inlet t
      = ⟨g (e.inlet t).recv, (e.inlet t).mux⟩ := by
  rw [inlet, modify_self]
  rfl

/-- The loop of `conn_read`, over a tunnel. -/
def reader (t : Tunnel ne nw) : ReadHost (Router ne nw) where
  toReader := connReader hmac t
  mux e := (e.conn t).mux
  stash_recv e b := congrArg Inlet.recv (inlet_recv_modify e t (· ++ b))
  stash_mux e b := congrArg Inlet.mux (inlet_recv_modify e t (· ++ b))
  pump_none e he := by
    simp only [connReader, connPump, show (e.conn t).mux = none from he]
    exact ⟨_, rfl⟩
  pump_snd e s he := by
    simp only [connReader, connPump, show (e.conn t).mux = some s from he]
  pump_kept e s he := by
    replace he : (e.conn t).mux = some s := he
    have hk := Inlet.Kept.iterate (fun e => nextEvent_kept hmac e t t)
      ((e.call t (.recv (e.conn t).recv)).eventsLeft t) (e.call t (.recv (e.conn t).recv))
    have hcall : (e.call t (.recv (e.conn t).recv)).inlet t
        = ⟨(e.conn t).recv, some (muxRecv s (e.conn t).recv).1⟩ := by
      rw [inlet, call_mux_self, call_field e t _ EpConn.recv fun _ _ _ => rfl, he]
      rfl
    rw [hcall] at hk
    change ((e.inlet t).fed s).Kept ((e.connPump hmac t).1.inlet t)
    simp only [connPump, he]
    rw [inlet_recv_modify _ t (List.drop _)]
    exact ⟨congrArg (List.drop _) hk.1, hk.2⟩
  pump_idle e s he hq := by
    replace he : (e.conn t).mux = some s := he
    have hcall : (e.call t (.recv (e.conn t).recv)).inlet t
        = ⟨(e.conn t).recv, some (muxRecv s (e.conn t).recv).1⟩ := by
      rw [inlet, call_mux_self, call_field e t _ EpConn.recv fun _ _ _ => rfl, he]
      rfl
    change (e.connPump hmac t).1.inlet t = (e.inlet t).fed s
    simp only [connPump, he, onEvents]
    rw [Function.iterate_fixed (nextEvent_idle hmac (congrArg Inlet.mux hcall) hq),
      inlet_recv_modify _ t (List.drop _), hcall]
    rfl

theorem connRead_eq (t as) (e : Router ne nw) :
    connRead hmac t as e = (reader hmac t).readLoop as e := rfl

end Router

/-! ### No frame is left behind -/

/-- What each of the loops leaves in the buffer, where it goes on and the session lives, is no frame
exactly if its last `mux_recv` is not stopped by a full queue. -/
theorem frame_left_iff (hmac : Hmac) :
    (∀ (ans : ℕ → Relay.EventAnswer) (as : List ReadAnswer) (r : Relay),
      (r.tunnelRead hmac ans as).2 = true → (r.tunnelRead hmac ans as).1.mux.dead = false →
      (muxParse (r.tunnelRead hmac ans as).1.recv = .error .short
        ↔ (Relay.reader hmac ans).Clears as r))
    ∧ (∀ (ne nw : ℕ) (t : Tunnel ne nw) (as : List ReadAnswer) (e : Router ne nw) (s : Session),
      (e.connRead hmac t as).2 = true → ((e.connRead hmac t as).1.conn t).mux = some s →
      s.dead = false → (muxParse ((e.connRead hmac t as).1.conn t).recv = .error .short
        ↔ (Router.reader hmac t).Clears as e))
    ∧ ∀ (as : List ReadAnswer) (c : LpClient) (s : Session), (c.tunnelRead hmac as).2 = true →
      (c.tunnelRead hmac as).1.mux = some s → s.dead = false →
      (muxParse (c.tunnelRead hmac as).1.recv = .error .short
        ↔ (LpClient.reader hmac).Clears as c) := by
  refine ⟨fun ans as r hok hd => ?_, fun ne nw t as e s hok hs hd => ?_,
    fun as c s hok hs hd => ?_⟩
  · exact (Relay.reader hmac ans).readLoop_left hok rfl hd
  · exact (Router.reader hmac t).readLoop_left hok hs hd
  · exact (LpClient.reader hmac).readLoop_left hok hs hd

/-- A client whose tunnel has come up, and which has read the greeting. -/
def LpClient.greeted : LpClient :=
  ioLoop nullHmac (lpConnect { listens := true })
    { nonce := some zeroNonce
      pollIn := true
      reads := [.bytes (encode (helloFrame (initSession {} .dialer).toCore false))] }

theorem LpClient.greeted_spec : LpClient.greeted.recv = [] ∧ ∃ s, LpClient.greeted.mux = some s
    ∧ s.dead = false ∧ s.peerHelloSeen = true ∧ s.q.count = 0 := by
  have hfacts : LpClient.greeted.recv = []
      ∧ LpClient.greeted.mux.any (fun s => !s.dead && s.peerHelloSeen && s.q.count = 0) = true := by
    decide +kernel
  obtain ⟨hrecv, hmux⟩ := hfacts
  obtain ⟨hsome, hb⟩ := (any_eq_true_iff_get ..).1 hmux
  simp only [Bool.and_eq_true, Bool.not_eq_true', decide_eq_true_eq] at hb
  exact ⟨hrecv, _, (some_get hsome).symm, hb.1.1, hb.1.2, hb.2⟩

/-- The first five bytes of a SYN stay in the buffer. -/
theorem frame_left_iff_halfSyn :
    (LpClient.greeted.tunnelRead nullHmac [.bytes ((encode (synFrame 1 [])).take 5)]).1.recv
        = (encode (synFrame 1 [])).take 5
      ∧ (LpClient.reader nullHmac).Clears [.bytes ((encode (synFrame 1 [])).take 5)]
        LpClient.greeted := by
  have hmux : (LpClient.greeted.tunnelRead nullHmac
      [.bytes ((encode (synFrame 1 [])).take 5)]).1.mux.any (!·.dead) = true := by
    decide +kernel
  obtain ⟨hsome, hd⟩ := (Option.any_eq_true_iff_get ..).1 hmux
  have hiff := (frame_left_iff nullHmac).2.2 [.bytes ((encode (synFrame 1 [])).take 5)]
    LpClient.greeted _ (by decide +kernel) (Option.some_get hsome).symm (by simpa using hd)
  have hrecv : (LpClient.greeted.tunnelRead nullHmac
      [.bytes ((encode (synFrame 1 [])).take 5)]).1.recv = (encode (synFrame 1 [])).take 5 := by
    decide +kernel
  have hshort := muxParse_short (f := synFrame 1 []) ⟨rfl, Nat.zero_le _⟩ (List.take_prefix 5 _)
    (by decide +kernel)
  rw [hrecv] at hiff
  refine ⟨hrecv, ?_⟩
  rw [← hiff]
  exact hshort

section Flood

variable {s : Session} {w : UInt32}

/-- The session takes frames, and has reports of load in its queue only. -/
structure Loaded (s : Session) : Prop where
  alive : s.dead = false
  greeted : s.peerHelloSeen = true
  queue : ∀ ev ∈ s.q.toList, ∃ w, ev = .capacity w

theorem Loaded.processFrame (h : Loaded s) (w) : Loaded (processFrame s (capacityFrame w))
      ∧ (MuxProtocol.processFrame s (capacityFrame w)).q.count = s.q.count + 1 := by
  rw [Host.processFrame_capacity h.greeted]
  refine ⟨⟨h.alive, h.greeted, fun ev hev => ?_⟩, RingQueue.count_push _ _⟩
  rw [evqPush, RingQueue.toList_push] at hev
  rcases mem_append.1 hev with hev | hev
  · exact h.queue ev hev
  · exact ⟨w, mem_singleton.1 hev⟩

/-- Reports of load in one piece, as many as the queue has space for, and then more. -/
theorem recvLoop_flood (w rest) : ∀ (k n : ℕ) {s : Session}, Loaded s →
    s.q.count + k = muxEventQueueSoftCap →
    (encodeAll (replicate k (capacityFrame w)) ++ rest).length ≤ n →
    Loaded (recvLoop n s (encodeAll (replicate k (capacityFrame w)) ++ rest)).1
      ∧ (recvLoop n s (encodeAll (replicate k (capacityFrame w)) ++ rest)).2
        = (encodeAll (replicate k (capacityFrame w))).length
  | 0, n, s, h, hq, _ => by
    have hstop : recvLoop n s rest = (s, 0) := by
      cases n with
      | zero => rfl
      | succ n =>
        unfold recvLoop
        rw [if_pos (show s.q.count ≥ muxEventQueueSoftCap by omega)]
        split_ifs
        · rfl
        · rfl
    rw [replicate_zero, encodeAll_nil, nil_append, hstop]
    exact ⟨h, rfl⟩
  | k + 1, n, s, h, hq, hn => by
    rw [replicate_succ, encodeAll_cons, append_assoc] at hn ⊢
    have hpos := length_pos_of_ne_nil (encode_ne_nil (capacityFrame w))
    rw [length_append] at hn
    obtain ⟨m, rfl⟩ := Nat.exists_eq_succ_of_ne_zero (n := n) (by omega)
    obtain ⟨h1, h2⟩ := h.processFrame w
    have hp := muxParse_encode (Host.capacityFrame_sized w)
      (encodeAll (replicate k (capacityFrame w)) ++ rest)
    unfold recvLoop
    rw [if_neg (by simp [encode_ne_nil]), if_neg (by omega), hp]
    dsimp only
    rw [if_neg (by simp [h1.alive]), drop_left]
    obtain ⟨h3, h4⟩ := recvLoop_flood w rest k m h1 (by omega) (by omega)
    refine ⟨h3, ?_⟩
    dsimp only
    rw [h4, length_append]

theorem length_flood (w) (k : ℕ) :
    (encodeAll (replicate k (capacityFrame w))).length = k * 16 := by
  induction k with
  | zero => rfl
  | succ k ih =>
    rw [replicate_succ, encodeAll_cons, length_append, ih]
    have : (encode (capacityFrame w)).length = 16 := by
      rw [length_encode]
      rfl
    omega

theorem LpClient.nextEvent_loaded {c : LpClient} {hmac} (h : ∃ s, c.mux = some s ∧ Loaded s) :
    ∃ s, (c.nextEvent hmac).mux = some s ∧ Loaded s := by
  obtain ⟨s, hs, h⟩ := h
  rw [nextEvent, hs, bind_some]
  rcases hf : (muxNextEvent s).2 with _ | ev
  · exact ⟨s, hs, h⟩
  · obtain ⟨h1, h2⟩ := front_some hf
    obtain ⟨w, rfl⟩ := h.queue ev (h1 ▸ mem_cons_self)
    refine ⟨s.call .nextEvent, ?_, ?_, ?_, fun ev hev => h.queue ev (h1 ▸ mem_cons_of_mem _ hev)⟩
    · simp only [onEvent, call, hs, map_some]
    · rw [h2]
      exact h.alive
    · rw [h2]
      exact h.greeted

/-- Of one read the session takes `b`, and nothing but reports of load: the rest stays. -/
theorem LpClient.tunnelRead_loaded {c : LpClient} (hmac) (hrecv : c.recv = []) (hs : c.mux = some s)
    (hd : s.dead = false) {b rest : Bytes}
    (h1 : Loaded (recvLoop (b ++ rest).length s (b ++ rest)).1)
    (h2 : (recvLoop (b ++ rest).length s (b ++ rest)).2 = b.length)
    (hne : b ++ rest ≠ []) (hlen : (b ++ rest).length < recvCap) :
    ∃ c' s', c.tunnelRead hmac [.bytes (b ++ rest)] = (c', true)
      ∧ c'.mux = some s' ∧ s'.dead = false ∧ c'.recv = rest := by
  have hfed : muxRecv s (b ++ rest)
      = ((recvLoop (b ++ rest).length s (b ++ rest)).1, .ok b.length) := by
    rw [muxRecv, if_neg (by simp [hd]), ← h2]
  generalize (recvLoop (b ++ rest).length s (b ++ rest)).1 = s₁ at h1 hfed
  have hstash : (reader hmac).recv ((reader hmac).stash c (b ++ rest)) = b ++ rest := by
    rw [(reader hmac).stash_recv, show (reader hmac).recv c = [] from hrecv, nil_append]
  have hmux : (reader hmac).mux ((reader hmac).stash c (b ++ rest)) = some s := hs
  have hsnd := (reader hmac).pump_snd _ s hmux
  rw [hstash, hfed] at hsnd
  obtain ⟨hkept, -⟩ := (reader hmac).pump_kept _ s hmux
  simp only [Inlet.fed, hstash, hfed, accepted, Except.toOption, getD_some, drop_left] at hkept
  -- reports of load are taken and nothing comes of them
  have hload : ∃ s', ((reader hmac).pump ((reader hmac).stash c (b ++ rest))).1.mux = some s'
      ∧ Loaded s' := by
    have hiter : ∀ (n : ℕ) (c : LpClient), (∃ s, c.mux = some s ∧ Loaded s) →
        ∃ s, ((fun c => c.nextEvent hmac)^[n] c).mux = some s ∧ Loaded s := by
      intro n
      induction n with
      | zero => exact fun c h => h
      | succ n ih => exact fun c h => ih _ (nextEvent_loaded h)
    change ∃ s', (tunnelPump hmac { c with recv := c.recv ++ (b ++ rest) }).1.mux = some s'
      ∧ Loaded s'
    simp only [tunnelPump, hs, handleEvents]
    refine hiter _ _ ⟨s₁, ?_, h1⟩
    simp only [call, map_some, Session.call, hrecv, nil_append, hfed]
  obtain ⟨s', hs', hl'⟩ := hload
  refine ⟨_, s', ?_, hs', hl'.alive, hkept⟩
  exact (reader hmac).readLoop_single hrecv hne hlen hsnd

/-- One more report of load than the queue has space for, in one read. -/
theorem LpClient.tunnelRead_flood {c : LpClient} (hmac) (hrecv : c.recv = []) (hs : c.mux = some s)
    (hl : Loaded s) (hq : s.q.count = 0) (w) :
    ∃ c' s', c.tunnelRead hmac [.bytes (encodeAll (replicate muxEventQueueSoftCap
        (capacityFrame w)) ++ encode (capacityFrame w))] = (c', true)
      ∧ c'.mux = some s' ∧ s'.dead = false ∧ c'.recv = encode (capacityFrame w) := by
  obtain ⟨h1, h2⟩ := recvLoop_flood w (encode (capacityFrame w)) muxEventQueueSoftCap _ hl
    (by omega) le_rfl
  refine tunnelRead_loaded hmac hrecv hs hl.alive h1 h2 ?_ ?_
  · exact append_ne_nil_of_right_ne_nil _ (encode_ne_nil _)
  · rw [length_append, length_flood, length_encode,
      show (capacityFrame w).payload.length = 4 from rfl]
    decide

/-- The last of these frames stays in the buffer, and the client waits for more from the peer. -/
theorem frame_left_behind : ∃ c s, LpClient.greeted.tunnelRead nullHmac
        [.bytes (encodeAll (List.replicate muxEventQueueSoftCap (capacityFrame 0))
          ++ encode (capacityFrame 0))] = (c, true)
      ∧ c.mux = some s ∧ s.dead = false ∧ muxParse c.recv = .ok (capacityFrame 0, 16) := by
  obtain ⟨hrecv, s, hs, hd, hg, hq⟩ := LpClient.greeted_spec
  have hload : Loaded s := ⟨hd, hg, fun ev hev => by
    rw [List.length_eq_zero_iff.1 ((RingQueue.length_toList _).trans hq)] at hev
    cases hev⟩
  obtain ⟨c, s', h1, h2, h3, h4⟩ := LpClient.tunnelRead_flood nullHmac hrecv hs hload hq 0
  refine ⟨c, s', h1, h2, h3, ?_⟩
  have hp := muxParse_encode (Host.capacityFrame_sized 0) []
  rw [List.append_nil] at hp
  rw [h4, hp]
  rfl

end Flood

/-! ### No loop is stuck -/

/-- With the buffer full and no event to be taken, each of the loops goes on exactly if the frame at
the front fits. -/
theorem read_loop_advances_iff (hmac : Hmac) :
    (∀ (ans : ℕ → Relay.EventAnswer) (r : Relay), r.recv.length = recvCap → r.mux.dead = false →
      r.mux.q.count = 0 →
      (ReadHost.Advances (Relay.pumpRecv hmac · ans) (Relay.tunnelRead hmac ans) r
        ↔ ¬ ReadHost.Oversized r.recv))
    ∧ (∀ (ne nw : ℕ) (t : Tunnel ne nw) (e : Router ne nw) (s : Session),
      (e.conn t).recv.length = recvCap → (e.conn t).mux = some s → s.dead = false → s.q.count = 0 →
      (ReadHost.Advances (Router.connPump hmac · t) (Router.connRead hmac t) e
        ↔ ¬ ReadHost.Oversized (e.conn t).recv))
    ∧ ∀ (c : LpClient) (s : Session), c.recv.length = recvCap → c.mux = some s → s.dead = false →
      s.q.count = 0 → (ReadHost.Advances (LpClient.tunnelPump hmac) (LpClient.tunnelRead hmac) c
        ↔ ¬ ReadHost.Oversized c.recv) := by
  refine ⟨fun ans r hf hd hq => ?_, fun ne nw t e s hf hs hd hq => ?_, fun c s hf hs hd hq => ?_⟩
  · exact (Relay.reader hmac ans).advances_iff hf rfl hd hq
  · exact (Router.reader hmac t).advances_iff hf hs hd hq
  · exact (LpClient.reader hmac).advances_iff hf hs hd hq

/-- A buffer full of zeros behind a SYN. -/
theorem read_loop_advances_iff_syn :
    ReadHost.Advances (LpClient.tunnelPump nullHmac) (LpClient.tunnelRead nullHmac)
      { LpClient.greeted with
        recv := encode (synFrame 1 []) ++ List.replicate (recvCap - 12) 0 } := by
  obtain ⟨-, s, hs, hd, -, hq⟩ := LpClient.greeted_spec
  generalize LpClient.greeted = c at hs ⊢
  have hlen : (encode (synFrame 1 []) ++ List.replicate (recvCap - 12) 0).length = recvCap := by
    rw [List.length_append, List.length_replicate]
    decide
  generalize hb : encode (synFrame 1 []) ++ List.replicate (recvCap - 12) 0 = b at hlen ⊢
  refine ((read_loop_advances_iff nullHmac).2.2 { c with recv := b } s hlen hs hd hq).2 ?_
  intro hno
  have hp := (ReadHost.muxParse_short_iff hlen).2 hno
  rw [← hb, muxParse_encode ⟨rfl, Nat.zero_le _⟩] at hp
  cases hp

theorem muxParse_take {n m : ℕ} (hm : m < muxHeaderSize + n) (hn : n ≤ muxMaxPayload) :
    ((encode ⟨muxVersion, muxTData, 0, 1, replicate n 0⟩).take m).length = m
      ∧ muxParse ((encode ⟨muxVersion, muxTData, 0, 1, replicate n 0⟩).take m)
        = .error .short := by
  have hlen : (encode ⟨muxVersion, muxTData, 0, 1, replicate n 0⟩).length
      = muxHeaderSize + n := by
    rw [length_encode, length_replicate]
  have hb := length_take_of_le (hm.le.trans hlen.ge)
  refine ⟨hb, muxParse_short (f := ⟨muxVersion, muxTData, 0, 1, replicate n 0⟩) ⟨rfl, ?_⟩
    (List.take_prefix m _) (by rw [hb, hlen]; exact hm)⟩
  rwa [length_replicate]

/-- The beginning of a frame that fills the buffer is read, and then the loop does nothing. -/
theorem LpClient.tunnelRead_wedges {c : LpClient} {s b} (hmac) (hrecv : c.recv = [])
    (hs : c.mux = some s) (hd : s.dead = false) (hq : s.q.count = 0) (hb : b.length = recvCap)
    (hp : muxParse b = .error .short) :
    ∃ c', c.tunnelRead hmac [.bytes b] = (c', true) ∧ c'.recv = b ∧ c'.mux = some s
      ∧ ∀ as, (c'.tunnelRead hmac as).2 = true ∧ (c'.tunnelRead hmac as).1.recv = c'.recv
        ∧ (c'.tunnelRead hmac as).1.mux = c'.mux := by
  obtain ⟨h1, h2, h3⟩ : (c.tunnelRead hmac [.bytes b]).2 = true
      ∧ (c.tunnelRead hmac [.bytes b]).1.recv = b
      ∧ (c.tunnelRead hmac [.bytes b]).1.mux = some s :=
    (reader hmac).readLoop_fills hrecv hs hd hq hb hp
  refine ⟨_, Prod.ext rfl h1, h2, h3, fun as => ?_⟩
  obtain ⟨h4, h5, h6⟩ := (reader hmac).readLoop_wedged (s := s)
    ((congrArg length h2).trans hb) h3 hd hq ((congrArg muxParse h2).trans hp) as
  exact ⟨h4, h5, h3.symm ▸ h6⟩

/-- A DATA frame of 300000 bytes: the buffer is full, the loop says that all is well, and the buffer
stays as it is whenever the loop is called. -/
theorem read_loop_wedged : ∃ c s, LpClient.greeted.tunnelRead nullHmac
        [.bytes ((encode ⟨muxVersion, muxTData, 0, 1, List.replicate 300000 0⟩).take recvCap)]
          = (c, true)
      ∧ c.recv.length = recvCap ∧ c.mux = some s ∧ s.dead = false ∧ s.q.count = 0
      ∧ ∀ as, (c.tunnelRead nullHmac as).2 = true
        ∧ (c.tunnelRead nullHmac as).1.recv = c.recv
        ∧ (c.tunnelRead nullHmac as).1.mux = c.mux := by
  obtain ⟨hrecv, s, hs, hd, -, hq⟩ := LpClient.greeted_spec
  obtain ⟨hb, hp⟩ := muxParse_take (n := 300000) (m := recvCap) (by decide) (by decide)
  obtain ⟨c, h1, h2, h3, h4⟩ := LpClient.tunnelRead_wedges nullHmac hrecv hs hd hq hb hp
  exact ⟨c, s, h1, by rw [h2, hb], h3, hd, hq, h4⟩

end MuxProtocol
