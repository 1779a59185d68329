import MuxProtocol.Session

/-!
# Frames on the wire

A frame that is crafted is its encoding, and parsing the encoding gives the frame back whatever
follows it; of a strict prefix of an encoding the parser asks for more. What is parsed is in turn
what is crafted from the frame.
-/

namespace MuxProtocol

open List

section BigEndian

@[simp] theorem length_bePut16 (v) : (bePut16 v).length = 2 := rfl

@[simp] theorem length_bePut32 (v) : (bePut32 v).length = 4 := rfl

theorem beGet16_put (v : UInt16) :
    beGet16 (.ofNat (v.toNat / 2 ^ 8)) (.ofNat v.toNat) = v := by
  have := v.toNat_lt
  apply UInt16.toNat_inj.1
  simp only [beGet16, UInt16.toNat_ofNat', UInt8.toNat_ofNat']
  omega

theorem beGet32_ofNat {n : ℕ} (h : n < 2 ^ 32) :
    (beGet32 (.ofNat (n / 2 ^ 24)) (.ofNat (n / 2 ^ 16)) (.ofNat (n / 2 ^ 8)) (.ofNat n)).toNat
      = n := by
  simp only [beGet32, UInt32.toNat_ofNat', UInt8.toNat_ofNat']
  omega

theorem beGet32_put (v : UInt32) :
    beGet32 (.ofNat (v.toNat / 2 ^ 24)) (.ofNat (v.toNat / 2 ^ 16)) (.ofNat (v.toNat / 2 ^ 8))
      (.ofNat v.toNat) = v :=
  UInt32.toNat_inj.1 (beGet32_ofNat v.toNat_lt)

@[simp] theorem beLoad32_put' (v) : beLoad32 (bePut32 v) = v :=
  beGet32_put v

theorem bePut16_get (a b) : bePut16 (beGet16 a b) = [a, b] := by
  have ha := a.toNat_lt
  have hb := b.toNat_lt
  simp only [bePut16, beGet16, UInt16.toNat_ofNat', cons.injEq, and_true]
  constructor <;> rw [← UInt8.toNat_inj, UInt8.toNat_ofNat'] <;> omega

theorem bePut32_get (a b c d) : bePut32 (beGet32 a b c d) = [a, b, c, d] := by
  have ha := a.toNat_lt
  have hb := b.toNat_lt
  have hc := c.toNat_lt
  have hd := d.toNat_lt
  simp only [bePut32, beGet32, UInt32.toNat_ofNat', cons.injEq, and_true]
  refine ⟨?_, ?_, ?_, ?_⟩ <;> rw [← UInt8.toNat_inj, UInt8.toNat_ofNat'] <;> omega

end BigEndian

section Encode

/-- The bytes of a frame. -/
def encode (f : Frame) : Bytes :=
  f.ver :: f.type :: (bePut16 f.flags ++ bePut32 f.sid ++ bePut32 (.ofNat f.payload.length))
    ++ f.payload

/-- The frame can be on the wire. -/
def Frame.Sized (f : Frame) : Prop := f.ver = muxVersion ∧ f.payload.length ≤ muxMaxPayload

@[simp] theorem length_encode (f : Frame) :
    (encode f).length = muxHeaderSize + f.payload.length := by
  simp only [encode, bePut16, bePut32, muxHeaderSize, cons_append, nil_append, length_cons]
  omega

theorem encode_ne_nil (f) : encode f ≠ [] := by simp [encode]

theorem muxCraft_ok {cap : ℕ} {type flags sid} {payload : Bytes}
    (hp : payload.length ≤ muxMaxPayload) (hc : muxHeaderSize + payload.length ≤ cap) :
    muxCraft cap type flags sid payload = .ok (encode { type, flags, sid, payload }) := by
  unfold muxCraft muxCraftHeader
  rw [if_neg (by omega), if_neg (by omega), if_neg (by omega), if_neg (by omega)]
  rfl

theorem muxParse_header (f : Frame) (hv : f.ver = muxVersion)
    (hp : f.payload.length ≤ muxMaxPayload) (rest : Bytes) :
    muxParse (f.ver :: f.type :: (bePut16 f.flags ++ bePut32 f.sid
        ++ bePut32 (.ofNat f.payload.length)) ++ rest)
      = if rest.length < f.payload.length then .error .short
        else .ok ({ f with payload := rest.take f.payload.length },
          muxHeaderSize + f.payload.length) := by
  have hmax : muxMaxPayload < 2 ^ 32 := by decide
  have hlen : (UInt32.ofNat f.payload.length).toNat = f.payload.length := by
    rw [UInt32.toNat_ofNat']
    omega
  simp only [bePut16, bePut32, cons_append, nil_append, muxParse, beGet16_put,
    beGet32_put, hlen, beGet32_ofNat (hp.trans_lt hmax)]
  rw [if_neg (by simp [hv]), if_neg (by omega)]

theorem muxParse_encode {f : Frame} (hf : f.Sized) (rest) :
    muxParse (encode f ++ rest) = .ok (f, (encode f).length) := by
  rw [length_encode, encode, append_assoc, muxParse_header f hf.1 hf.2, if_neg (by simp)]
  simp

theorem muxParse_short {f : Frame} (hf : f.Sized) {b : Bytes} (hb : b <+: encode f)
    (hlt : b.length < (encode f).length) : muxParse b = .error .short := by
  obtain ⟨t, ht⟩ := hb
  rw [length_encode] at hlt
  by_cases h12 : b.length < 12
  · unfold muxParse
    split
    · simp only [length_cons] at h12
      omega
    · rfl
  · -- the header is there, so the length is known and what is missing is payload
    set hd := f.ver :: f.type :: (bePut16 f.flags ++ bePut32 f.sid
      ++ bePut32 (.ofNat f.payload.length)) with hhd
    have h12' : hd.length = 12 := rfl
    obtain ⟨p, rfl⟩ : hd <+: b := by
      have hpre : hd <+: encode f := ⟨f.payload, by simp [encode, hhd]⟩
      exact prefix_of_prefix_length_le hpre ⟨t, ht⟩ (by omega)
    rw [length_append, h12'] at hlt
    rw [hhd, muxParse_header f hf.1 hf.2, if_pos (by simp only [muxHeaderSize] at hlt; omega)]

/-- The bytes of a list of frames. -/
def encodeAll (fs : List Frame) : Bytes := fs.flatMap encode

@[simp] theorem encodeAll_nil : encodeAll [] = [] := rfl

@[simp] theorem encodeAll_cons (f fs) : encodeAll (f :: fs) = encode f ++ encodeAll fs := by
  simp [encodeAll]

@[simp] theorem encodeAll_append (fs gs) : encodeAll (fs ++ gs) = encodeAll fs ++ encodeAll gs := by
  simp [encodeAll]

end Encode

section Parse

variable {buf : Bytes} {f : Frame} {n : ℕ}

theorem muxParse_ok (h : muxParse buf = .ok (f, n)) :
    f.Sized ∧ n = (encode f).length ∧ buf = encode f ++ buf.drop n := by
  unfold muxParse at h
  split at h
  · rename_i ver type f₀ f₁ s₀ s₁ s₂ s₃ l₀ l₁ l₂ l₃ rest
    have hhdr : bePut32 (.ofNat (beGet32 l₀ l₁ l₂ l₃).toNat) = [l₀, l₁, l₂, l₃] := by
      rw [UInt32.ofNat_toNat, bePut32_get]
    generalize (beGet32 l₀ l₁ l₂ l₃).toNat = k at h hhdr
    dsimp only at h
    split_ifs at h with h1 h2 h3
    rw [Except.ok.injEq, Prod.mk.injEq] at h
    obtain ⟨rfl, rfl⟩ := h
    rw [not_not] at h1
    have hlen : (rest.take k).length = k := by
      rw [length_take, Nat.min_eq_left (Nat.not_lt.1 h3)]
    refine ⟨⟨h1, hlen.trans_le (Nat.not_lt.1 h2)⟩, by rw [length_encode, hlen], ?_⟩
    rw [encode]
    dsimp only
    rw [hlen, hhdr, bePut16_get, bePut32_get, ← drop_drop]
    change _ = _ ++ drop k rest
    rw [append_assoc, take_append_drop]
    rfl
  · cases h

theorem muxParse_append (h : muxParse buf = .ok (f, n)) (r) : muxParse (buf ++ r) = .ok (f, n) := by
  obtain ⟨hs, rfl, hb⟩ := muxParse_ok h
  rw [hb, append_assoc]
  exact muxParse_encode hs _

theorem muxParse_error_append {e} (h : muxParse buf = .error e) (he : e ≠ .short) (r) :
    muxParse (buf ++ r) = .error e := by
  unfold muxParse at h
  split at h
  · dsimp only at h
    simp only [cons_append, muxParse]
    split_ifs at h with h1 h2 h3
    · rw [if_pos h1]
      exact h
    · rw [if_neg h1, if_pos h2]
      exact h
    · cases h
      exact absurd rfl he
  · cases h
    exact absurd rfl he

end Parse

section Drain

/-- The loop of `mux_parse` over a buffer: the frames, the error that ends it and the bytes left. A
frame takes at least 12 bytes, so more rounds than there are bytes are enough. -/
def drain : ℕ → Bytes → Option (List Frame × MuxErr × Bytes)
  | 0, _ => none
  | n + 1, buf =>
    match muxParse buf with
    | .error e => some ([], e, buf)
    | .ok (f, used) => (drain n (buf.drop used)).map fun r => (f :: r.1, r.2)

def drainLoop (buf : Bytes) : Option (List Frame × MuxErr × Bytes) := drain (buf.length + 1) buf

/-- `mux_craft` of the fields of a frame gives `b`. -/
def Frame.Crafted (f : Frame) (b : Bytes) : Prop :=
  ∃ cap, muxCraft cap f.type f.flags f.sid f.payload = .ok b

theorem Frame.Sized.crafted {f : Frame} (hf : f.Sized) {cap : ℕ} (hc : (encode f).length ≤ cap) :
    muxCraft cap f.type f.flags f.sid f.payload = .ok (encode f) := by
  rw [length_encode] at hc
  rw [muxCraft_ok hf.2 hc, ← hf.1]

/-- What is crafted is the encoding of a frame that can be on the wire. -/
theorem Frame.Crafted.eq {f : Frame} (hv : f.ver = muxVersion) {b} (h : f.Crafted b) :
    f.Sized ∧ b = encode f := by
  obtain ⟨cap, h⟩ := h
  by_cases hp : f.payload.length ≤ muxMaxPayload
  · by_cases hc : muxHeaderSize + f.payload.length ≤ cap
    · rw [Frame.Sized.crafted ⟨hv, hp⟩ (by rwa [length_encode])] at h
      exact ⟨⟨hv, hp⟩, (Except.ok.inj h).symm⟩
    · rw [muxCraft, if_neg (by omega), if_pos (by omega)] at h
      cases h
  · rw [muxCraft, if_pos (by omega)] at h
    cases h

theorem drain_encodeAll {rest} (hrest : muxParse rest = .error .short) :
    ∀ (fs : List Frame) (n : ℕ), (∀ f ∈ fs, f.Sized) → fs.length < n →
      drain n (encodeAll fs ++ rest) = some (fs, .short, rest)
  | [], n + 1, _, _ => by simp [drain, hrest]
  | f :: fs, n + 1, hfs, hn => by
    have ih := drain_encodeAll hrest fs n (fun g hg => hfs g (.tail _ hg))
      (Nat.lt_of_succ_lt_succ hn)
    rw [drain, encodeAll_cons, append_assoc, muxParse_encode (hfs f (.head _))]
    dsimp only
    rw [drop_left, ih]
    rfl

theorem length_le_encodeAll (fs : List Frame) : fs.length ≤ (encodeAll fs).length := by
  induction fs with
  | nil => exact Nat.le_refl 0
  | cons f fs ih =>
    rw [encodeAll_cons, length_append, length_encode, length_cons, muxHeaderSize]
    omega

theorem flatten_crafted {fs} {bs : List Bytes} (hv : ∀ f ∈ fs, f.ver = muxVersion)
    (h : List.Forall₂ Frame.Crafted fs bs) : (∀ f ∈ fs, f.Sized) ∧ bs.flatten = encodeAll fs := by
  induction h with
  | nil => simp
  | cons hf _ ih =>
    obtain ⟨hs, rfl⟩ := hf.eq (hv _ (.head _))
    obtain ⟨ih₁, ih₂⟩ := ih fun g hg => hv g (.tail _ hg)
    exact ⟨forall_mem_cons.2 ⟨hs, ih₁⟩, by rw [flatten_cons, ih₂, encodeAll_cons]⟩

/-- Frames crafted one after the other and then the start of another: the loop takes the frames and
waits for the rest. -/
theorem drainLoop_crafted {fs} {bs : List Bytes} {g : Frame} {b p}
    (hv : ∀ f ∈ g :: fs, f.ver = muxVersion) (h : List.Forall₂ Frame.Crafted fs bs)
    (hg : g.Crafted b) (hp : p <+: b) (hne : p ≠ b) :
    drainLoop (bs.flatten ++ p) = some (fs, .short, p) := by
  obtain ⟨hs, hflat⟩ := flatten_crafted (fun f hf => hv f (.tail _ hf)) h
  obtain ⟨hgs, rfl⟩ := hg.eq (hv g (.head _))
  have hlt : p.length < (encode g).length :=
    lt_of_le_of_ne hp.length_le fun heq => hne (hp.eq_of_length heq)
  have hlen := length_le_encodeAll fs
  rw [hflat]
  exact drain_encodeAll (muxParse_short hgs hp hlt) fs _ hs
    (by rw [length_append]; omega)

/-- The parser and `mux_craft` are inverse of each other, over lists of frames and over any bytes,
and what the parser has decided it does not take back. -/
theorem codec_bijection :
    (∀ fs : List Frame, (∀ f ∈ fs, f.Sized) → List.Forall₂ Frame.Crafted fs (fs.map encode)) ∧
    (∀ (fs : List Frame) (bs : List Bytes) (g : Frame) (b p : Bytes),
      (∀ f ∈ g :: fs, f.ver = muxVersion) → List.Forall₂ Frame.Crafted fs bs → g.Crafted b →
      p <+: b → p ≠ b → drainLoop (bs.flatten ++ p) = some (fs, .short, p)) ∧
    (∀ (buf : Bytes) (f : Frame) (c : ℕ), muxParse buf = .ok (f, c) →
      12 ≤ c ∧ c ≤ buf.length ∧
      ∀ cap, c ≤ cap → muxCraft cap f.type f.flags f.sid f.payload = .ok (buf.take c)) ∧
    (∀ (buf r : Bytes), muxParse buf ≠ .error .short → muxParse (buf ++ r) = muxParse buf) := by
  refine ⟨fun fs hfs => ?_, fun fs bs g b p hv h hg hp hne => drainLoop_crafted hv h hg hp hne,
    fun buf f c h => ?_, fun buf r h => ?_⟩
  · rw [List.forall₂_map_right_iff, List.forall₂_same]
    exact fun f hf => ⟨_, (hfs f hf).crafted (Nat.le_refl _)⟩
  · obtain ⟨hs, rfl, hb⟩ := muxParse_ok h
    have hlen := congrArg List.length hb
    rw [List.length_append] at hlen
    refine ⟨by rw [length_encode, muxHeaderSize]; omega, by omega, fun cap hcap => ?_⟩
    have htake : buf.take (encode f).length = encode f := by
      rw [hb, List.take_left]
    rw [htake, hs.crafted hcap]
  · match hp : muxParse buf with
    | .ok (f, n) => exact muxParse_append hp r
    | .error e =>
      rw [hp, ne_eq, Except.error.injEq] at h
      exact muxParse_error_append hp h r

theorem codec_bijection_synPing :
    let syn : Frame := { type := muxTData, flags := muxFSyn, sid := 1, payload := [0xaa] }
    let ping : Frame := { type := muxTPing, flags := 0, sid := muxSidControl, payload := [] }
    drainLoop ([encode syn, encode ping].flatten ++ (encode syn).take 12)
        = some ([syn, ping], .short, (encode syn).take 12)
      ∧ muxCraft 13 syn.type syn.flags syn.sid syn.payload
        = .ok ((encode syn ++ encode ping).take 13)
      ∧ muxParse (encode syn ++ encode ping) = muxParse (encode syn) := by
  intro syn ping
  refine ⟨codec_bijection.2.1 [syn, ping] _ syn (encode syn) _ (by decide)
    (codec_bijection.1 [syn, ping] (by unfold Frame.Sized; decide)) ⟨13, by decide⟩
    (List.take_prefix _ _) (by decide),
    (codec_bijection.2.2.1 (encode syn ++ encode ping) syn 13 (by decide)).2.2 13 (by decide),
    codec_bijection.2.2.2 (encode syn) (encode ping) (by decide)⟩

end Drain

end MuxProtocol
