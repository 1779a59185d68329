import Mathlib.Data.List.GetD
import MuxProtocol.Auth
import MuxProtocol.Lib.Sha256

/-!
# SHA-256 and HMAC are the standard ones

A context is what `BlockHash.absorb` makes of all bytes passed to `sha256_update` so far, whatever
the pieces; so the bytes that `sha256_final` adds complete the padded message of the standard, and
its blocks have been compressed one after the other.
-/

namespace MuxProtocol

open List

open BlockHash (absorb block)
open Fips180 (beBytes beNat rotr primes)

/-! ### A block -/

theorem ror_eq_rotr (x) {n : ℕ} (hn : 0 < n) (hn' : n < 32) : ror x (.ofNat n) = rotr n x := by
  -- the difference of machine words, by which the source shifts to the left
  have hleft : (4294967296 - n % 4294967296) % 32 = 32 - n := by omega
  apply UInt32.toBitVec_inj.1
  calc (ror x (.ofNat n)).toBitVec = x.toBitVec >>> n ||| x.toBitVec <<< (32 - n) := by
        simp [ror, Nat.mod_eq_of_lt hn', hleft]
    _ = (rotr n x).toBitVec := by
        rw [rotr, BitVec.rotateRight, Nat.mod_eq_of_lt hn']
        rfl

theorem or_eq_add {x y i : ℕ} (hx : 2 ^ i ∣ x) (hy : y < 2 ^ i) : x ||| y = x + y := by
  obtain ⟨z, rfl⟩ := hx
  rw [Nat.mul_comm, ← Nat.shiftLeft_eq, Nat.shiftLeft_add_eq_or_of_lt hy]

theorem load_eq (a b c d : UInt8) :
    a.toUInt32 <<< 24 ||| b.toUInt32 <<< 16 ||| c.toUInt32 <<< 8 ||| d.toUInt32
      = .ofNat (beNat [a, b, c, d]) := by
  have ha := a.toNat_lt
  have hb := b.toNat_lt
  have hc := c.toNat_lt
  have hd := d.toNat_lt
  have h1 : a.toNat * 2 ^ 24 ||| b.toNat * 2 ^ 16 = a.toNat * 2 ^ 24 + b.toNat * 2 ^ 16 :=
    or_eq_add (i := 24) (by omega) (by omega)
  have h2 : a.toNat * 2 ^ 24 + b.toNat * 2 ^ 16 ||| c.toNat * 2 ^ 8
      = a.toNat * 2 ^ 24 + b.toNat * 2 ^ 16 + c.toNat * 2 ^ 8 :=
    or_eq_add (i := 16) (by omega) (by omega)
  have h3 : a.toNat * 2 ^ 24 + b.toNat * 2 ^ 16 + c.toNat * 2 ^ 8 ||| d.toNat
      = a.toNat * 2 ^ 24 + b.toNat * 2 ^ 16 + c.toNat * 2 ^ 8 + d.toNat :=
    or_eq_add (i := 8) (by omega) (by omega)
  have hshift : ∀ {x i : ℕ}, x < 2 ^ 8 → i ≤ 24 → x <<< i % 2 ^ 32 = x * 2 ^ i := by
    intro x i hx hi
    rw [Nat.shiftLeft_eq, Nat.mod_eq_of_lt]
    calc x * 2 ^ i < 2 ^ 8 * 2 ^ i := Nat.mul_lt_mul_of_pos_right hx (Nat.two_pow_pos i)
      _ ≤ 2 ^ 8 * 2 ^ 24 := Nat.mul_le_mul_left _ (Nat.pow_le_pow_right (by decide) hi)
  apply UInt32.toNat_inj.1
  simp only [UInt32.toNat_or, UInt32.toNat_shiftLeft, UInt8.toNat_toUInt32, UInt32.reduceToNat,
    Nat.reduceMod, UInt32.toNat_ofNat', beNat, foldl_cons, foldl_nil]
  rw [hshift ha (by decide), hshift hb (by decide), hshift hc (by decide), h1, h2, h3]
  omega

/-- The word `i` of a block. -/
def blockWord (p : Bytes) (i : ℕ) : UInt32 := .ofNat (beNat (block 4 p i))

theorem block_four {p : Bytes} {i : ℕ} (h : i * 4 + 4 ≤ p.length) : block 4 p i =
    [p.getD (i * 4) 0, p.getD (i * 4 + 1) 0, p.getD (i * 4 + 2) 0, p.getD (i * 4 + 3) 0] := by
  have hcons : ∀ {j : ℕ}, j < p.length → p.drop j = p.getD j 0 :: p.drop (j + 1) := by
    intro j hj
    rw [drop_eq_getElem_cons hj, getD_eq_getElem _ _ hj]
  rw [block, Nat.mul_comm, hcons (by omega), hcons (by omega), hcons (by omega), hcons (by omega)]
  rfl

theorem sha256Load_eq {p : Bytes} (h : p.length = 64) :
    sha256Load p = (range 16).map (Fips180.schedule (blockWord p)) := by
  refine map_congr_left fun i hi => ?_
  have hi := mem_range.1 hi
  rw [load_eq, Fips180.schedule, if_pos hi, blockWord, block_four (by omega)]

theorem getD_map_range {α : Type*} {f} {n i : ℕ} {d : α} (h : i < n) :
    ((range n).map f).getD i d = f i := by
  simp [getD, h]

theorem sha256Expand_eq {m} {n : ℕ} (h : 16 ≤ n) :
    sha256Expand ((range n).map (Fips180.schedule m)) n
      = (range (n + 1)).map (Fips180.schedule m) := by
  have hs : Fips180.schedule m n = Fips180.schedule m (n - 16)
      + Fips180.smallSigma₀ (Fips180.schedule m (n - 15)) + Fips180.schedule m (n - 7)
      + Fips180.smallSigma₁ (Fips180.schedule m (n - 2)) := by
    conv_lhs => rw [Fips180.schedule, if_neg (by omega)]
    ac_rfl
  have h0 : ∀ x : UInt32, ror x 7 ^^^ ror x 18 ^^^ x >>> 3 = Fips180.smallSigma₀ x := fun x => by
    rw [Fips180.smallSigma₀, ← ror_eq_rotr x (by decide) (by decide),
      ← ror_eq_rotr x (by decide) (by decide)]
    rfl
  have h1 : ∀ x : UInt32, ror x 17 ^^^ ror x 19 ^^^ x >>> 10 = Fips180.smallSigma₁ x := fun x => by
    rw [Fips180.smallSigma₁, ← ror_eq_rotr x (by decide) (by decide),
      ← ror_eq_rotr x (by decide) (by decide)]
    rfl
  rw [range_succ, map_append, map_singleton, hs]
  unfold sha256Expand
  dsimp only
  rw [getD_map_range (by omega), getD_map_range (by omega), getD_map_range (by omega),
    getD_map_range (by omega), h0, h1]

theorem expandLoop_eq {p : Bytes} (h : p.length = 64) (n : ℕ) :
    (range' 16 n).foldl sha256Expand (sha256Load p)
      = (range (16 + n)).map (Fips180.schedule (blockWord p)) := by
  induction n with
  | zero => exact sha256Load_eq h
  | succ n ih =>
    rw [range'_concat, foldl_append, ih, Nat.one_mul]
    exact sha256Expand_eq (by omega)

theorem sha256K_eq {t : ℕ} (h : t < 64) : sha256K.getD t 0 = Fips180.roundConstant t := by
  have hroot : ∀ x ∈ sha256K.zip primes, ∃ r < 7, (r * 2 ^ 32 + x.1.toNat) ^ 3 ≤ x.2 * 2 ^ 96
      ∧ x.2 * 2 ^ 96 < (r * 2 ^ 32 + x.1.toNat + 1) ^ 3 := by
    rw [Fips180.primes_eq]
    decide +kernel
  have hlen : primes.length = 64 := by rw [Fips180.primes_eq]; rfl
  have hmem : (sha256K.getD t 0, primes.getD t 0) ∈ sha256K.zip primes := by
    have hk : t < sha256K.length := h
    have hp : t < primes.length := by omega
    rw [getD_eq_getElem _ _ hk, getD_eq_getElem _ _ hp, ← getElem_zip]
    exact getElem_mem (by simp [hp, hk])
  obtain ⟨r, -, h1, h2⟩ := hroot _ hmem
  dsimp only at h1 h2
  generalize sha256K.getD t 0 = k at h1 h2 ⊢
  have hk := k.toNat_lt
  rw [Fips180.roundConstant, Fips180.rootBits_eq (by decide) h1 h2]
  apply UInt32.toNat_inj.1
  simp

theorem sha256Round_eq {w : List UInt32} {v} {i : ℕ} :
    sha256Round w v i = Fips180.round (sha256K.getD i 0) (w.getD i 0) v := by
  have h0 : ∀ x : UInt32, ror x 2 ^^^ ror x 13 ^^^ ror x 22 = Fips180.bigSigma₀ x := fun x => by
    rw [Fips180.bigSigma₀, ← ror_eq_rotr x (by decide) (by decide),
      ← ror_eq_rotr x (by decide) (by decide), ← ror_eq_rotr x (by decide) (by decide)]
    rfl
  have h1 : ∀ x : UInt32, ror x 6 ^^^ ror x 11 ^^^ ror x 25 = Fips180.bigSigma₁ x := fun x => by
    rw [Fips180.bigSigma₁, ← ror_eq_rotr x (by decide) (by decide),
      ← ror_eq_rotr x (by decide) (by decide), ← ror_eq_rotr x (by decide) (by decide)]
    rfl
  unfold sha256Round Fips180.round
  generalize sha256K.getD i 0 = k
  simp only [← h0, ← h1, Fips180.ch, Fips180.maj]
  rfl

theorem sha256Block_eq {p : Bytes} (s) (h : p.length = 64) :
    sha256Block s p = Fips180.compress s p := by
  unfold sha256Block Fips180.compress
  dsimp only
  rw [expandLoop_eq h]
  have hrounds : (range 64).foldl
      (sha256Round ((range (16 + 48)).map (Fips180.schedule (blockWord p)))) s
      = (range 64).foldl (fun v t => Fips180.round (Fips180.roundConstant t)
        (Fips180.schedule (blockWord p) t) v) s := by
    refine foldl_ext _ _ _ fun v t ht => ?_
    have ht := mem_range.1 ht
    rw [sha256Round_eq, sha256K_eq ht, getD_map_range ht]
  rw [hrounds]
  refine Vector.ext fun i hi => ?_
  rw [Vector.getElem_zipWith, Vector.getElem_zipWith, UInt32.add_comm]
  rfl

theorem sha256Init_eq : sha256Init.state = Fips180.initialHash := by
  have hroot : ∀ i : Fin 8, ∃ r < 5,
      (r * 2 ^ 32 + sha256Init.state[i].toNat) ^ 2 ≤ primes.getD i 0 * 2 ^ 64
      ∧ primes.getD i 0 * 2 ^ 64 < (r * 2 ^ 32 + sha256Init.state[i].toNat + 1) ^ 2 := by
    rw [Fips180.primes_eq]
    decide +kernel
  ext i hi
  obtain ⟨r, -, h1, h2⟩ := hroot ⟨i, hi⟩
  have hk := sha256Init.state[i].toNat_lt
  simp only [Fips180.initialHash, Vector.getElem_ofFn]
  rw [Fips180.rootBits_eq (by decide) h1 h2]
  simp

/-! ### A message -/

/-- The message `m` has been passed to the context. -/
structure Sha256Ctx.Holds (c : Sha256Ctx) (m : Bytes) : Prop where
  view : (c.state, c.buf) = absorb 64 sha256Block (sha256Init.state, []) m
  bitlen : c.bitlen = .ofNat (8 * m.length)

/-- The loop of `sha256_update` absorbs its bytes block by block. -/
theorem updateLoop_spec : ∀ (n : ℕ) (p : Bytes) (c : Sha256Ctx), p.length ≤ n →
    ((updateLoop n p c).state, (updateLoop n p c).buf) = absorb 64 sha256Block (c.state, c.buf) p
      ∧ (updateLoop n p c).bitlen = c.bitlen
  | 0, p, c, h => by
    obtain rfl : p = [] := eq_nil_of_length_eq_zero (by omega)
    exact ⟨rfl, rfl⟩
  | n + 1, p, c, h => by
    rw [updateLoop]
    by_cases hp : p = []
    · rw [if_pos hp, hp]
      exact ⟨rfl, rfl⟩
    · rw [if_neg hp]
      have hpos : 0 < p.length := length_pos_iff.2 hp
      have hlt := c.buf_lt
      dsimp only
      set take := min (64 - c.buf.length) p.length with htake
      have hlen : (p.take take).length = take := by
        rw [length_take]
        omega
      have hdrop : (p.drop take).length ≤ n := by
        rw [length_drop]
        omega
      have hsplit : absorb 64 sha256Block (c.state, c.buf) p
          = absorb 64 sha256Block (absorb 64 sha256Block (c.state, c.buf) (p.take take))
            (p.drop take) := by
        rw [← BlockHash.absorb_append, take_append_drop]
      rw [hsplit]
      split
      · rename_i hfull
        have hne : p.take take ≠ [] := fun hnil => by
          rw [hnil, length_nil] at hlen
          omega
        rw [length_append] at hfull
        rw [BlockHash.absorb_full hne hfull]
        exact updateLoop_spec n _ _ hdrop
      · rename_i hfull
        rw [length_append] at hfull
        have hshort : c.buf.length + (p.take take).length < 64 := by
          rw [hlen] at hfull ⊢
          omega
        rw [BlockHash.absorb_short _ (x := (c.state, c.buf)) hshort]
        exact updateLoop_spec n _ _ hdrop

namespace Sha256Ctx

variable {c : Sha256Ctx} {m : Bytes}

theorem holds_init : sha256Init.Holds [] := ⟨rfl, rfl⟩

theorem Holds.update (h : c.Holds m) (b) : (sha256Update c b).Holds (m ++ b) := by
  obtain ⟨h1, h2⟩ := updateLoop_spec b.length b
    { c with bitlen := c.bitlen + .ofNat b.length * 8 } (Nat.le_refl _)
  refine ⟨h1.trans ?_, h2.trans ?_⟩
  · rw [BlockHash.absorb_append, ← h.view]
  · dsimp only
    rw [h.bitlen]
    apply UInt64.toNat_inj.1
    simp only [UInt64.toNat_add, UInt64.toNat_mul, UInt64.toNat_ofNat', UInt64.reduceToNat,
      length_append]
    omega

theorem Holds.updates : ∀ (parts : List Bytes) {c : Sha256Ctx} {m : Bytes}, c.Holds m →
    (parts.foldl sha256Update c).Holds (m ++ parts.flatten)
  | [], _, _, h => by simpa using h
  | b :: parts, _, _, h => by
    have := Holds.updates parts (h.update b)
    rwa [append_assoc] at this

theorem Holds.buf_length (h : c.Holds m) : c.buf.length = m.length % 64 := by
  have : c.buf = (absorb 64 sha256Block (sha256Init.state, []) m).2 := congrArg Prod.snd h.view
  rw [this, BlockHash.absorb_length m (by decide)]
  simp

theorem Holds.padLoop : ∀ (n : ℕ) {c : Sha256Ctx} {m : Bytes}, c.Holds m →
    (120 - m.length % 64) % 64 ≤ n →
    (padLoop n c).Holds (m ++ replicate ((120 - m.length % 64) % 64) 0)
  | 0, c, m, h, hn => by
    rw [Nat.le_zero.1 hn, replicate_zero, append_nil]
    exact h
  | n + 1, c, m, h, hn => by
    have hbuf := h.buf_length
    rw [MuxProtocol.padLoop]
    by_cases hdone : c.buf.length = 56
    · have hzero : (120 - m.length % 64) % 64 = 0 := by omega
      rw [if_pos hdone, hzero, replicate_zero, append_nil]
      exact h
    · have hsucc : (120 - m.length % 64) % 64 = (120 - (m ++ [0]).length % 64) % 64 + 1 := by
        rw [length_append, length_singleton]
        omega
      have ih := Holds.padLoop n (h.update [0]) (by omega)
      rw [if_neg hdone, hsucc, replicate_succ]
      rwa [append_assoc] at ih

theorem lenbe_eq (n : ℕ) : ((range 8).map fun i =>
    (UInt64.ofNat n >>> .ofNat (56 - i * 8)).toUInt8) = beBytes 8 n := by
  refine map_congr_left fun i hi => ?_
  have hi := mem_range.1 hi
  have hexp : 56 - i * 8 = 8 * (8 - 1 - i) := by omega
  have hlt : 8 - 1 - i < 8 := by omega
  rw [hexp]
  generalize 8 - 1 - i = j at hlt
  have hpow : 2 ^ 64 = 2 ^ (8 * j) * 2 ^ (64 - 8 * j) := by
    rw [← Nat.pow_add]
    congr 1
    omega
  have hdvd : 2 ^ 8 ∣ 2 ^ (64 - 8 * j) := Nat.pow_dvd_pow 2 (by omega)
  apply UInt8.toNat_inj.1
  calc ((UInt64.ofNat n >>> .ofNat (8 * j)).toUInt8).toNat
      = n % 2 ^ 64 / 2 ^ (8 * j) % 2 ^ 8 := by
        simp [Nat.shiftRight_eq_div_pow, Nat.mod_eq_of_lt (show 8 * j < 64 by omega)]
    _ = n / 2 ^ (8 * j) % 2 ^ 8 := by
        rw [hpow, Nat.mod_mul_right_div_self, Nat.mod_mod_of_dvd _ hdvd]
    _ = (UInt8.ofNat (n / 256 ^ j)).toNat := by
        rw [Nat.pow_mul]
        simp

theorem digest_eq (s : UInt32) :
    [(s >>> 24).toUInt8, (s >>> 16).toUInt8, (s >>> 8).toUInt8, s.toUInt8] = beBytes 4 s.toNat := by
  have hbyte : ∀ n < 32, (s >>> .ofNat n).toUInt8 = .ofNat (s.toNat / 2 ^ n) := by
    intro n hn
    apply UInt8.toNat_inj.1
    simp [Nat.shiftRight_eq_div_pow, Nat.mod_eq_of_lt hn]
  have h0 : s.toUInt8 = .ofNat s.toNat := by
    apply UInt8.toNat_inj.1
    simp
  have hlist : beBytes 4 s.toNat = [.ofNat (s.toNat / 2 ^ 24), .ofNat (s.toNat / 2 ^ 16),
      .ofNat (s.toNat / 2 ^ 8), .ofNat s.toNat] := by
    simp [beBytes, range_succ]
  rw [hlist, ← hbyte 24 (by decide), ← hbyte 16 (by decide), ← hbyte 8 (by decide), ← h0]
  rfl

theorem Holds.final (h : c.Holds m) : (sha256Final c).1 = Fips180.sha256 m := by
  have h1 := h.update [0x80]
  have hpad : (120 - (m ++ [0x80]).length % 64) % 64 = Fips180.padZeros m.length := by
    rw [length_append, length_singleton, Fips180.padZeros]
    omega
  have h2 := h1.padLoop 64 (by omega)
  rw [hpad] at h2
  have h3 := h2.update (beBytes 8 (8 * m.length))
  have heq : m ++ [0x80] ++ replicate (Fips180.padZeros m.length) 0
      ++ beBytes 8 (8 * m.length) = Fips180.pad m := by
    simp [Fips180.pad]
  rw [heq] at h3
  obtain ⟨k, hk⟩ := Nat.dvd_of_mod_eq_zero (Fips180.pad_length m)
  have hstate := congrArg Prod.fst (h3.view.trans (BlockHash.absorb_blocks (by decide) hk))
  dsimp only at hstate
  unfold sha256Final
  dsimp only
  rw [h.bitlen, lenbe_eq, hstate, BlockHash.fold_congr fun s _ hb => sha256Block_eq s hb,
    sha256Init_eq]
  simp only [digest_eq]
  rfl

end Sha256Ctx

theorem sha256_eq (m) : (sha256 m).1 = Fips180.sha256 m :=
  (Sha256Ctx.holds_init.update m).final

example : (sha256 [0x61, 0x62, 0x63]).1 = [
    0xba, 0x78, 0x16, 0xbf, 0x8f, 0x01, 0xcf, 0xea, 0x41, 0x41, 0x40, 0xde, 0x5d, 0xae, 0x22, 0x23,
    0xb0, 0x03, 0x61, 0xa3, 0x96, 0x17, 0x7a, 0x9c, 0xb4, 0x10, 0xff, 0x61, 0xf2, 0x00, 0x15,
    0xad] := by
  decide +kernel

/-- For any pieces of a message, and for any key. -/
theorem sha256_hmac_standard :
    (∀ parts : List Bytes, (sha256Final (parts.foldl sha256Update sha256Init)).1
        = Fips180.sha256 parts.flatten)
      ∧ ∀ key msg : Bytes, (hmacSha256 key msg).1 = hmacRfc2104 Fips180.sha256 64 key msg := by
  refine ⟨fun parts => (Sha256Ctx.holds_init.updates parts).final, fun key msg => ?_⟩
  unfold hmacSha256 hmacRfc2104
  dsimp only
  rw [sha256_eq, ((Sha256Ctx.holds_init.update _).update _).final,
    ((Sha256Ctx.holds_init.update _).update _).final]
  rfl

end MuxProtocol
