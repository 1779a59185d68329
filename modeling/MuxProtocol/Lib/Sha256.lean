import Mathlib.Data.Nat.Find
import Mathlib.Data.Nat.Prime.Basic
import MuxProtocol.Lib.BlockHash

/-!
# SHA-256 and HMAC as they are standardised

FIPS 180-4 for strings of bytes, with its constants as roots of primes, and RFC 2104 for any hash.
-/

namespace Fips180

/-- The first 32 bits of the fractional part of the `n`-th root of `p`. -/
def rootBits (n p : ℕ) : ℕ :=
  Nat.findGreatest (fun x => x ^ n ≤ p * 2 ^ (32 * n)) (p * 2 ^ 32) % 2 ^ 32

/-- The first sixty-four primes. -/
def primes : List ℕ := (List.range 312).filter fun n => Nat.Prime n

/-- Big-endian, in `n` bytes. -/
def beBytes (n k : ℕ) : List UInt8 := (List.range n).map fun i => .ofNat (k / 256 ^ (n - 1 - i))

/-- The number that bytes are in big-endian. -/
def beNat (l : List UInt8) : ℕ := l.foldl (fun n b => 256 * n + b.toNat) 0

/-! ### Functions -/

def rotr (n : ℕ) (x : UInt32) : UInt32 := ⟨x.toBitVec.rotateRight n⟩

def shr (n : ℕ) (x : UInt32) : UInt32 := ⟨x.toBitVec >>> n⟩

def ch (x y z : UInt32) : UInt32 := (x &&& y) ^^^ (~~~x &&& z)

def maj (x y z : UInt32) : UInt32 := (x &&& y) ^^^ (x &&& z) ^^^ (y &&& z)

def bigSigma₀ (x : UInt32) : UInt32 := rotr 2 x ^^^ rotr 13 x ^^^ rotr 22 x

def bigSigma₁ (x : UInt32) : UInt32 := rotr 6 x ^^^ rotr 11 x ^^^ rotr 25 x

def smallSigma₀ (x : UInt32) : UInt32 := rotr 7 x ^^^ rotr 18 x ^^^ shr 3 x

def smallSigma₁ (x : UInt32) : UInt32 := rotr 17 x ^^^ rotr 19 x ^^^ shr 10 x

/-! ### Constants -/

/-- From the cube roots of the primes. -/
def roundConstant (t : ℕ) : UInt32 := .ofNat (rootBits 3 (primes.getD t 0))

/-- From the square roots of the first eight primes. -/
def initialHash : Vector UInt32 8 := .ofFn fun i => .ofNat (rootBits 2 (primes.getD i 0))

/-! ### The hash -/

/-- The message schedule of a block of the words `m`. -/
def schedule (m : ℕ → UInt32) (t : ℕ) : UInt32 :=
  if t < 16 then m t
  else smallSigma₁ (schedule m (t - 2)) + schedule m (t - 7)
    + smallSigma₀ (schedule m (t - 15)) + schedule m (t - 16)

/-- The working variables `a` to `h` after one more round. -/
def round (k w : UInt32) (v : Vector UInt32 8) : Vector UInt32 8 :=
  let v := v.get
  let t₁ := v 7 + bigSigma₁ (v 4) + ch (v 4) (v 5) (v 6) + k + w
  let t₂ := bigSigma₀ (v 0) + maj (v 0) (v 1) (v 2)
  #v[t₁ + t₂, v 0, v 1, v 2, v 3 + t₁, v 4, v 5, v 6]

def compress (h : Vector UInt32 8) (b : List UInt8) : Vector UInt32 8 :=
  let w := schedule fun i => .ofNat (beNat (BlockHash.block 4 b i))
  let v := (List.range 64).foldl (fun v t => round (roundConstant t) (w t) v) h
  v.zipWith (· + ·) h

/-- As many zeros as make the message with the bit before and the length after them a multiple of
the block. -/
def padZeros (len : ℕ) : ℕ := (119 - len % 64) % 64

/-- The length is one of bits. The standard has no message of `2 ^ 61` bytes. -/
def pad (m : List UInt8) : List UInt8 :=
  m ++ 0x80 :: List.replicate (padZeros m.length) 0 ++ beBytes 8 (8 * m.length)

def sha256 (m : List UInt8) : List UInt8 :=
  (BlockHash.fold 64 compress initialHash (pad m)).toList.flatMap fun w => beBytes 4 w.toNat

theorem beBytes_length (n k : ℕ) : (beBytes n k).length = n := by simp [beBytes]

theorem padZeros_spec (len : ℕ) : (len + 1 + padZeros len) % 64 = 56 ∧ padZeros len < 64 := by
  unfold padZeros
  omega

theorem pad_length (m) : (pad m).length % 64 = 0 := by
  have := padZeros_spec m.length
  simp only [pad, List.length_append, List.length_cons, List.length_replicate, beBytes_length]
  omega

theorem primes_eq : primes = [2, 3, 5, 7, 11, 13, 17, 19, 23, 29, 31, 37, 41, 43, 47, 53, 59, 61,
    67, 71, 73, 79, 83, 89, 97, 101, 103, 107, 109, 113, 127, 131, 137, 139, 149, 151, 157, 163,
    167, 173, 179, 181, 191, 193, 197, 199, 211, 223, 227, 229, 233, 239, 241, 251, 257, 263, 269,
    271, 277, 281, 283, 293, 307, 311] := by
  -- a divisor up to the root is less than 18
  have hprime : ∀ n < 312, n.Prime ↔ 2 ≤ n ∧ ∀ m < 18, 2 ≤ m → m < n → ¬m ∣ n := by
    intro n hn
    rw [Nat.prime_def_le_sqrt]
    refine and_congr_right fun h2 => ⟨fun h m _ hm hlt hdvd => ?_, fun h m hm hle => ?_⟩
    · have := (Nat.prime_def_le_sqrt.2 ⟨h2, h⟩).eq_one_or_self_of_dvd m hdvd
      omega
    · have hsq : m < 18 := lt_of_le_of_lt hle (Nat.sqrt_lt.2 (by omega))
      exact h m hsq hm (lt_of_le_of_lt hle (Nat.sqrt_lt_self h2))
  have hfilter : primes
      = (List.range 312).filter fun n => 2 ≤ n ∧ ∀ m < 18, 2 ≤ m → m < n → ¬m ∣ n :=
    List.filter_congr fun n hn => decide_eq_decide.2 (hprime n (List.mem_range.1 hn))
  rw [hfilter]
  decide +kernel

theorem rootBits_eq {n p x : ℕ} (hn : 0 < n) (h : x ^ n ≤ p * 2 ^ (32 * n))
    (h' : p * 2 ^ (32 * n) < (x + 1) ^ n) : rootBits n p = x % 2 ^ 32 := by
  have hp : p ≤ p ^ n := Nat.le_self_pow hn.ne' p
  have hx : x ≤ p * 2 ^ 32 := by
    refine (Nat.pow_le_pow_iff_left hn.ne').1 (h.trans ?_)
    rw [Nat.mul_pow, ← Nat.pow_mul]
    exact Nat.mul_le_mul_right _ hp
  have hmax : ∀ ⦃y⦄, x < y → y ≤ p * 2 ^ 32 → ¬y ^ n ≤ p * 2 ^ (32 * n) := by
    intro y hy _ hle
    exact absurd ((Nat.pow_le_pow_left (Nat.succ_le_of_lt hy) n).trans hle) (Nat.not_le.2 h')
  rw [rootBits, Nat.findGreatest_eq_iff.2 ⟨hx, fun _ => h, hmax⟩]

end Fips180

/-- RFC 2104, for a hash `H` of blocks of `B` bytes. -/
def hmacRfc2104 (H : List UInt8 → List UInt8) (B : ℕ) (key text : List UInt8) : List UInt8 :=
  let k := if key.length > B then H key else key
  let k := k ++ List.replicate (B - k.length) 0
  H (k.map (· ^^^ 0x5c) ++ H (k.map (· ^^^ 0x36) ++ text))
