import MuxProtocol.Daemon

/-!
# The hash of the proof

SHA-256 and HMAC-SHA256 of `auth.c`.
-/

namespace MuxProtocol

def ror (x n : UInt32) : UInt32 := x >>> n ||| x <<< (32 - n)

def sha256K : List UInt32 := [
  0x428a2f98, 0x71374491, 0xb5c0fbcf, 0xe9b5dba5, 0x3956c25b, 0x59f111f1, 0x923f82a4, 0xab1c5ed5,
  0xd807aa98, 0x12835b01, 0x243185be, 0x550c7dc3, 0x72be5d74, 0x80deb1fe, 0x9bdc06a7, 0xc19bf174,
  0xe49b69c1, 0xefbe4786, 0x0fc19dc6, 0x240ca1cc, 0x2de92c6f, 0x4a7484aa, 0x5cb0a9dc, 0x76f988da,
  0x983e5152, 0xa831c66d, 0xb00327c8, 0xbf597fc7, 0xc6e00bf3, 0xd5a79147, 0x06ca6351, 0x14292967,
  0x27b70a85, 0x2e1b2138, 0x4d2c6dfc, 0x53380d13, 0x650a7354, 0x766a0abb, 0x81c2c92e, 0x92722c85,
  0xa2bfe8a1, 0xa81a664b, 0xc24b8b70, 0xc76c51a3, 0xd192e819, 0xd6990624, 0xf40e3585, 0x106aa070,
  0x19a4c116, 0x1e376c08, 0x2748774c, 0x34b0bcb5, 0x391c0cb3, 0x4ed8aa4a, 0x5b9cca4f, 0x682e6ff3,
  0x748f82ee, 0x78a5636f, 0x84c87814, 0x8cc70208, 0x90befffa, 0xa4506ceb, 0xbef9a3f7, 0xc67178f2]

/-- The first 16 words of a block. -/
def sha256Load (p : Bytes) : List UInt32 :=
  (List.range 16).map fun i =>
    (p.getD (i * 4) 0).toUInt32 <<< 24 ||| (p.getD (i * 4 + 1) 0).toUInt32 <<< 16
      ||| (p.getD (i * 4 + 2) 0).toUInt32 <<< 8 ||| (p.getD (i * 4 + 3) 0).toUInt32

/-- The word `i` of a block, of those before it. -/
def sha256Expand (w : List UInt32) (i : ℕ) : List UInt32 :=
  let w15 := w.getD (i - 15) 0
  let w2 := w.getD (i - 2) 0
  let s0 := ror w15 7 ^^^ ror w15 18 ^^^ w15 >>> 3
  let s1 := ror w2 17 ^^^ ror w2 19 ^^^ w2 >>> 10
  w ++ [w.getD (i - 16) 0 + s0 + w.getD (i - 7) 0 + s1]

/-- A round of `sha256_block` on its variables. -/
def sha256Round (w : List UInt32) (v : Vector UInt32 8) (i : ℕ) : Vector UInt32 8 :=
  let a := v[0]; let b := v[1]; let d2 := v[2]; let d := v[3]
  let e := v[4]; let f := v[5]; let g := v[6]; let h := v[7]
  let S1 := ror e 6 ^^^ ror e 11 ^^^ ror e 25
  let ch := (e &&& f) ^^^ (~~~e &&& g)
  let t1 := h + S1 + ch + sha256K.getD i 0 + w.getD i 0
  let S0 := ror a 2 ^^^ ror a 13 ^^^ ror a 22
  let maj := (a &&& b) ^^^ (a &&& d2) ^^^ (b &&& d2)
  let t2 := S0 + maj
  #v[t1 + t2, a, b, d2, d + t1, e, f, g]

def sha256Block (state : Vector UInt32 8) (p : Bytes) : Vector UInt32 8 :=
  let w := (List.range' 16 48).foldl sha256Expand (sha256Load p)
  let v := (List.range 64).foldl (sha256Round w) state
  state.zipWith (· + ·) v

/-- The buffer is what is in use of it: its length is `buflen`. -/
structure Sha256Ctx where
  state : Vector UInt32 8
  bitlen : UInt64
  buf : Bytes
  buf_lt : buf.length < 64

def sha256Init : Sha256Ctx where
  state := #v[0x6a09e667, 0xbb67ae85, 0x3c6ef372, 0xa54ff53a,
    0x510e527f, 0x9b05688c, 0x1f83d9ab, 0x5be0cd19]
  bitlen := 0
  buf := []
  buf_lt := by decide

/-- The loop of `sha256_update`. A round takes a byte at least, so their number is enough fuel. -/
def updateLoop : ℕ → Bytes → Sha256Ctx → Sha256Ctx
  | 0, _, c => c
  | n + 1, p, c =>
    if p = [] then c
    else
      let take := min (64 - c.buf.length) p.length
      let buf := c.buf ++ p.take take
      if h : buf.length = 64 then
        updateLoop n (p.drop take)
          { c with state := sha256Block c.state buf, buf := [], buf_lt := by decide }
      else
        updateLoop n (p.drop take)
          { c with
            buf := buf
            buf_lt := by
              have : buf.length ≤ 64 := by
                rw [List.length_append, List.length_take]
                have := c.buf_lt
                omega
              omega }

def sha256Update (c : Sha256Ctx) (data : Bytes) : Sha256Ctx :=
  updateLoop data.length data { c with bitlen := c.bitlen + .ofNat data.length * 8 }

/-- The loop of `sha256_final`, which ends within 64 rounds. -/
def padLoop : ℕ → Sha256Ctx → Sha256Ctx
  | 0, c => c
  | n + 1, c => if c.buf.length = 56 then c else padLoop n (sha256Update c [0])

def sha256Final (c : Sha256Ctx) : Digest :=
  let bitlen := c.bitlen
  let c := padLoop 64 (sha256Update c [0x80])
  let lenbe := (List.range 8).map fun i => (bitlen >>> .ofNat (56 - i * 8)).toUInt8
  let c := sha256Update c lenbe
  ⟨c.state.toList.flatMap fun s : UInt32 =>
    [(s >>> 24).toUInt8, (s >>> 16).toUInt8, (s >>> 8).toUInt8, s.toUInt8], by
    simp [sha256DigestLen]⟩

def sha256 (data : Bytes) : Digest := sha256Final (sha256Update sha256Init data)

def hmacSha256 (key msg : Bytes) : Digest :=
  -- the array is of zeros at first
  let k := if key.length > 64 then (sha256 key).1 else key
  let k := k ++ List.replicate (64 - k.length) 0
  let ipad := k.map (· ^^^ 0x36)
  let opad := k.map (· ^^^ 0x5c)
  let inner := sha256Final (sha256Update (sha256Update sha256Init ipad) msg)
  sha256Final (sha256Update (sha256Update sha256Init opad) inner)

end MuxProtocol
