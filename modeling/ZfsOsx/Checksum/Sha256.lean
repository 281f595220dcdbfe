import ZfsOsx.Checksum.Word

/-!
# SHA-256 (`module/zfs/sha256.c`)

`SHA256Transform` runs the message schedule and the 64 rounds over one 64-byte
block; `zio_checksum_SHA256` runs it over the whole blocks of the buffer, then
over a padding buffer holding the rest of the data, the byte `0x80`, zeros and
the bit length. Its four checksum words are the eight state words in pairs.

The model keeps each loop of the source: `sha256ScheduleLoop` and
`sha256Rounds` for the transform, `sha256Blocks` for the two block loops,
`sha256PadZeros` for the zero fill; the copy into `pad` is a `Buffer.copy` and
the eight length bytes an `Endian.store` of the bit length, big-endian.

* `sha256Transform_congr`: the transform reads its 64 bytes only.
* `zioChecksumSHA256_congr`: the checksum of `size` bytes reads the bytes
  below `size` only. The words are built from bytes, so the host's byte order
  plays no part, which is why the table lists the routine for both orders.
-/
namespace ZfsOsx.Checksum

open Endian ByteOrder Function
open ZfsOsx.Compress (Buf)

/-- `Rot32(x, s)`.
mirrors module/zfs/sha256.c:46 -/
def rot32 (x s : UInt32) : UInt32 := (x >>> s) ||| (x <<< (32 - s))

/-- `Ch(x, y, z)`.
mirrors module/zfs/sha256.c:44 -/
def ch (x y z : UInt32) : UInt32 := z ^^^ (x &&& (y ^^^ z))

/-- `Maj(x, y, z)`.
mirrors module/zfs/sha256.c:45 -/
def maj (x y z : UInt32) : UInt32 := (x &&& y) ^^^ (z &&& (x ^^^ y))

/-- `SIGMA0(x)`.
mirrors module/zfs/sha256.c:47 -/
def bigSigma0 (x : UInt32) : UInt32 := rot32 x 2 ^^^ rot32 x 13 ^^^ rot32 x 22

/-- `SIGMA1(x)`.
mirrors module/zfs/sha256.c:48 -/
def bigSigma1 (x : UInt32) : UInt32 := rot32 x 6 ^^^ rot32 x 11 ^^^ rot32 x 25

/-- `sigma0(x)`.
mirrors module/zfs/sha256.c:49 -/
def sigma0 (x : UInt32) : UInt32 := rot32 x 7 ^^^ rot32 x 18 ^^^ (x >>> 3)

/-- `sigma1(x)`.
mirrors module/zfs/sha256.c:50 -/
def sigma1 (x : UInt32) : UInt32 := rot32 x 17 ^^^ rot32 x 19 ^^^ (x >>> 10)

/-- `SHA256_K`.
mirrors module/zfs/sha256.c:52-69 -/
def sha256K : List UInt32 :=
  [0x428a2f98, 0x71374491, 0xb5c0fbcf, 0xe9b5dba5, 0x3956c25b, 0x59f111f1, 0x923f82a4, 0xab1c5ed5,
   0xd807aa98, 0x12835b01, 0x243185be, 0x550c7dc3, 0x72be5d74, 0x80deb1fe, 0x9bdc06a7, 0xc19bf174,
   0xe49b69c1, 0xefbe4786, 0x0fc19dc6, 0x240ca1cc, 0x2de92c6f, 0x4a7484aa, 0x5cb0a9dc, 0x76f988da,
   0x983e5152, 0xa831c66d, 0xb00327c8, 0xbf597fc7, 0xc6e00bf3, 0xd5a79147, 0x06ca6351, 0x14292967,
   0x27b70a85, 0x2e1b2138, 0x4d2c6dfc, 0x53380d13, 0x650a7354, 0x766a0abb, 0x81c2c92e, 0x92722c85,
   0xa2bfe8a1, 0xa81a664b, 0xc24b8b70, 0xc76c51a3, 0xd192e819, 0xd6990624, 0xf40e3585, 0x106aa070,
   0x19a4c116, 0x1e376c08, 0x2748774c, 0x34b0bcb5, 0x391c0cb3, 0x4ed8aa4a, 0x5b9cca4f, 0x682e6ff3,
   0x748f82ee, 0x78a5636f, 0x84c87814, 0x8cc70208, 0x90befffa, 0xa4506ceb, 0xbef9a3f7, 0xc67178f2]

/-- Eight 32-bit words: the chaining value `H[0..7]`, or the working
variables `a, …, h` of a round. -/
structure Sha256Words where
  a : UInt32
  b : UInt32
  c : UInt32
  d : UInt32
  e : UInt32
  f : UInt32
  g : UInt32
  h : UInt32
  deriving DecidableEq, Repr

/-- `W[t] = (cp[0] << 24) | (cp[1] << 16) | (cp[2] << 8) | cp[3]` with `cp`
at byte `p` of `m`.
mirrors module/zfs/sha256.c:76-77 -/
def sha256Word (m : Buf) (p : ℕ) : UInt32 :=
  (m p).toUInt32 <<< 24 ||| (m (p + 1)).toUInt32 <<< 16 ||| (m (p + 2)).toUInt32 <<< 8 |||
    (m (p + 3)).toUInt32

/-- The loop `for (t = 16; t < 64; t++)` that extends the message schedule,
from `t` on with `k` iterations left.
mirrors module/zfs/sha256.c:79-81 -/
def sha256ScheduleLoop (W : ℕ → UInt32) : ℕ → ℕ → ℕ → UInt32
  | 0, _ => W
  | k + 1, t =>
    sha256ScheduleLoop (update W t (sigma1 (W (t - 2)) + W (t - 7) + sigma0 (W (t - 15)) + W (t - 16)))
      k (t + 1)

/-- The 64 rounds, from round `t` on with `k` left.
mirrors module/zfs/sha256.c:86-91 -/
def sha256Rounds (W : ℕ → UInt32) : ℕ → ℕ → Sha256Words → Sha256Words
  | 0, _, s => s
  | k + 1, t, ⟨a, b, c, d, e, f, g, h⟩ =>
    let T1 := h + bigSigma1 e + ch e f g + sha256K.getD t 0 + W t
    let T2 := bigSigma0 a + maj a b c
    sha256Rounds W k (t + 1) ⟨T1 + T2, a, b, c, d + T1, e, f, g⟩

/-- `SHA256Transform(H, cp)` with `cp` at byte `cp` of `m`. The schedule's
words from 16 on are written before they are read; they start at 0 here.
mirrors module/zfs/sha256.c:71-96 -/
def sha256Transform (H : Sha256Words) (m : Buf) (cp : ℕ) : Sha256Words :=
  let W := sha256ScheduleLoop (fun t => if t < 16 then sha256Word m (cp + 4 * t) else 0) 48 16
  let r := sha256Rounds W 64 0 H
  ⟨H.a + r.a, H.b + r.b, H.c + r.c, H.d + r.d, H.e + r.e, H.f + r.f, H.g + r.g, H.h + r.h⟩

/-- The loops `for (i = …; i < …; i += 64) SHA256Transform(H, buf + i)`, from
byte `i` on with `k` blocks left; `transform H i` is the call on the block at
`i`. -/
def sha256Blocks (transform : Sha256Words → ℕ → Sha256Words) : ℕ → ℕ → Sha256Words → Sha256Words
  | 0, _, H => H
  | k + 1, i, H => sha256Blocks transform k (i + 64) (transform H i)

/-- `for (pad[padsize++] = 0x80; (padsize & 63) != 56; padsize++) pad[padsize] = 0`
after its first store, with at most `fuel` iterations; 64 are enough.
mirrors module/zfs/sha256.c:109-110 -/
def sha256PadZeros (pad : Buf) : ℕ → ℕ → Buf × ℕ
  | 0, padsize => (pad, padsize)
  | fuel + 1, padsize =>
    if padsize &&& 63 ≠ 56 then sha256PadZeros (update pad padsize 0) fuel (padsize + 1)
    else (pad, padsize)

/-- The initial `H[8]` of `zio_checksum_SHA256`.
mirrors module/zfs/sha256.c:101-102 -/
def sha256H0 : Sha256Words :=
  ⟨0x6a09e667, 0xbb67ae85, 0x3c6ef372, 0xa54ff53a, 0x510e527f, 0x9b05688c, 0x1f83d9ab, 0x5be0cd19⟩

/-- `zio_checksum_SHA256(buf, size, zcp)`. `size & ~63ULL` is
`size / 64 * 64`; `pad` is uninitialised in the source and every byte of it
that is read is written first; the eight length bytes are `(size << 3) >> i`
for `i = 56, 48, …, 0`, that is the bit length big-endian.
mirrors module/zfs/sha256.c:98-123 -/
def zioChecksumSHA256 (buf : Buf) (size : ℕ) : ZioCksum :=
  let H := sha256Blocks (fun H i => sha256Transform H buf i) (size / 64) 0 sha256H0
  let i := size / 64 * 64
  let pad := Buffer.copy (fun _ => 0) buf 0 i (size - i)
  let r := sha256PadZeros (update pad (size - i) 0x80) 64 (size - i + 1)
  let pad := store big r.1 r.2 8 (size * 8 % 2 ^ 64)
  let padsize := r.2 + 8
  let H := sha256Blocks (fun H i => sha256Transform H pad i) ((padsize + 63) / 64) 0 H
  ⟨H.a.toUInt64 <<< 32 ||| H.b.toUInt64, H.c.toUInt64 <<< 32 ||| H.d.toUInt64,
    H.e.toUInt64 <<< 32 ||| H.f.toUInt64, H.g.toUInt64 <<< 32 ||| H.h.toUInt64⟩

section Reads

variable {m m' : Buf}

theorem sha256Word_congr {p : ℕ} (hm : ∀ j < 4, m (p + j) = m' (p + j)) :
    sha256Word m p = sha256Word m' p := by
  have h0 := hm 0 (by decide)
  have h1 := hm 1 (by decide)
  have h2 := hm 2 (by decide)
  have h3 := hm 3 (by decide)
  simp only [Nat.add_zero] at h0
  simp only [sha256Word, h0, h1, h2, h3]

/-- `SHA256Transform` reads the 64 bytes of its block only. -/
theorem sha256Transform_congr {H : Sha256Words} {cp : ℕ} (hm : ∀ j < 64, m (cp + j) = m' (cp + j)) :
    sha256Transform H m cp = sha256Transform H m' cp := by
  have hW : (fun t => if t < 16 then sha256Word m (cp + 4 * t) else 0) =
      (fun t => if t < 16 then sha256Word m' (cp + 4 * t) else 0) := by
    funext t
    split
    · exact sha256Word_congr fun j hj => by rw [Nat.add_assoc, hm _ (by omega), ← Nat.add_assoc]
    · rfl
  simp only [sha256Transform, hW]

/-- The block loop reads the `64 k` bytes from `i` on. -/
theorem sha256Blocks_congr {k i : ℕ} {H : Sha256Words}
    (hm : ∀ x, i ≤ x → x < i + 64 * k → m x = m' x) :
    sha256Blocks (fun H i => sha256Transform H m i) k i H =
      sha256Blocks (fun H i => sha256Transform H m' i) k i H := by
  induction k generalizing i H with
  | zero => rw [sha256Blocks, sha256Blocks]
  | succ k ih =>
    have ht : sha256Transform H m i = sha256Transform H m' i :=
      sha256Transform_congr fun j hj => hm _ (by omega) (by omega)
    rw [sha256Blocks, sha256Blocks, ht]
    exact ih fun x hx hx' => hm x (by omega) (by omega)

/-- `zio_checksum_SHA256` reads the bytes below `size` only. -/
theorem zioChecksumSHA256_congr {size : ℕ} (hm : ∀ x < size, m x = m' x) :
    zioChecksumSHA256 m size = zioChecksumSHA256 m' size := by
  have hblocks : sha256Blocks (fun H i => sha256Transform H m i) (size / 64) 0 sha256H0 =
      sha256Blocks (fun H i => sha256Transform H m' i) (size / 64) 0 sha256H0 :=
    sha256Blocks_congr fun x _ hx => hm x (by omega)
  have hpad : Buffer.copy (fun _ => 0) m 0 (size / 64 * 64) (size - size / 64 * 64) =
      Buffer.copy (fun _ => 0) m' 0 (size / 64 * 64) (size - size / 64 * 64) :=
    Buffer.copy_congr fun k hk => hm _ (by omega)
  simp only [zioChecksumSHA256, hblocks, hpad]

end Reads

end ZfsOsx.Checksum
