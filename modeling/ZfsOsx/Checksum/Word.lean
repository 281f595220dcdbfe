import ZfsOsx.Lib.Endian
import ZfsOsx.Compress.Zio

/-!
# Host words and checksum values

The checksum code reads a buffer through `uint64_t *` and `uint32_t *`, so what
it computes depends on the byte order of the host: `load64`, `load32` and
`store64` are those accesses on a host of order `h`, over `Endian.load` and
`Endian.store`. A `zio_cksum_t` is four such words; `storeCksum` is a struct
assignment into a buffer, that is a copy of its 32 bytes in the host's order.

`BSWAP_64` and `BSWAP_32` are the macros of `sys/byteorder.h`, built from
masks and shifts; `bswap64_toNat` and `bswap32_toNat` show they reverse the
bytes of a word, so that

* `load64_swap`, `load32_swap`, `store64_swap`: a word read or written on a
  host of the other order is the byte-swapped word;
* `loadCksum_swap`, `storeCksum_swap`: the same for a `zio_cksum_t` and
  `byteswap_uint64_array`;
* `loadCksum_storeCksum`, `storeCksum_loadCksum`, `storeCksum_storeCksum`: a
  checksum read back after a store, a store of what was read, two stores;
* `load32_byteswapUint32Array`: after `byteswap_uint32_array` each word reads
  as it did in the other byte order;
* `zioChecksumEqual_iff`: `ZIO_CHECKSUM_EQUAL` is equality.
-/
namespace ZfsOsx.Checksum

open Endian ByteOrder
open ZfsOsx.Compress (Buf)

/-- `BSWAP_8(x)`.
mirrors lib/libspl/include/sys/byteorder.h:98 -/
def bswap8 (x : UInt64) : UInt64 := x &&& 0xff

/-- `BSWAP_16(x)`.
mirrors lib/libspl/include/sys/byteorder.h:99 -/
def bswap16 (x : UInt64) : UInt64 := (bswap8 x <<< 8) ||| bswap8 (x >>> 8)

/-- `BSWAP_32(x)`. The code applies it to a `uint32_t` and to the low half of a
`uint64_t`; in both the shifted half stays below `2 ^ 32`, so one 64-bit
model serves.
mirrors lib/libspl/include/sys/byteorder.h:100 -/
def bswap32 (x : UInt64) : UInt64 := (bswap16 x <<< 16) ||| bswap16 (x >>> 16)

/-- `BSWAP_64(x)`.
mirrors lib/libspl/include/sys/byteorder.h:101 -/
def bswap64 (x : UInt64) : UInt64 := (bswap32 x <<< 32) ||| bswap32 (x >>> 32)

/-- `*(uint64_t *)(buf + a)` on a host of byte order `h`. -/
def load64 (h : ByteOrder) (m : Buf) (a : ℕ) : UInt64 := UInt64.ofNat (load h m a 8)

/-- `*(uint32_t *)(buf + a)` on a host of byte order `h`. -/
def load32 (h : ByteOrder) (m : Buf) (a : ℕ) : UInt32 := UInt32.ofNat (load h m a 4)

/-- `*(uint64_t *)(buf + a) = v` on a host of byte order `h`. -/
def store64 (h : ByteOrder) (m : Buf) (a : ℕ) (v : UInt64) : Buf := store h m a 8 v.toNat

/-- `*(uint32_t *)(buf + a) = v` on a host of byte order `h`. -/
def store32 (h : ByteOrder) (m : Buf) (a : ℕ) (v : UInt32) : Buf := store h m a 4 v.toNat

/-- `zio_cksum_t`, the four words `zc_word[0..3]`.
mirrors include/sys/spa.h:64-66 -/
@[ext] structure ZioCksum where
  word0 : UInt64
  word1 : UInt64
  word2 : UInt64
  word3 : UInt64
  deriving DecidableEq, Repr

/-- `zc_word[j]`. -/
def ZioCksum.word (zc : ZioCksum) : ℕ → UInt64
  | 0 => zc.word0
  | 1 => zc.word1
  | 2 => zc.word2
  | _ => zc.word3

/-- A `zio_cksum_t` read out of a buffer at `a` on a host of order `h`. -/
def loadCksum (h : ByteOrder) (m : Buf) (a : ℕ) : ZioCksum :=
  ⟨load64 h m a, load64 h m (a + 8), load64 h m (a + 16), load64 h m (a + 24)⟩

/-- The 32 bytes of `zc` in memory on a host of order `h`: its words in turn,
each in the host's order. -/
@[grind] def cksumBytes (h : ByteOrder) (zc : ZioCksum) (k : ℕ) : UInt8 :=
  byte h 8 (zc.word (k / 8)).toNat (k % 8)

/-- A `zio_cksum_t` assigned into a buffer at `a` on a host of order `h`. -/
def storeCksum (h : ByteOrder) (m : Buf) (a : ℕ) (zc : ZioCksum) : Buf :=
  Buffer.copy m (cksumBytes h zc) a 0 32

/-- `byteswap_uint64_array(&zc, sizeof (zio_cksum_t))`: `BSWAP_64` on each
word.
mirrors module/zfs/dmu.c:2003-2013 -/
def byteswapCksum (zc : ZioCksum) : ZioCksum :=
  ⟨bswap64 zc.word0, bswap64 zc.word1, bswap64 zc.word2, bswap64 zc.word3⟩

/-- The loop of `byteswap_uint32_array` over the `k` words from word `i` on:
`buf[i] = BSWAP_32(buf[i])`. -/
def byteswapUint32Loop (h : ByteOrder) : ℕ → ℕ → Buf → Buf
  | 0, _, m => m
  | k + 1, i, m =>
    byteswapUint32Loop h k (i + 1) (store32 h m (4 * i) (bswap32 (load32 h m (4 * i)).toUInt64).toUInt32)

/-- `byteswap_uint32_array(buf, size)` on a host of order `h`: `BSWAP_32` on
each of the `size >> 2` words.
mirrors module/zfs/dmu.c:2015-2026 -/
def byteswapUint32Array (h : ByteOrder) (buf : Buf) (size : ℕ) : Buf :=
  byteswapUint32Loop h (size >>> 2) 0 buf

/-- `ZIO_CHECKSUM_EQUAL(zc1, zc2)`.
mirrors include/sys/spa.h:288-292 -/
def zioChecksumEqual (zc1 zc2 : ZioCksum) : Bool :=
  0 == ((zc1.word0 - zc2.word0) ||| (zc1.word1 - zc2.word1) |||
    (zc1.word2 - zc2.word2) ||| (zc1.word3 - zc2.word3))

section Swap

/-- `a <<< s ||| b` with `b` below the shift and `a` small enough not to
overflow is `a * 2 ^ s + b`. -/
theorem toNat_shiftLeft_or {a b s : UInt64} (hs : s.toNat < 64) (ha : a.toNat < 2 ^ (64 - s.toNat))
    (hb : b.toNat < 2 ^ s.toNat) : (a <<< s ||| b).toNat = a.toNat * 2 ^ s.toNat + b.toNat := by
  have hlt : a.toNat <<< s.toNat < 2 ^ 64 := by
    rw [Nat.shiftLeft_eq]
    calc a.toNat * 2 ^ s.toNat < 2 ^ (64 - s.toNat) * 2 ^ s.toNat :=
          Nat.mul_lt_mul_of_pos_right ha (by positivity)
      _ = 2 ^ 64 := by rw [← pow_add, Nat.sub_add_cancel hs.le]
  rw [UInt64.toNat_or, UInt64.toNat_shiftLeft, Nat.mod_eq_of_lt hs, Nat.mod_eq_of_lt hlt,
    ← Nat.shiftLeft_add_eq_or_of_lt hb, Nat.shiftLeft_eq]

theorem toNat_shiftRight (x s : UInt64) (hs : s.toNat < 64) : (x >>> s).toNat = x.toNat / 2 ^ s.toNat := by
  rw [UInt64.toNat_shiftRight, Nat.mod_eq_of_lt hs, Nat.shiftRight_eq_div_pow]

theorem bswap8_toNat (x : UInt64) : (bswap8 x).toNat = reverse 1 x.toNat := by
  rw [bswap8, UInt64.toNat_and, reverse_one]
  exact Nat.and_two_pow_sub_one_eq_mod x.toNat 8

/-- One level of the macros: swapping the halves of a `2k`-byte word, each
with a `k`-byte swap, reverses it. -/
theorem toNat_swapHalves {f : UInt64 → UInt64} {k : ℕ} (hk : k ≤ 4)
    (hf : ∀ y, (f y).toNat = reverse k y.toNat) (x s : UInt64) (hs : s.toNat = 8 * k) :
    ((f x <<< s) ||| f (x >>> s)).toNat = reverse (k + k) x.toNat := by
  have hpow : (2 : ℕ) ^ s.toNat = 256 ^ k := by
    rw [hs, pow_mul]
    norm_num
  have hlt : ∀ y, (f y).toNat < 2 ^ s.toNat := fun y => by
    rw [hf, hpow]
    exact reverse_lt
  have hle : (2 : ℕ) ^ s.toNat ≤ 2 ^ (64 - s.toNat) := Nat.pow_le_pow_right (by norm_num) (by omega)
  rw [toNat_shiftLeft_or (by omega) ((hlt x).trans_le hle) (hlt _), hf, hf,
    toNat_shiftRight _ _ (by omega), hpow, reverse_add]
  ring

theorem bswap16_toNat (x : UInt64) : (bswap16 x).toNat = reverse 2 x.toNat :=
  toNat_swapHalves (by norm_num) bswap8_toNat x 8 rfl

theorem bswap32_toNat (x : UInt64) : (bswap32 x).toNat = reverse 4 x.toNat :=
  toNat_swapHalves (by norm_num) bswap16_toNat x 16 rfl

theorem bswap64_toNat (x : UInt64) : (bswap64 x).toNat = reverse 8 x.toNat :=
  toNat_swapHalves (by norm_num) bswap32_toNat x 32 rfl

theorem bswap64_bswap64 (x : UInt64) : bswap64 (bswap64 x) = x :=
  UInt64.ext (by rw [bswap64_toNat, bswap64_toNat, reverse_reverse x.toNat_lt])

end Swap

section Memory

variable {h : ByteOrder} {m m' : Buf} {a b x : ℕ} {v w : UInt64}

theorem toNat_lt_pow (v : UInt64) : v.toNat < 256 ^ 8 :=
  v.toNat_lt.trans_eq (by norm_num)

theorem load64_toNat : (load64 h m a).toNat = load h m a 8 :=
  UInt64.toNat_ofNat_of_lt' load_lt

theorem load32_toNat : (load32 h m a).toNat = load h m a 4 :=
  UInt32.toNat_ofNat_of_lt' load_lt

theorem load64_swap : load64 h.swap m a = bswap64 (load64 h m a) :=
  UInt64.ext (by rw [bswap64_toNat, load64_toNat, load64_toNat, load_swap])

theorem load32_swap : (load32 h.swap m a).toUInt64 = bswap32 (load32 h m a).toUInt64 :=
  UInt64.ext (by rw [bswap32_toNat, UInt32.toNat_toUInt64, UInt32.toNat_toUInt64, load32_toNat,
    load32_toNat, load_swap])

theorem load64_congr (hm : ∀ k < 8, m (a + k) = m' (a + k)) : load64 h m a = load64 h m' a := by
  rw [load64, load64, load_congr hm]

theorem load32_congr (hm : ∀ k < 4, m (a + k) = m' (a + k)) : load32 h m a = load32 h m' a := by
  rw [load32, load32, load_congr hm]

theorem load64_store64 : load64 h (store64 h m a v) a = v :=
  UInt64.ext (by rw [load64_toNat, store64, load_store, Nat.mod_eq_of_lt (toNat_lt_pow v)])


theorem store64_swap : store64 h.swap m a v = store64 h m a (bswap64 v) := by
  rw [store64, store64, store_swap, bswap64_toNat]

theorem store64_apply_of_lt (hx : x < a) : store64 h m a v x = m x := store_apply_of_lt hx

theorem store64_apply_of_le (hx : a + 8 ≤ x) : store64 h m a v x = m x := store_apply_of_le hx


theorem load32_store32 {v : UInt32} : load32 h (store32 h m a v) a = v :=
  UInt32.ext (by rw [load32_toNat, store32, load_store, Nat.mod_eq_of_lt (by simpa using v.toNat_lt)])

/-- A word read in either order beside a word just stored. -/
theorem load32_store32_of_disjoint (o : ByteOrder) {v : UInt32} (hd : b + 4 ≤ a ∨ a + 4 ≤ b) :
    load32 o (store32 h m a v) b = load32 o m b :=
  load32_congr fun k hk => by
    rcases hd with hd | hd
    · exact store_apply_of_lt (by omega)
    · exact store_apply_of_le (by omega)

/-- `BSWAP_32` of a word is the word read in the other byte order. -/
theorem bswap32_load32 : (bswap32 (load32 h m a).toUInt64).toUInt32 = load32 h.swap m a := by
  rw [← load32_swap, UInt32.toUInt32_toUInt64]

/-- After the loop over words `i, …, i + k - 1`, those words read as before
in the other byte order, and the others as before. -/
theorem load32_byteswapUint32Loop {k i j : ℕ} :
    load32 h (byteswapUint32Loop h k i m) (4 * j) =
      if i ≤ j ∧ j < i + k then load32 h.swap m (4 * j) else load32 h m (4 * j) := by
  induction k generalizing i m with
  | zero => rw [byteswapUint32Loop, if_neg (by omega)]
  | succ k ih =>
    rw [byteswapUint32Loop, ih, bswap32_load32]
    by_cases hji : j = i
    · -- the word this pass swapped, which no later pass touches
      subst hji
      simp [load32_store32]
    · -- another word: the store at `4 i` does not reach it
      have hd : 4 * j + 4 ≤ 4 * i ∨ 4 * i + 4 ≤ 4 * j := by omega
      rw [load32_store32_of_disjoint _ hd, load32_store32_of_disjoint _ hd]
      congr 1
      apply propext
      omega

theorem load32_byteswapUint32Array {size j : ℕ} (hj : j < size / 4) :
    load32 h (byteswapUint32Array h m size) (4 * j) = load32 h.swap m (4 * j) := by
  rw [byteswapUint32Array, load32_byteswapUint32Loop, Nat.shiftRight_eq_div_pow, if_pos (by omega)]

theorem word_lt {k : ℕ} (hk : k < 32) : k / 8 < 4 := by omega

theorem byteswapCksum_word (zc : ZioCksum) {j : ℕ} (hj : j < 4) :
    (byteswapCksum zc).word j = bswap64 (zc.word j) := by
  match j, hj with
  | 0, _ | 1, _ | 2, _ | 3, _ => rfl

theorem loadCksum_word {j : ℕ} (hj : j < 4) : (loadCksum h m a).word j = load64 h m (a + 8 * j) := by
  match j, hj with
  | 0, _ | 1, _ | 2, _ | 3, _ => rfl

theorem byteswapCksum_byteswapCksum (zc : ZioCksum) : byteswapCksum (byteswapCksum zc) = zc := by
  simp only [byteswapCksum, bswap64_bswap64]

/-- Word `j` of a checksum just stored. -/
theorem load64_storeCksum (zc : ZioCksum) {j : ℕ} (hj : j < 4) :
    load64 h (storeCksum h m a zc) (a + 8 * j) = zc.word j := by
  apply UInt64.ext
  rw [load64_toNat, load_of_byte (v := (zc.word j).toNat) fun k hk => ?_, Nat.mod_eq_of_lt (toNat_lt_pow _)]
  rw [storeCksum, Nat.add_assoc, Buffer.copy_apply_add _ _ _ _ (by omega : 8 * j + k < 32), Nat.zero_add,
    cksumBytes, show (8 * j + k) / 8 = j by omega, show (8 * j + k) % 8 = k by omega]

theorem loadCksum_storeCksum (zc : ZioCksum) : loadCksum h (storeCksum h m a zc) a = zc := by
  refine ZioCksum.ext ?_ ?_ ?_ ?_
  · exact load64_storeCksum zc (j := 0) (by decide)
  · exact load64_storeCksum zc (j := 1) (by decide)
  · exact load64_storeCksum zc (j := 2) (by decide)
  · exact load64_storeCksum zc (j := 3) (by decide)

theorem storeCksum_loadCksum : storeCksum h m a (loadCksum h m a) = m :=
  Buffer.copy_of_eq fun k hk => by
    rw [Nat.zero_add, cksumBytes, loadCksum_word (word_lt hk), load64_toNat, byte_load (by omega),
      Nat.add_assoc, Nat.div_add_mod]

theorem storeCksum_storeCksum (zc zc' : ZioCksum) :
    storeCksum h (storeCksum h m a zc) a zc' = storeCksum h m a zc' :=
  Buffer.copy_copy _ _ _ _ _ _ _

theorem loadCksum_swap : loadCksum h.swap m a = byteswapCksum (loadCksum h m a) := by
  simp only [loadCksum, byteswapCksum, load64_swap]

theorem storeCksum_swap (zc : ZioCksum) : storeCksum h.swap m a zc = storeCksum h m a (byteswapCksum zc) :=
  Buffer.copy_congr fun k hk => by
    rw [Nat.zero_add, cksumBytes, cksumBytes, byteswapCksum_word zc (word_lt hk), bswap64_toNat,
      byte_reverse (by omega)]

theorem loadCksum_congr (hm : ∀ k < 32, m (a + k) = m' (a + k)) : loadCksum h m a = loadCksum h m' a := by
  have hw : ∀ j < 4, load64 h m (a + 8 * j) = load64 h m' (a + 8 * j) := fun j hj =>
    load64_congr fun k hk => by rw [Nat.add_assoc]; exact hm _ (by omega)
  simp only [loadCksum]
  congr 1
  · exact hw 0 (by decide)
  · exact hw 1 (by decide)
  · exact hw 2 (by decide)
  · exact hw 3 (by decide)

theorem storeCksum_apply_of_lt {zc : ZioCksum} (hx : x < a) : storeCksum h m a zc x = m x :=
  Buffer.copy_apply_of_lt hx


theorem storeCksum_apply_congr {zc : ZioCksum} (hx : m x = m' x) :
    storeCksum h m a zc x = storeCksum h m' a zc x := by
  simp only [storeCksum, Buffer.copy]
  split
  · rfl
  · exact hx

end Memory

theorem zioChecksumEqual_iff (zc1 zc2 : ZioCksum) : zioChecksumEqual zc1 zc2 = true ↔ zc1 = zc2 := by
  simp only [zioChecksumEqual, beq_iff_eq, eq_comm (a := (0 : UInt64)), UInt64.or_eq_zero_iff, sub_eq_zero,
    ZioCksum.ext_iff, and_assoc]

end ZfsOsx.Checksum
