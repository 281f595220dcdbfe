import ZfsOsx.Checksum.Word

/-!
# Fletcher checksums (`module/zcommon/zfs_fletcher.c`)

`fletcher_2_*` walks the buffer as 64-bit words two at a time and
`fletcher_4_*` as 32-bit words one at a time; the `_byteswap` variants swap
each word before adding it. Each family is one loop, `fletcher2Loop` and
`fletcher4Loop`, over a function giving the `i`-th word, and the four routines
are that loop applied to the words as the host reads them.

* `fletcher2Byteswap_eq`, `fletcher4Byteswap_eq`: the byte-swapping variant on
  a host is the native one on a host of the other byte order, which is why a
  reader whose order differs from the writer's calls it.
* `fletcher2Native_congr`, `fletcher4Native_congr`: the bytes each one reads.
  `fletcher_2` consumes its words in pairs, so for a `size` that is 8 modulo 16
  it reads the 8 bytes after the buffer.
* `fletcher4Loop_add`: the loop over `k + k'` words is the loop over `k`, then
  over `k'`; from it `fletcher4IncrementalNative_append`, two incremental calls
  are one over the two buffers end to end, and
  `fletcher4IncrementalByteswap_eq`, a byte-swapping call is a native one over
  the words `byteswap_uint32_array` reverses.
-/
namespace ZfsOsx.Checksum

open Endian ByteOrder
open ZfsOsx.Compress (Buf)

/-- The loop of `fletcher_2_native` and `fletcher_2_byteswap` from word `ip`
on, with `k` iterations left; the accumulator holds `a0, a1, b0, b1` in the
order `ZIO_SET_CHECKSUM` stores them.
mirrors module/zcommon/zfs_fletcher.c:141-146 -/
def fletcher2Loop (word : ℕ → UInt64) : ℕ → ℕ → ZioCksum → ZioCksum
  | 0, _, zc => zc
  | k + 1, ip, ⟨a0, a1, b0, b1⟩ =>
    fletcher2Loop word k (ip + 2)
      ⟨a0 + word ip, a1 + word (ip + 1), b0 + (a0 + word ip), b1 + (a1 + word (ip + 1))⟩

/-- `fletcher_2_*` over the words `word i`: `ipend` is `size / 8` words on, and
the loop `for (ip = buf; ip < ipend; ip += 2)` runs `(size / 8 + 1) / 2` times.
mirrors module/zcommon/zfs_fletcher.c:135-149 -/
def fletcher2 (word : ℕ → UInt64) (size : ℕ) : ZioCksum :=
  fletcher2Loop word ((size / 8 + 1) / 2) 0 ⟨0, 0, 0, 0⟩

/-- `fletcher_2_native(buf, size, zcp)` on a host of order `h`.
mirrors module/zcommon/zfs_fletcher.c:135-149 -/
def fletcher2Native (h : ByteOrder) (buf : Buf) (size : ℕ) : ZioCksum :=
  fletcher2 (fun i => load64 h buf (8 * i)) size

/-- `fletcher_2_byteswap(buf, size, zcp)` on a host of order `h`.
mirrors module/zcommon/zfs_fletcher.c:151-166 -/
def fletcher2Byteswap (h : ByteOrder) (buf : Buf) (size : ℕ) : ZioCksum :=
  fletcher2 (fun i => bswap64 (load64 h buf (8 * i))) size

/-- The loop of `fletcher_4_native` and `fletcher_4_byteswap` from word `ip`
on, with `k` iterations left; the accumulator holds `a, b, c, d`.
mirrors module/zcommon/zfs_fletcher.c:175-180 -/
@[grind] def fletcher4Loop (word : ℕ → UInt64) : ℕ → ℕ → ZioCksum → ZioCksum
  | 0, _, zc => zc
  | k + 1, ip, ⟨a, b, c, d⟩ =>
    fletcher4Loop word k (ip + 1)
      ⟨a + word ip, b + (a + word ip), c + (b + (a + word ip)), d + (c + (b + (a + word ip)))⟩

/-- `fletcher_4_*` over the 32-bit words `word i`, widened: the loop runs
`size / 4` times.
mirrors module/zcommon/zfs_fletcher.c:169-183 -/
def fletcher4 (word : ℕ → UInt64) (size : ℕ) : ZioCksum :=
  fletcher4Loop word (size / 4) 0 ⟨0, 0, 0, 0⟩

/-- `fletcher_4_native(buf, size, zcp)` on a host of order `h`.
mirrors module/zcommon/zfs_fletcher.c:169-183 -/
def fletcher4Native (h : ByteOrder) (buf : Buf) (size : ℕ) : ZioCksum :=
  fletcher4 (fun i => (load32 h buf (4 * i)).toUInt64) size

/-- `fletcher_4_byteswap(buf, size, zcp)` on a host of order `h`.
mirrors module/zcommon/zfs_fletcher.c:185-199 -/
def fletcher4Byteswap (h : ByteOrder) (buf : Buf) (size : ℕ) : ZioCksum :=
  fletcher4 (fun i => bswap32 (load32 h buf (4 * i)).toUInt64) size

/-- `fletcher_4_incremental_native(buf, size, zcp)` on a host of order `h`:
the loop of `fletcher_4_native`, from the checksum `zcp` holds.
mirrors module/zcommon/zfs_fletcher.c:201-222 -/
def fletcher4IncrementalNative (h : ByteOrder) (buf : Buf) (size : ℕ) (zcp : ZioCksum) : ZioCksum :=
  fletcher4Loop (fun i => (load32 h buf (4 * i)).toUInt64) (size / 4) 0 zcp

/-- `fletcher_4_incremental_byteswap(buf, size, zcp)` on a host of order `h`.
mirrors module/zcommon/zfs_fletcher.c:224-245 -/
def fletcher4IncrementalByteswap (h : ByteOrder) (buf : Buf) (size : ℕ) (zcp : ZioCksum) : ZioCksum :=
  fletcher4Loop (fun i => bswap32 (load32 h buf (4 * i)).toUInt64) (size / 4) 0 zcp

section Reads

variable {word word' : ℕ → UInt64}

/-- The loop reads the `2 k` words from `ip` on. -/
theorem fletcher2Loop_congr {k ip : ℕ} {zc : ZioCksum}
    (h : ∀ i, ip ≤ i → i < ip + 2 * k → word i = word' i) :
    fletcher2Loop word k ip zc = fletcher2Loop word' k ip zc := by
  induction k generalizing ip zc with
  | zero => rfl
  | succ k ih =>
    obtain ⟨a0, a1, b0, b1⟩ := zc
    have h0 := h ip (Nat.le_refl _) (by omega)
    have h1 := h (ip + 1) (by omega) (by omega)
    simp only [fletcher2Loop, h0, h1]
    exact ih fun i hi hi' => h i (by omega) (by omega)

/-- The loop reads the `k` words from `ip` on. -/
theorem fletcher4Loop_congr {k ip : ℕ} {zc : ZioCksum}
    (h : ∀ i, ip ≤ i → i < ip + k → word i = word' i) :
    fletcher4Loop word k ip zc = fletcher4Loop word' k ip zc := by
  induction k generalizing ip zc with
  | zero => rfl
  | succ k ih =>
    obtain ⟨a, b, c, d⟩ := zc
    have h0 := h ip (Nat.le_refl _) (by omega)
    simp only [fletcher4Loop, h0]
    exact ih fun i hi hi' => h i (by omega) (by omega)

variable {h : ByteOrder} {m m' : Buf} {size : ℕ}

/-- `fletcher_2_native` reads the bytes below `16 ⌈size / 16⌉`, which is
`size` when `size` is a multiple of 16. -/
theorem fletcher2Native_congr (hm : ∀ x < 16 * ((size / 8 + 1) / 2), m x = m' x) :
    fletcher2Native h m size = fletcher2Native h m' size :=
  fletcher2Loop_congr fun i _ hi => load64_congr fun k hk => hm _ (by omega)

/-- `fletcher_4_native` reads the bytes below `size`. -/
theorem fletcher4Native_congr (hm : ∀ x < size, m x = m' x) :
    fletcher4Native h m size = fletcher4Native h m' size :=
  fletcher4Loop_congr fun i _ hi => by
    rw [load32_congr fun k hk => hm _ (by omega)]

theorem fletcher2Byteswap_eq : fletcher2Byteswap h m size = fletcher2Native h.swap m size := by
  simp only [fletcher2Byteswap, fletcher2Native, load64_swap]

theorem fletcher4Byteswap_eq : fletcher4Byteswap h m size = fletcher4Native h.swap m size := by
  simp only [fletcher4Byteswap, fletcher4Native, load32_swap]

end Reads

/-! ## Checksums over several calls

The send stream is checksummed record by record with the incremental
variants, and a receiver of the other byte order uses the byte-swapping
ones. -/

section Incremental

variable {word : ℕ → UInt64} {h : ByteOrder} {m X Y : Buf} {k k' ip j sx sy size : ℕ}
  {zc : ZioCksum}

/-- Running the loop over `k + k'` words is running it over `k`, then over
`k'` more from where it stopped. -/
theorem fletcher4Loop_add :
    fletcher4Loop word (k + k') ip zc = fletcher4Loop word k' (ip + k) (fletcher4Loop word k ip zc) := by
  induction k generalizing ip zc with
  | zero => rw [Nat.zero_add, Nat.add_zero]; rfl
  | succ k ih =>
    obtain ⟨a, b, c, d⟩ := zc
    simp only [Nat.succ_add, fletcher4Loop]
    rw [ih, show ip + 1 + k = ip + (k + 1) by omega]

/-- The loop from word `ip + j` is the loop from `ip` over the words from
`j` on. -/
theorem fletcher4Loop_shift :
    fletcher4Loop word k (ip + j) zc = fletcher4Loop (fun i => word (i + j)) k ip zc := by
  induction k generalizing ip zc with
  | zero => rfl
  | succ k ih =>
    obtain ⟨a, b, c, d⟩ := zc
    simp only [fletcher4Loop]
    rw [← ih, show ip + 1 + j = ip + j + 1 by omega]

theorem load32_copy_of_lt {i : ℕ} (hi : 4 * i + 4 ≤ sx) :
    load32 h (Buffer.copy X Y sx 0 sy) (4 * i) = load32 h X (4 * i) :=
  load32_congr fun _ _ => Buffer.copy_apply_of_lt (by omega)

theorem load32_copy_add {i : ℕ} (hi : 4 * i + 4 ≤ sy) :
    load32 h (Buffer.copy X Y sx 0 sy) (sx + 4 * i) = load32 h Y (4 * i) := by
  unfold load32
  congr 1
  exact load_congr fun k hk => by
    rw [Nat.add_assoc, Buffer.copy_apply_add _ _ _ _ (show 4 * i + k < sy by omega), Nat.zero_add]

/-- The loop over the 32-bit words of `X` and then over those of `Y`, each
widened by `g`, is the loop over those of `X` followed by `Y`, when the size
of `X` is a multiple of 4. -/
theorem fletcher4Loop_append (g : UInt32 → UInt64) (hx : sx % 4 = 0) :
    fletcher4Loop (fun i => g (load32 h Y (4 * i))) (sy / 4) 0
        (fletcher4Loop (fun i => g (load32 h X (4 * i))) (sx / 4) 0 zc) =
      fletcher4Loop (fun i => g (load32 h (Buffer.copy X Y sx 0 sy) (4 * i))) ((sx + sy) / 4) 0 zc := by
  have hsize : (sx + sy) / 4 = sx / 4 + sy / 4 := by omega
  have hsx : 4 * (sx / 4) = sx := by omega
  -- below `sx` the words are those of `X`
  have hX : fletcher4Loop (fun i => g (load32 h (Buffer.copy X Y sx 0 sy) (4 * i))) (sx / 4) 0 zc =
      fletcher4Loop (fun i => g (load32 h X (4 * i))) (sx / 4) 0 zc :=
    fletcher4Loop_congr fun i _ hi => by rw [load32_copy_of_lt (by omega)]
  -- from `sx` on they are those of `Y`
  have hY : ∀ z, fletcher4Loop (fun i => g (load32 h (Buffer.copy X Y sx 0 sy) (4 * i))) (sy / 4)
      (sx / 4) z = fletcher4Loop (fun i => g (load32 h Y (4 * i))) (sy / 4) 0 z := fun z => by
    rw [← Nat.zero_add (sx / 4), fletcher4Loop_shift]
    exact fletcher4Loop_congr fun i _ hi => by
      rw [Nat.mul_add, hsx, Nat.add_comm (4 * i) sx, load32_copy_add (by omega)]
  rw [hsize, fletcher4Loop_add, Nat.zero_add, hX, hY]

/-- Two incremental calls, over `X` and then over `Y`, are one call over `X`
followed by `Y`. -/
theorem fletcher4IncrementalNative_append (hx : sx % 4 = 0) :
    fletcher4IncrementalNative h Y sy (fletcher4IncrementalNative h X sx zc) =
      fletcher4IncrementalNative h (Buffer.copy X Y sx 0 sy) (sx + sy) zc :=
  fletcher4Loop_append UInt32.toUInt64 hx

theorem fletcher4IncrementalByteswap_append (hx : sx % 4 = 0) :
    fletcher4IncrementalByteswap h Y sy (fletcher4IncrementalByteswap h X sx zc) =
      fletcher4IncrementalByteswap h (Buffer.copy X Y sx 0 sy) (sx + sy) zc :=
  fletcher4Loop_append (fun w => bswap32 w.toUInt64) hx

/-- The byte-swapping loop is the native one over the buffer with every
32-bit word reversed by `byteswap_uint32_array`. -/
theorem fletcher4IncrementalByteswap_eq :
    fletcher4IncrementalByteswap h m size zc =
      fletcher4IncrementalNative h (byteswapUint32Array h m size) size zc :=
  fletcher4Loop_congr fun i _ hi => by
    rw [load32_byteswapUint32Array (by omega), load32_swap]

/-- The send stream's checksum: incremental calls over consecutive buffers,
the first a whole number of 32-bit words, give the checksum of the whole, in
either byte order; and the byte-swapping variants are the native ones over
the buffer with every 32-bit word reversed. -/
theorem fletcher_4_incremental_agree (h : ByteOrder) (X Y B : Buf) (sx sy size : ℕ) (zc : ZioCksum)
    (hx : sx % 4 = 0) :
    fletcher4IncrementalNative h Y sy (fletcher4IncrementalNative h X sx ⟨0, 0, 0, 0⟩) =
        fletcher4Native h (Buffer.copy X Y sx 0 sy) (sx + sy) ∧
      fletcher4IncrementalByteswap h Y sy (fletcher4IncrementalByteswap h X sx ⟨0, 0, 0, 0⟩) =
        fletcher4Byteswap h (Buffer.copy X Y sx 0 sy) (sx + sy) ∧
      fletcher4Byteswap h B size = fletcher4Native h (byteswapUint32Array h B size) size ∧
      fletcher4IncrementalByteswap h B size zc =
        fletcher4IncrementalNative h (byteswapUint32Array h B size) size zc :=
  ⟨fletcher4IncrementalNative_append hx, fletcher4IncrementalByteswap_append hx,
    fletcher4IncrementalByteswap_eq, fletcher4IncrementalByteswap_eq⟩

theorem fletcher_4_incremental_agree_words :
    8 % 4 = 0 ∧
    fletcher4IncrementalNative little (fun i => UInt8.ofNat (i + 1)) 4
        (fletcher4IncrementalNative little UInt8.ofNat 8 ⟨0, 0, 0, 0⟩) =
      fletcher4Native little (Buffer.copy UInt8.ofNat (fun i => UInt8.ofNat (i + 1)) 8 0 4) (8 + 4) ∧
    fletcher4IncrementalByteswap little (fun i => UInt8.ofNat (i + 1)) 4
        (fletcher4IncrementalByteswap little UInt8.ofNat 8 ⟨0, 0, 0, 0⟩) =
      fletcher4Byteswap little (Buffer.copy UInt8.ofNat (fun i => UInt8.ofNat (i + 1)) 8 0 4) (8 + 4) ∧
    fletcher4Byteswap little UInt8.ofNat 8 =
      fletcher4Native little (byteswapUint32Array little UInt8.ofNat 8) 8 ∧
    fletcher4IncrementalByteswap little UInt8.ofNat 8 ⟨1, 2, 3, 4⟩ =
      fletcher4IncrementalNative little (byteswapUint32Array little UInt8.ofNat 8) 8 ⟨1, 2, 3, 4⟩ :=
  ⟨by decide, fletcher_4_incremental_agree little UInt8.ofNat (fun i => UInt8.ofNat (i + 1))
    UInt8.ofNat 8 4 8 ⟨1, 2, 3, 4⟩ (by decide)⟩

end Incremental

end ZfsOsx.Checksum
