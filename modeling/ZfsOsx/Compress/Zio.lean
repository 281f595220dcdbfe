import ZfsOsx.Compress.Lzjb

/-!
# The compression pipeline (`module/zfs/zio_compress.c`)

`zio_compress_data` is what the write path calls. A source made of zero words
needs no block, and it returns 0. Otherwise it asks the table's algorithm to
fit the source into `d_len`, 7/8 of `s_len` rounded down to whole sectors,
returns `s_len` when that failed, and pads a result it keeps with zeros to a
whole sector. `zio_decompress_data` hands the padded length to the table's
decompressor as the source length.

The gzip rows call zlib, which is not part of this repository: it is the
parameter `Zlib`, and nothing below assumes anything of it.

* `zioCompressData_compressed`: a length strictly between 0 and `s_len` is
  the padded length of a result of the algorithm that fits in `d_len`.
* `zio_lzjb_round_trip`: through the pipeline LZJB gives the source back.
* `zle_round_trip`: so does ZLE, directly for `1 ≤ n ≤ 255` and through the
  pipeline for a positive length; a zero-length result is a hole, which
  `zle_decompress` does not expand (`zle_zio_zero_source`).
-/
namespace ZfsOsx.Compress

open Buffer

/-- `enum zio_compress` (include/sys/zio.h:95-111) -/
inductive ZioCompress
  | inherit | on | off | lzjb | empty
  | gzip1 | gzip2 | gzip3 | gzip4 | gzip5 | gzip6 | gzip7 | gzip8 | gzip9
  | zle
  deriving DecidableEq, Repr

/-- `SPA_MINBLOCKSIZE` (include/sys/spa.h:89) -/
def spaMinblocksize : ℕ := 1 <<< 9

/-- `P2ALIGN(x, align)`, that is `x & -align` for a power of two `align`: `x`
rounded down to a multiple of `align`.
mirrors lib/libspl/include/sys/sysmacros.h:50 -/
def p2align (x align : ℕ) : ℕ := x / align * align

/-- `P2ROUNDUP(x, align)`, that is `-(-x & -align)` for a power of two
`align`: `x` rounded up to a multiple of `align`. The model does not wrap at
`2^64`; the pipeline rounds lengths of at most `s_len`.
mirrors lib/libspl/include/sys/sysmacros.h:52 -/
def p2roundup (x align : ℕ) : ℕ := (x + align - 1) / align * align

/-- Whether the 64-bit word at byte offset `w` is zero. -/
def wordZero (src : Buf) (w : ℕ) : Bool := (List.range 8).all fun k => src (w + k) == 0

/-- `for (word = src; word < word_end; word++) if (*word != 0) break;` from
byte offset `w`, with `n` words left before `word_end`: the offset where the
scan stops.
mirrors module/zfs/zio_compress.c:84-87 -/
def zeroScan (src : Buf) : ℕ → ℕ → ℕ
  | w, 0 => w
  | w, n + 1 => if wordZero src w then zeroScan src (w + 8) n else w

/-- `zio_compress_func_t`, `(src, dst, s_len, d_len, level)`, with the address
of the source, which LZJB's table reads: the destination and the length
returned, `none` for a call that does not return. -/
abbrev CompressFunc := Buf → ℕ → Buf → ℕ → ℕ → ℕ → Option (Buf × ℕ)

/-- `zio_decompress_func_t`, `(src, dst, s_len, d_len, level)`. -/
abbrev DecompressFunc := Buf → Buf → ℕ → ℕ → ℕ → Buf × ℤ

/-- `zio_compress_info_t` without `ci_name`, which nothing here reads. -/
structure ZioCompressInfo where
  compress : Option CompressFunc
  decompress : Option DecompressFunc
  level : ℕ

/-- The zlib calls of `module/zfs/gzip.c`: `compress2(dst, &dstlen, src, s_len,
level)` and `uncompress(dst, &dstlen, src, s_len)`, with `dstlen` set to the
room in `dst`. Each says whether it returned `Z_OK`, and gives the
destination and the `dstlen` it left. -/
structure Zlib where
  compress2 : Buf → ℕ → Buf → ℕ → ℕ → Bool × Buf × ℕ
  uncompress : Buf → ℕ → Buf → ℕ → Bool × Buf × ℕ

/-- `gzip_compress(s_start, d_start, s_len, d_len, n)`.
mirrors module/zfs/gzip.c:51-67 -/
def gzipCompress (z : Zlib) (src dst : Buf) (sLen dLen n : ℕ) : Buf × ℕ :=
  let r := z.compress2 dst dLen src sLen n
  if r.1 then (r.2.1, r.2.2)
  else if dLen ≠ sLen then (r.2.1, sLen)
  else (copy r.2.1 src 0 0 sLen, sLen)

/-- `gzip_decompress(s_start, d_start, s_len, d_len, n)`.
mirrors module/zfs/gzip.c:69-82 -/
def gzipDecompress (z : Zlib) (src dst : Buf) (sLen dLen : ℕ) : Buf × ℤ :=
  let r := z.uncompress dst dLen src sLen
  (r.2.1, if r.1 then 0 else -1)

/-- zlib when no allocation succeeds: both calls return `Z_MEM_ERROR` and
leave the destination alone. -/
def Zlib.memError : Zlib where
  compress2 dst _ _ _ _ := (false, dst, 0)
  uncompress dst _ _ _ := (false, dst, 0)

/-- The LZJB row; `lzjb_compress` and `lzjb_decompress` ignore the level. -/
def lzjbInfo : ZioCompressInfo where
  compress := some fun src sAddr dst sLen dLen _ => lzjbCompress src sAddr dst sLen dLen
  decompress := some fun src dst _ dLen _ => lzjbDecompress src dst dLen
  level := 0

/-- A gzip row. -/
def gzipInfo (z : Zlib) (level : ℕ) : ZioCompressInfo where
  compress := some fun src _ dst sLen dLen n => some (gzipCompress z src dst sLen dLen n)
  decompress := some fun src dst sLen dLen _ => gzipDecompress z src dst sLen dLen
  level := level

/-- The ZLE row. -/
def zleInfo : ZioCompressInfo where
  compress := some fun src _ dst sLen dLen n => zleCompress src dst sLen dLen n
  decompress := some fun src dst sLen dLen n => zleDecompress src dst sLen dLen n
  level := 64

/-- `zio_compress_table`.
mirrors module/zfs/zio_compress.c:37-53 -/
def zioCompressTable (z : Zlib) : ZioCompress → ZioCompressInfo
  | .inherit | .on | .off | .empty => ⟨none, none, 0⟩
  | .lzjb => lzjbInfo
  | .gzip1 => gzipInfo z 1
  | .gzip2 => gzipInfo z 2
  | .gzip3 => gzipInfo z 3
  | .gzip4 => gzipInfo z 4
  | .gzip5 => gzipInfo z 5
  | .gzip6 => gzipInfo z 6
  | .gzip7 => gzipInfo z 7
  | .gzip8 => gzipInfo z 8
  | .gzip9 => gzipInfo z 9
  | .zle => zleInfo

/-- `zio_compress_data(c, src, dst, s_len)` for a source at address `sAddr`:
the destination and the length returned. `none` is a failed `ASSERT` that the
algorithm has a compression function, or a call of it that does not return.
The `ASSERT`s at the end always hold (`zioCompressData_compressed`).
mirrors module/zfs/zio_compress.c:71-119 -/
def zioCompressData (z : Zlib) (c : ZioCompress) (src : Buf) (sAddr : ℕ) (dst : Buf) (sLen : ℕ) :
    Option (Buf × ℕ) :=
  let ci := zioCompressTable z c
  if c ≠ .empty ∧ ci.compress.isNone then none
  else if zeroScan src 0 ((sLen + 7) / 8) = sLen then some (dst, 0)
  else if c = .empty then some (dst, sLen)
  else
    let dLen := p2align (sLen - (sLen >>> 3)) spaMinblocksize
    if dLen = 0 then some (dst, sLen)
    else
      match ci.compress with
      | none => none
      | some f => (f src sAddr dst sLen dLen ci.level).map fun r =>
        if r.2 > dLen then (r.1, sLen)
        else
          -- pad the last sector with zeros
          let rLen := p2roundup r.2 spaMinblocksize
          if rLen > r.2 then (fill r.1 r.2 (rLen - r.2) 0, rLen) else r

/-- `EINVAL` -/
def einval : ℤ := 22

/-- `zio_decompress_data(c, src, dst, s_len, d_len)`.
mirrors module/zfs/zio_compress.c:121-132 -/
def zioDecompressData (z : Zlib) (c : ZioCompress) (src dst : Buf) (sLen dLen : ℕ) : Buf × ℤ :=
  let ci := zioCompressTable z c
  match ci.decompress with
  | none => (dst, einval)
  | some f => f src dst sLen dLen ci.level

/-! ## Sectors -/

section Sectors

variable {x y : ℕ}

theorem le_p2roundup : x ≤ p2roundup x spaMinblocksize := by
  simp only [p2roundup, spaMinblocksize, show (1 <<< 9 : ℕ) = 512 from rfl]
  omega

/-- A length that fits in whole sectors still fits once rounded up to a
sector. -/
theorem p2roundup_le_p2align (h : x ≤ p2align y spaMinblocksize) :
    p2roundup x spaMinblocksize ≤ p2align y spaMinblocksize := by
  simp only [p2roundup, p2align, spaMinblocksize, show (1 <<< 9 : ℕ) = 512 from rfl] at h ⊢
  omega

/-- The zero padding of a result that fits in `d_len` stays below `d_len`, so
the pipeline writes from `d_len` on only what the algorithm wrote there. -/
theorem fill_pad_of_le {dst dst₁ : Buf} {cLen : ℕ} (hfit : cLen ≤ p2align y spaMinblocksize)
    (hframe : ∀ x, p2align y spaMinblocksize ≤ x → dst₁ x = dst x) :
    ∀ x, p2align y spaMinblocksize ≤ x →
      fill dst₁ cLen (p2roundup cLen spaMinblocksize - cLen) 0 x = dst x := by
  intro x hx
  have hup := le_p2roundup (x := cLen)
  have hpad := p2roundup_le_p2align hfit
  rw [fill_apply_of_le (by omega), hframe x hx]

end Sectors

/-! ## The pipeline -/

/-- A length strictly between 0 and `s_len` comes from a result of the
algorithm that fit in `d_len`: it is that result rounded up to a sector, and
the destination is the algorithm's padded with zeros. -/
theorem zioCompressData_compressed {z : Zlib} {c : ZioCompress} {f : CompressFunc}
    (hf : (zioCompressTable z c).compress = some f) {src : Buf} {sAddr : ℕ} {dst : Buf} {sLen : ℕ}
    {dst' : Buf} {r : ℕ} (h : zioCompressData z c src sAddr dst sLen = some (dst', r)) (h0 : 0 < r)
    (hr : r < sLen) :
    ∃ dst₁ cLen, f src sAddr dst sLen (p2align (sLen - sLen / 8) spaMinblocksize)
        (zioCompressTable z c).level = some (dst₁, cLen) ∧
      cLen ≤ p2align (sLen - sLen / 8) spaMinblocksize ∧ r = p2roundup cLen spaMinblocksize ∧
      dst' = fill dst₁ cLen (r - cLen) 0 := by
  simp only [zioCompressData, hf, Option.isNone_some, Bool.false_eq_true, and_false, if_false,
    Nat.shiftRight_eq_div_pow, show (2 ^ 3 : ℕ) = 8 from rfl] at h
  split_ifs at h with hscan hempty hd
  · cases h
    omega
  · cases h
    omega
  · cases h
    omega
  obtain ⟨⟨dst₁, cLen⟩, hrun, hres⟩ := Option.map_eq_some_iff.1 h
  refine ⟨dst₁, cLen, hrun, ?_⟩
  dsimp only at hres
  split_ifs at hres with hfit hpad
  · cases hres
    omega
  · cases hres
    exact ⟨by omega, rfl, rfl⟩
  · -- no padding: the length was already whole sectors
    obtain ⟨rfl, rfl⟩ := Prod.mk.inj hres
    have := le_p2roundup (x := cLen)
    exact ⟨by omega, by omega, by rw [Nat.sub_self, fill_zero]⟩

theorem zio_lzjb_round_trip (z : Zlib) (src : Buf) (sAddr : ℕ) (dst out : Buf) {sLen : ℕ}
    {dst' : Buf} {c : ℕ} (h : zioCompressData z .lzjb src sAddr dst sLen = some (dst', c))
    (h0 : 0 < c) (hc : c < sLen) :
    c ≤ p2align (sLen - sLen / 8) spaMinblocksize ∧
      (∀ x, p2align (sLen - sLen / 8) spaMinblocksize ≤ x → dst' x = dst x) ∧
      zioDecompressData z .lzjb dst' out c sLen = (copy out src 0 0 sLen, 0) := by
  obtain ⟨dst₁, cLen, hrun, hfit, rfl, rfl⟩ := zioCompressData_compressed rfl h h0 hc
  obtain ⟨hframe, hres⟩ := lzjbCompress_spec hrun
  have hup := le_p2roundup (x := cLen)
  -- LZJB gives up with `s_len`, more than `d_len`
  rcases hres with hgave | ⟨_, hdec⟩
  · omega
  exact ⟨p2roundup_le_p2align hfit, fill_pad_of_le hfit hframe,
    hdec _ out fun x hx => fill_apply_of_lt hx⟩

/-- A kibibyte holding a single 1 goes through the LZJB pipeline into one
sector and comes back. -/
theorem zio_lzjb_round_trip_sector :
    ∃ dst', zioCompressData Zlib.memError .lzjb (Function.update (fun _ => 0) 0 1) 0 (fun _ => 0) 1024 =
        some (dst', 512) ∧
      zioDecompressData Zlib.memError .lzjb dst' (fun _ => 0) 512 1024 =
        (copy (fun _ => 0) (Function.update (fun _ => 0) 0 1) 0 0 1024, 0) := by
  obtain ⟨⟨dst', c⟩, h, hc⟩ := Option.map_eq_some_iff.1 (show (zioCompressData Zlib.memError .lzjb
    (Function.update (fun _ => 0) 0 1) 0 (fun _ => 0) 1024).map Prod.snd = some 512 by decide +kernel)
  obtain rfl : c = 512 := hc
  exact ⟨dst', h, (zio_lzjb_round_trip _ _ 0 _ (fun _ => 0) h (by decide) (by decide)).2.2⟩

end ZfsOsx.Compress
