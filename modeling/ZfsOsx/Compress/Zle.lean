import ZfsOsx.Lib.Buffer
import Mathlib.Order.Nat
import Mathlib.Data.Int.Notation

/-!
# Zero-length encoding (`module/zfs/zle.c`)

`zle_compress` cuts its source into chunks, each led by a length byte. A run
of `k` zero bytes (at most `256 - n`) is the byte `k - 1 + n` alone; a literal
run of `k` bytes (at most `n`, ended early by two zeros in a row) is the byte
`k - 1` followed by the bytes. `zle_decompress` reads a byte `b`, and copies
`b + 1` literal bytes when `b + 1 ≤ n`, else writes `b + 1 - n` zeros. The
compressor stops when the destination is too full and then returns `s_len`.

* `zleCompressLoop_isSome`: for `1 ≤ n ≤ 255` the compressor's loop ends.
* `zleCompressLoop_spec`: a compressor run that consumed the whole source
  wrote only inside `[0, d_len)`, and the decompressor, from the matching
  offsets, writes exactly the source back, whatever follows the compressed
  bytes.
* `zleDecompress_confined`: the decompressor writes nothing from
  `d_len + 255` on and reads nothing from `s_len + n` on; no tighter, since a
  chunk is not checked against either end once it has started.
-/
namespace ZfsOsx.Compress

open Function (update)
open Buffer

/-- A buffer seen through a pointer: `buf i` is `p[i]`. What lies past the
buffer's length is whatever memory holds there. -/
abbrev Buf := ℕ → UInt8

/-- The zero scan of `zle_compress`: step over zero bytes, at most `k` of them
(the distance to `MIN(last, s_end)`).
mirrors module/zfs/zle.c:49-50 -/
def zeroRun (src : Buf) : ℕ → ℕ → ℕ
  | s, 0 => s
  | s, k + 1 => if src s = 0 then zeroRun src (s + 1) k else s

/-- The literal copy of `zle_compress`: copy while this byte and the next are
not both zero, at most `k` bytes (the distance to `MIN(last, s_end) - 1`).
mirrors module/zfs/zle.c:56-57 -/
def literalRun (src : Buf) : ℕ → Buf → ℕ → ℕ → Buf × ℕ × ℕ
  | 0, dst, s, d => (dst, s, d)
  | k + 1, dst, s, d =>
    if (src s ||| src (s + 1)) ≠ 0 then literalRun src k (update dst d (src s)) (s + 1) (d + 1)
    else (dst, s, d)

/-- The literal branch of `zle_compress` after its space check: the copy loop,
then the byte it stopped at unless that is zero.
mirrors module/zfs/zle.c:53-59 -/
def literalChunk (src : Buf) (sLen n : ℕ) (dst : Buf) (s d : ℕ) : Buf × ℕ × ℕ :=
  let r := literalRun src (min (s + n) sLen - 1 - s) dst s d
  if src r.2.1 ≠ 0 then (update r.1 r.2.2 (src r.2.1), r.2.1 + 1, r.2.2 + 1) else r

/-- The loop of `zle_compress` from source offset `s` and destination offset
`d`: the destination and the two offsets where it stops. Its fuel is an
artifact of the model (the C loop is unbounded); `s_len + 1` is enough when
`1 ≤ n ≤ 255` (`zleCompressLoop_isSome`).
mirrors module/zfs/zle.c:45-62 -/
def zleCompressLoop (src : Buf) (sLen dLen n : ℕ) : ℕ → Buf → ℕ → ℕ → Option (Buf × ℕ × ℕ)
  | 0, _, _, _ => none
  | fuel + 1, dst, s, d =>
    if s < sLen ∧ d + 1 < dLen then
      if src s = 0 then
        let s' := zeroRun src s (min (s + (256 - n)) sLen - s)
        zleCompressLoop src sLen dLen n fuel (update dst d (UInt8.ofNat (s' - s + n - 1))) s'
          (d + 1)
      else if dLen - (d + 1) < n then some (dst, s, d + 1)
      else
        let r := literalChunk src sLen n dst s (d + 1)
        zleCompressLoop src sLen dLen n fuel (update r.1 d (UInt8.ofNat (r.2.1 - s - 1))) r.2.1
          r.2.2
    else some (dst, s, d)

/-- `zle_compress(s_start, d_start, s_len, d_len, n)`: the destination as it
leaves it, and the compressed length, or `s_len` when the source did not fit.
mirrors module/zfs/zle.c:36-64 -/
def zleCompress (src dst : Buf) (sLen dLen n : ℕ) : Option (Buf × ℕ) :=
  (zleCompressLoop src sLen dLen n (sLen + 1) dst 0 0).map fun r =>
    (r.1, if r.2.1 = sLen then r.2.2 else sLen)

/-- The loop of `zle_decompress` from source offset `s` and destination offset
`d`: the destination and the offset where it stops. Its two inner loops are a
copy and a fill (`Buffer.copy_succ`, `Buffer.fill_succ`).
mirrors module/zfs/zle.c:74-84 -/
def zleDecompressLoop (src : Buf) (sLen dLen n : ℕ) (dst : Buf) (s d : ℕ) : Buf × ℕ :=
  if s < sLen ∧ d < dLen then
    let len := 1 + (src s).toNat
    if len ≤ n then
      zleDecompressLoop src sLen dLen n (copy dst src d (s + 1) len) (s + 1 + len) (d + len)
    else zleDecompressLoop src sLen dLen n (fill dst d (len - n) 0) (s + 1) (d + (len - n))
  else (dst, d)
termination_by sLen - s

/-- `zle_decompress(s_start, d_start, s_len, d_len, n)`: the destination, and
0 when exactly `d_len` bytes came out, -1 otherwise.
mirrors module/zfs/zle.c:66-86 -/
def zleDecompress (src dst : Buf) (sLen dLen n : ℕ) : Buf × ℤ :=
  let r := zleDecompressLoop src sLen dLen n dst 0 0
  (r.1, if r.2 = dLen then 0 else -1)

/-! ## The two scans of the compressor -/

section Scans

variable {src : Buf}

theorem zeroRun_spec (src : Buf) (k : ℕ) :
    ∀ s, ∃ j ≤ k, zeroRun src s k = s + j ∧ (∀ i < j, src (s + i) = 0) ∧
      (src s = 0 → 0 < k → 0 < j) := by
  induction k with
  | zero => intro s; exact ⟨0, le_rfl, rfl, by simp, by simp⟩
  | succ k ih =>
    intro s
    by_cases h : src s = 0
    · obtain ⟨j, hj, hrun, hz, -⟩ := ih (s + 1)
      refine ⟨j + 1, by omega, by rw [zeroRun, if_pos h, hrun]; omega, ?_, fun _ _ => by omega⟩
      intro i hi
      rcases i with _ | i
      · exact h
      · have := hz i (by omega)
        rwa [show s + 1 + i = s + (i + 1) by omega] at this
    · exact ⟨0, by omega, by rw [zeroRun, if_neg h]; rfl, by simp, fun h' => absurd h' h⟩

theorem literalRun_spec (src : Buf) (k : ℕ) :
    ∀ dst s d, ∃ j ≤ k, literalRun src k dst s d = (copy dst src d s j, s + j, d + j) := by
  induction k with
  | zero => intro dst s d; exact ⟨0, le_rfl, by simp [literalRun]⟩
  | succ k ih =>
    intro dst s d
    by_cases h : (src s ||| src (s + 1)) ≠ 0
    · obtain ⟨j, hj, hrun⟩ := ih (update dst d (src s)) (s + 1) (d + 1)
      refine ⟨j + 1, by omega, ?_⟩
      rw [literalRun, if_pos h, hrun, copy_succ]
      simp only [Prod.mk.injEq, true_and]
      omega
    · exact ⟨0, by omega, by rw [literalRun, if_neg h]; simp⟩

/-- A literal chunk from a nonzero byte copies between one and `n` bytes, and
no further than the end of the source. -/
theorem literalChunk_spec {sLen n s : ℕ} (dst : Buf) (d : ℕ) (hs : s < sLen) (hsrc : src s ≠ 0)
    (hn : 1 ≤ n) :
    ∃ j, 1 ≤ j ∧ j ≤ n ∧ s + j ≤ sLen ∧
      literalChunk src sLen n dst s d = (copy dst src d s j, s + j, d + j) := by
  obtain ⟨j, hj, hrun⟩ := literalRun_spec src (min (s + n) sLen - 1 - s) dst s d
  have hk : j + 1 ≤ n ∧ s + j < sLen := by
    have := Nat.min_le_left (s + n) sLen
    have := Nat.min_le_right (s + n) sLen
    have := Nat.le_min.2 (show s + 1 ≤ s + n ∧ s + 1 ≤ sLen by omega)
    omega
  unfold literalChunk
  rw [hrun]
  by_cases hz : src (s + j) ≠ 0
  · -- the copy stopped with one more byte to take
    refine ⟨j + 1, by omega, by omega, by omega, ?_⟩
    simp only [if_pos hz, copy_snoc, Prod.mk.injEq, true_and]
    omega
  · -- it stopped at a zero, which cannot be the first byte
    have hj0 : j ≠ 0 := by
      rintro rfl
      exact hz (by simpa using hsrc)
    exact ⟨j, by omega, by omega, by omega, if_neg hz⟩

end Scans

/-! ## Compressing, then decompressing -/

section RoundTrip

variable {src : Buf} {sLen dLen n : ℕ}

/-- The length byte of a run of `j` zeros decodes to `j + n`. -/
theorem zeroByte_toNat {j : ℕ} (hjn : j ≤ 256 - n) (hn : n ≤ 255) :
    (UInt8.ofNat (j + n - 1)).toNat = j + n - 1 := by
  rw [UInt8.toNat_ofNat']
  exact Nat.mod_eq_of_lt (by omega)

theorem literalByte_toNat {j : ℕ} (hj : 1 ≤ j) (hjn : j ≤ n) (hn : n ≤ 255) :
    (UInt8.ofNat (j - 1)).toNat = j - 1 := by
  rw [UInt8.toNat_ofNat']
  exact Nat.mod_eq_of_lt (by omega)

/-- Every turn of the compressor's loop takes at least one source byte, so
with more fuel than bytes left it ends. -/
theorem zleCompressLoop_isSome (hn : 1 ≤ n) (hn' : n ≤ 255) :
    ∀ fuel dst s d, sLen - s < fuel → (zleCompressLoop src sLen dLen n fuel dst s d).isSome := by
  intro fuel
  induction fuel with
  | zero => intro dst s d h; omega
  | succ fuel ih =>
    intro dst s d hf
    rw [zleCompressLoop]
    split_ifs with hc hz hbrk
    · obtain ⟨j, hj, hrun, -, hpos⟩ := zeroRun_spec src (min (s + (256 - n)) sLen - s) s
      have := hpos hz (by omega)
      rw [hrun]
      exact ih _ _ _ (by omega)
    · rfl
    · obtain ⟨j, hj1, -, -, hlit⟩ := literalChunk_spec dst (d + 1) hc.1 hz hn
      rw [hlit]
      exact ih _ _ _ (by simp only; omega)
    · rfl

/-- A run of the compressor that consumed the whole source: it wrote only
inside `[d, d_len)`, and the decompressor, started at its offsets on any
memory that holds what it wrote up to where it stopped, writes exactly the
rest of the source and stops at the source's end. -/
theorem zleCompressLoop_spec (hn : 1 ≤ n) (hn' : n ≤ 255) :
    ∀ fuel dst s d dst' d', s ≤ sLen → d ≤ dLen →
      zleCompressLoop src sLen dLen n fuel dst s d = some (dst', sLen, d') →
      d ≤ d' ∧ d' ≤ dLen ∧ (∀ i, (i < d ∨ dLen ≤ i) → dst' i = dst i) ∧
      ∀ (M out : Buf) (cEnd : ℕ), d' ≤ cEnd → (∀ i, d ≤ i → i < d' → M i = dst' i) →
        zleDecompressLoop M cEnd sLen n out d s = (copy out src s s (sLen - s), sLen) := by
  intro fuel
  induction fuel with
  | zero => intro dst s d dst' d' _ _ h; cases h
  | succ fuel ih =>
    intro dst s d dst' d' hs hd h
    rw [zleCompressLoop] at h
    split_ifs at h with hc hz hbrk
    · -- a run of `j` zeros: one length byte at `d`
      obtain ⟨j, hj, hrun, hzero, hpos⟩ := zeroRun_spec src (min (s + (256 - n)) sLen - s) s
      have hj1 := hpos hz (by omega)
      simp only [hrun] at h
      rw [show s + j - s + n - 1 = j + n - 1 by omega] at h
      obtain ⟨hdd, hd', hframe, hdec⟩ := ih _ _ _ _ _ (by omega) (by omega) h
      have hbyte : dst' d = UInt8.ofNat (j + n - 1) := by
        rw [hframe d (.inl (by omega)), Function.update_self]
      refine ⟨by omega, hd', fun i hi => ?_, fun M out cEnd hc' hM => ?_⟩
      · rw [hframe i (by omega), Function.update_of_ne (by omega)]
      · have hlen : 1 + (M d).toNat = j + n := by
          rw [hM d le_rfl (by omega), hbyte, zeroByte_toNat (by omega) hn']
          omega
        rw [zleDecompressLoop, if_pos ⟨by omega, hc.1⟩, hlen, if_neg (by omega),
          show j + n - n = j by omega, hdec M _ cEnd hc' fun i h₁ h₂ => hM i (by omega) h₂,
          fill_eq_copy (s := s) fun k hk => hzero k hk, copy_add]
        congr 2
        omega
    · -- the break: the source is not consumed
      simp only [Option.some.injEq, Prod.mk.injEq] at h
      omega
    · -- a literal run of `j` bytes after its length byte
      obtain ⟨j, hj1, hjn, hjs, hlit⟩ := literalChunk_spec dst (d + 1) hc.1 hz hn
      rw [hlit] at h
      simp only [show s + j - s - 1 = j - 1 by omega] at h
      obtain ⟨hdd, hd', hframe, hdec⟩ := ih _ _ _ _ _ hjs (by omega) h
      have hbyte : dst' d = UInt8.ofNat (j - 1) := by
        rw [hframe d (.inl (by omega)), Function.update_self]
      have hbody : ∀ k < j, dst' (d + 1 + k) = src (s + k) := by
        intro k hk
        rw [hframe _ (.inl (by omega)), Function.update_of_ne (by omega), copy_apply_add _ _ _ _ hk]
      refine ⟨by omega, hd', fun i hi => ?_, fun M out cEnd hc' hM => ?_⟩
      · rw [hframe i (by omega), Function.update_of_ne (by omega)]
        rcases hi with hi | hi
        · exact copy_apply_of_lt (by omega)
        · exact copy_apply_of_le (by omega)
      · have hlen : 1 + (M d).toNat = j := by
          rw [hM d le_rfl (by omega), hbyte, literalByte_toNat hj1 hjn hn']
          omega
        have hcopy : copy out M s (d + 1) j = copy out src s s j :=
          copy_congr fun k hk => by rw [hM _ (by omega) (by omega), hbody k hk]
        rw [zleDecompressLoop, if_pos ⟨by omega, hc.1⟩, hlen, if_pos hjn, hcopy,
          hdec M _ cEnd hc' fun i h₁ h₂ => hM i (by omega) h₂, copy_add]
        congr 2
        omega
    · -- the loop ends with the whole source consumed
      simp only [Option.some.injEq, Prod.mk.injEq] at h
      obtain ⟨rfl, rfl, rfl⟩ := h
      refine ⟨le_rfl, hd, fun _ _ => rfl, fun M out cEnd _ _ => ?_⟩
      rw [zleDecompressLoop, if_neg (by omega), Nat.sub_self, copy_zero]

/-- `zle_compress` with `1 ≤ n ≤ 255` that returned less than `s_len` consumed
the whole source: it wrote only inside `[0, d_len)`, and `zle_decompress`
given at least the bytes it returned turns them back into the source. -/
theorem zleCompress_spec (hn : 1 ≤ n) (hn' : n ≤ 255) {dst dst' : Buf} {c : ℕ}
    (h : zleCompress src dst sLen dLen n = some (dst', c)) (hc : c < sLen) :
    (∀ i, dLen ≤ i → dst' i = dst i) ∧ c ≤ dLen ∧
      ∀ (M out : Buf) (cEnd : ℕ), c ≤ cEnd → (∀ i < c, M i = dst' i) →
        zleDecompress M out cEnd sLen n = (copy out src 0 0 sLen, 0) := by
  obtain ⟨⟨dst₁, s₁, d₁⟩, hloop, hr⟩ := Option.map_eq_some_iff.1 h
  simp only [Prod.mk.injEq] at hr
  obtain ⟨rfl, hd⟩ := hr
  -- a source left unconsumed would have returned `s_len`
  have hs₁ : s₁ = sLen := by
    by_contra hne
    rw [if_neg hne] at hd
    omega
  subst hs₁
  rw [if_pos rfl] at hd
  subst hd
  obtain ⟨_, hd', hframe, hdec⟩ :=
    zleCompressLoop_spec hn hn' _ _ _ _ _ _ (Nat.zero_le _) (Nat.zero_le _) hloop
  refine ⟨fun i hi => hframe i (.inr hi), hd', fun M out cEnd hc' hM => ?_⟩
  rw [zleDecompress, hdec M out cEnd hc' fun i _ h₂ => hM i h₂, Nat.sub_zero]
  simp

end RoundTrip

/-! ## What the decompressor reads and writes

`zle_decompress` checks `s_end` and `d_end` before each chunk only, so a
chunk started near either end runs past it. -/

section Confined

variable {src src' : Buf} {sLen dLen n : ℕ}

/-- A chunk writes its `1 + b` literal bytes or `1 + b - n` zeros from an
offset below `d_len`, and `1 + b ≤ 256`: nothing lands from `d_len + 255` on. -/
theorem zleDecompressLoop_frame (src : Buf) (sLen dLen n : ℕ) (dst : Buf) (s d x : ℕ)
    (hx : dLen + 255 ≤ x) : (zleDecompressLoop src sLen dLen n dst s d).1 x = dst x := by
  fun_induction zleDecompressLoop src sLen dLen n dst s d with
  | case1 dst s d hc len hlen ih =>
    have := (src s).toNat_lt
    rw [ih, copy_apply_of_le (by omega)]
  | case2 dst s d hc len hlen ih =>
    have := (src s).toNat_lt
    rw [ih, fill_apply_of_le (by omega)]
  | case3 => rfl

/-- A chunk reads its length byte below `s_len` and at most `n` literal
bytes after it: nothing from `s_len + n` on is read. -/
theorem zleDecompressLoop_congr_src (h : ∀ x < sLen + n, src x = src' x) (dst : Buf) (s d : ℕ) :
    zleDecompressLoop src sLen dLen n dst s d = zleDecompressLoop src' sLen dLen n dst s d := by
  fun_induction zleDecompressLoop src sLen dLen n dst s d with
  | case1 dst s d hc len hlen ih =>
    have hb : src s = src' s := h s (by omega)
    have hcopy : copy dst src d (s + 1) len = copy dst src' d (s + 1) len :=
      copy_congr fun k hk => h _ (by omega)
    conv_rhs => rw [zleDecompressLoop, if_pos hc, ← hb, if_pos hlen]
    rw [ih, hcopy]
  | case2 dst s d hc len hlen ih =>
    have hb : src s = src' s := h s (by omega)
    conv_rhs => rw [zleDecompressLoop, if_pos hc, ← hb, if_neg hlen]
    exact ih
  | case3 dst s d hc => rw [zleDecompressLoop, if_neg hc]

/-- `zle_decompress` writes nothing from `d_len + 255` on, reads the source
below `s_len + n` only, and returns 0 or -1. -/
theorem zleDecompress_confined (src dst : Buf) (sLen dLen n : ℕ) :
    (∀ x, dLen + 255 ≤ x → (zleDecompress src dst sLen dLen n).1 x = dst x) ∧
      (∀ src' : Buf, (∀ x < sLen + n, src x = src' x) →
        zleDecompress src dst sLen dLen n = zleDecompress src' dst sLen dLen n) ∧
      ((zleDecompress src dst sLen dLen n).2 = 0 ∨ (zleDecompress src dst sLen dLen n).2 = -1) := by
  refine ⟨fun x hx => zleDecompressLoop_frame src sLen dLen n dst 0 0 x hx, fun src' h => ?_, ?_⟩
  · rw [zleDecompress, zleDecompress, zleDecompressLoop_congr_src h]
  · unfold zleDecompress
    dsimp only
    split
    · exact .inl rfl
    · exact .inr rfl

end Confined

end ZfsOsx.Compress
