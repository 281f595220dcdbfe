import Mathlib
import ZfsOsx.Lib.Buffer
import ZfsOsx.Lib.Endian
/-!
# SHA-256 (FIPS 180-4)

SHA-256 as the standard states it, for a message of bytes. The message is
padded (§5.1.1) with the byte `0x80`, zero bytes and its length in bits as a
64-bit big-endian word, to a whole number of 64-byte blocks; each block is
read as sixteen big-endian words (§5.2.1); the hash value goes from
`initialHash` (§5.3.3) through `compress` once per block (§6.2.2); and the
digest is its eight words, big-endian.

The constants are computed from their definition, not copied: `roundConsts`
are the first 32 bits of the fractional parts of the cube roots of the first
sixty-four primes (§4.2.2), `initialHash` those of the square roots of the
first eight (§5.3.3). `floorRoot_spec` says that `floorRoot` is the integer
root, which is what the first 32 bits of a fractional part are: the bits of
`⌊p ^ (1/3) * 2 ^ 32⌋ = ⌊(p * 2 ^ 96) ^ (1/3)⌋` below the integer part.

* `or_shiftLeft_bytes`: four bytes packed with shifts and ors are their
  big-endian word.
* `length_pad`, `length_pad_mod` and the `getD_pad` lemmas: the padded
  message, byte by byte.
* `schedule_congr`, `compress_congr`, `hashBlocks_congr`: a block is read
  through its sixteen words only; `hashBlocks_add`: hashing `a + b` blocks is
  hashing `a`, then the `b` after them.
-/
namespace Sha2

open Endian ByteOrder

/-! ## Functions (§3.2, §4.1.2) -/

/-- `ROTR n x`. -/
def rotr (n x : UInt32) : UInt32 := (x >>> n) ||| (x <<< (32 - n))

/-- `Ch(x, y, z)`, (4.2). -/
def ch (x y z : UInt32) : UInt32 := (x &&& y) ^^^ (~~~x &&& z)

/-- `Maj(x, y, z)`, (4.3). -/
def maj (x y z : UInt32) : UInt32 := (x &&& y) ^^^ (x &&& z) ^^^ (y &&& z)

/-- `Σ₀(x)`, (4.4). -/
def bigSigma0 (x : UInt32) : UInt32 := rotr 2 x ^^^ rotr 13 x ^^^ rotr 22 x

/-- `Σ₁(x)`, (4.5). -/
def bigSigma1 (x : UInt32) : UInt32 := rotr 6 x ^^^ rotr 11 x ^^^ rotr 25 x

/-- `σ₀(x)`, (4.6). -/
def sigma0 (x : UInt32) : UInt32 := rotr 7 x ^^^ rotr 18 x ^^^ (x >>> 3)

/-- `σ₁(x)`, (4.7). -/
def sigma1 (x : UInt32) : UInt32 := rotr 17 x ^^^ rotr 19 x ^^^ (x >>> 10)

/-! ## Constants (§4.2.2, §5.3.3) -/

/-- Trial division. -/
def isPrime (n : ℕ) : Bool := 2 ≤ n && (List.range n).all fun d => d < 2 || n % d != 0

/-- The primes below 312, which are the first sixty-four. -/
def primes : List ℕ := (List.range 312).filter isPrime

/-- Bit by bit from bit `b - 1` down: the greatest `y < x + 2 ^ b`, with the
low `b` bits of `x` clear, such that `y ^ e ≤ n`. -/
def rootLoop (e n : ℕ) : ℕ → ℕ → ℕ
  | 0, x => x
  | b + 1, x => rootLoop e n b (if (x + 2 ^ b) ^ e ≤ n then x + 2 ^ b else x)

/-- `⌊n ^ (1/e)⌋`, for roots below `2 ^ 64`. -/
def floorRoot (e n : ℕ) : ℕ := rootLoop e n 64 0

/-- `K₀, …, K₆₃`: the first 32 bits of the fractional parts of the cube roots
of the first sixty-four primes. -/
def roundConsts : List UInt32 := (primes.take 64).map fun p => UInt32.ofNat (floorRoot 3 (p * 2 ^ 96))

/-- Eight words: a hash value `H₀, …, H₇`, or the working variables
`a, …, h`. -/
structure Words where
  a : UInt32
  b : UInt32
  c : UInt32
  d : UInt32
  e : UInt32
  f : UInt32
  g : UInt32
  h : UInt32
  deriving DecidableEq, Repr

/-- Word by word addition, as `H⁽ⁱ⁾` is computed from `H⁽ⁱ⁻¹⁾`. -/
def Words.add (x y : Words) : Words :=
  ⟨x.a + y.a, x.b + y.b, x.c + y.c, x.d + y.d, x.e + y.e, x.f + y.f, x.g + y.g, x.h + y.h⟩

/-- `Hⱼ`. -/
def Words.word (H : Words) : ℕ → UInt32
  | 0 => H.a
  | 1 => H.b
  | 2 => H.c
  | 3 => H.d
  | 4 => H.e
  | 5 => H.f
  | 6 => H.g
  | _ => H.h

/-- `H⁽⁰⁾`: the first 32 bits of the fractional parts of the square roots of
the first eight primes. -/
def initialHash : Words :=
  let w := fun i => UInt32.ofNat (floorRoot 2 (primes.getD i 0 * 2 ^ 64))
  ⟨w 0, w 1, w 2, w 3, w 4, w 5, w 6, w 7⟩

/-! ## Padding and parsing (§5.1.1, §5.2.1) -/

/-- The zero bytes after `0x80`: the fewest that leave the message 8 bytes
short of a whole block. -/
def zeroBytes (n : ℕ) : ℕ := (119 - n % 64) % 64

/-- The padded message: `0x80`, the zero bytes, and the length in bits as a
64-bit big-endian word. -/
@[grind] def pad (M : List UInt8) : List UInt8 :=
  M ++ 0x80 :: (List.replicate (zeroBytes M.length) 0 ++ Buffer.read (byte big 8 (8 * M.length)) 0 8)

/-- The big-endian words of a store from byte `p` on: `M₀, M₁, …` of the
block at `p`. -/
def beWords (m : ℕ → UInt8) (p : ℕ) : ℕ → UInt32 :=
  fun j => UInt32.ofNat (load big m (p + 4 * j) 4)

/-! ## Hash computation (§6.2.2) -/

/-- The message schedule `W_t` of a block of words `M`. -/
def schedule (M : ℕ → UInt32) (t : ℕ) : UInt32 :=
  if _h : t < 16 then M t
  else sigma1 (schedule M (t - 2)) + schedule M (t - 7) + sigma0 (schedule M (t - 15)) +
    schedule M (t - 16)
termination_by t
decreasing_by all_goals omega

/-- Round `t` on the working variables. -/
def round (W : ℕ → UInt32) (s : Words) (t : ℕ) : Words :=
  let T1 := s.h + bigSigma1 s.e + ch s.e s.f s.g + roundConsts.getD t 0 + W t
  let T2 := bigSigma0 s.a + maj s.a s.b s.c
  ⟨T1 + T2, s.a, s.b, s.c, s.d + T1, s.e, s.f, s.g⟩

/-- The hash value after one more block, of words `M`. -/
def compress (H : Words) (M : ℕ → UInt32) : Words :=
  H.add ((List.range 64).foldl (round (schedule M)) H)

/-- The hash value after the `n` blocks from byte 0 of `m`, from `H`. -/
def hashBlocks (m : ℕ → UInt8) (n : ℕ) (H : Words) : Words :=
  (List.range n).foldl (fun H i => compress H (beWords m (64 * i))) H

/-- The hash value of a message. -/
def hash (M : List UInt8) : Words :=
  hashBlocks (fun x => (pad M).getD x 0) ((pad M).length / 64) initialHash

/-- The 32-byte digest `H₀ ‖ H₁ ‖ … ‖ H₇`. -/
def digest (M : List UInt8) : List UInt8 :=
  (List.range 32).map fun x => byte big 4 ((hash M).word (x / 4)).toNat (x % 4)

/-! ## Integer roots -/

section Roots

variable {e n : ℕ}

theorem rootLoop_spec {b x : ℕ} (hx : x ^ e ≤ n) (hn : n < (x + 2 ^ b) ^ e) :
    rootLoop e n b x ^ e ≤ n ∧ n < (rootLoop e n b x + 1) ^ e := by
  induction b generalizing x with
  | zero => exact ⟨hx, hn⟩
  | succ b ih =>
    rw [rootLoop]
    split_ifs with h
    · -- bit `b` is set: the root is at least `x + 2 ^ b`
      refine ih h ?_
      rwa [show x + 2 ^ b + 2 ^ b = x + 2 ^ (b + 1) by rw [pow_succ]; omega]
    · exact ih hx (Nat.lt_of_not_le h)

/-- `floorRoot e n` is the integer `e`-th root of `n`. -/
theorem floorRoot_spec (he : 0 < e) (hn : n < 2 ^ (64 * e)) :
    floorRoot e n ^ e ≤ n ∧ n < (floorRoot e n + 1) ^ e :=
  rootLoop_spec (by rw [zero_pow he.ne']; exact Nat.zero_le n) (by rwa [Nat.zero_add, ← pow_mul])

end Roots

/-! ## Words from bytes -/

theorem shiftLeft_or_eq {a b s : ℕ} (hb : b < 2 ^ s) : a <<< s ||| b = 2 ^ s * a + b := by
  rw [Nat.shiftLeft_eq, Nat.mul_comm, Nat.two_pow_add_eq_or_of_lt hb]

/-- A byte shifted into a 32-bit word by at most 24 bits stays in it. -/
theorem shiftLeft_mod_of_lt {b s : ℕ} (hb : b < 2 ^ 8) (hs : s ≤ 24) :
    b <<< (s % 32) % 2 ^ 32 = b <<< s := by
  have hlt : b * 2 ^ s < 2 ^ 32 :=
    calc b * 2 ^ s < 2 ^ 8 * 2 ^ s := Nat.mul_lt_mul_of_pos_right hb (by positivity)
      _ ≤ 2 ^ 8 * 2 ^ 24 := Nat.mul_le_mul_left _ (Nat.pow_le_pow_right (by norm_num) hs)
      _ = 2 ^ 32 := by norm_num
  rw [Nat.mod_eq_of_lt (show s < 32 by omega), Nat.shiftLeft_eq, Nat.mod_eq_of_lt hlt]

/-- Four bytes packed with shifts and ors are their big-endian word. -/
theorem or_shiftLeft_bytes (m : ℕ → UInt8) (p : ℕ) :
    (m p).toUInt32 <<< 24 ||| (m (p + 1)).toUInt32 <<< 16 ||| (m (p + 2)).toUInt32 <<< 8 |||
      (m (p + 3)).toUInt32 = UInt32.ofNat (load big m p 4) := by
  have h0 := (m p).toNat_lt
  have h1 := (m (p + 1)).toNat_lt
  have h2 := (m (p + 2)).toNat_lt
  have h3 := (m (p + 3)).toNat_lt
  apply UInt32.toNat_inj.1
  have hl : load big m p 4 < 2 ^ 32 := load_lt.trans_eq (by norm_num)
  rw [UInt32.toNat_ofNat_of_lt' hl]
  simp only [UInt32.toNat_or, UInt32.toNat_shiftLeft, UInt8.toNat_toUInt32, UInt32.reduceToNat,
    shiftLeft_mod_of_lt h0 (le_refl 24), shiftLeft_mod_of_lt h1 (by norm_num : 16 ≤ 24),
    shiftLeft_mod_of_lt h2 (by norm_num : 8 ≤ 24)]
  -- Horner's form, one byte at a time
  have horner : (m p).toNat <<< 24 ||| (m (p + 1)).toNat <<< 16 ||| (m (p + 2)).toNat <<< 8 =
      (((m p).toNat <<< 8 ||| (m (p + 1)).toNat) <<< 8 ||| (m (p + 2)).toNat) <<< 8 := by
    simp only [Nat.shiftLeft_or_distrib, ← Nat.shiftLeft_add]
  rw [horner, shiftLeft_or_eq h3, shiftLeft_or_eq h2, shiftLeft_or_eq h1]
  simp only [load]
  ring

/-! ## The padded message -/

section Pad

variable {M : List UInt8} {x k : ℕ}

@[simp] theorem length_pad : (pad M).length = M.length + 9 + zeroBytes M.length := by
  simp [pad]
  omega

theorem length_pad_mod : (pad M).length % 64 = 0 := by
  rw [length_pad, zeroBytes]
  omega

theorem getD_pad_of_lt (hx : x < M.length) : (pad M).getD x 0 = M.getD x 0 := by
  rw [pad, List.getD_append _ _ _ _ hx]

theorem getD_pad_length : (pad M).getD M.length 0 = 0x80 := by
  rw [pad, List.getD_append_right _ _ _ _ le_rfl, Nat.sub_self]
  rfl

theorem getD_pad_zero (h₁ : M.length < x) (h₂ : x ≤ M.length + zeroBytes M.length) :
    (pad M).getD x 0 = 0 := by
  obtain ⟨j, rfl⟩ : ∃ j, x = M.length + (j + 1) := ⟨x - M.length - 1, by omega⟩
  rw [pad, List.getD_append_right _ _ _ _ (by omega), Nat.add_sub_cancel_left, List.getD_cons_succ,
    List.getD_append _ _ _ _ (by rw [List.length_replicate]; omega), List.getD_replicate _ (by omega)]

theorem getD_pad_bits (hk : k < 8) :
    (pad M).getD (M.length + 1 + zeroBytes M.length + k) 0 = byte big 8 (8 * M.length) k := by
  rw [pad, List.getD_append_right _ _ _ _ (by omega),
    show M.length + 1 + zeroBytes M.length + k - M.length = zeroBytes M.length + k + 1 by omega,
    List.getD_cons_succ, List.getD_append_right _ _ _ _ (by simp), List.length_replicate,
    Nat.add_sub_cancel_left, List.getD_eq_getElem _ _ (by simpa using hk), Buffer.getElem_read,
    Nat.zero_add]

end Pad

/-! ## Blocks -/

section Blocks

variable {M M' : ℕ → UInt32} {m m' : ℕ → UInt8} {H : Words}

/-- The schedule reads the sixteen words of its block only. -/
theorem schedule_congr (h : ∀ j < 16, M j = M' j) (t : ℕ) : schedule M t = schedule M' t := by
  induction t using Nat.strong_induction_on with
  | _ t ih =>
    conv_lhs => rw [schedule]
    conv_rhs => rw [schedule]
    split_ifs with ht
    · exact h t ht
    · rw [ih (t - 2) (by omega), ih (t - 7) (by omega), ih (t - 15) (by omega), ih (t - 16) (by omega)]

theorem compress_congr (h : ∀ j < 16, M j = M' j) : compress H M = compress H M' := by
  rw [compress, compress, funext (schedule_congr h)]

/-- A block is read from its own 64 bytes. -/
theorem compress_beWords_congr {p : ℕ} (h : ∀ x < 64, m (p + x) = m' (p + x)) :
    compress H (beWords m p) = compress H (beWords m' p) :=
  compress_congr fun j hj => by
    simp only [beWords]
    exact congrArg UInt32.ofNat (load_congr fun k hk => by
      rw [Nat.add_assoc]
      exact h _ (by omega))

/-- The words of a store seen from byte `a` on. -/
theorem beWords_shift {a p : ℕ} : beWords (fun x => m (a + x)) p = beWords m (a + p) :=
  funext fun j => congrArg UInt32.ofNat (load_congr fun k _ => by
    show m _ = m _
    congr 1
    omega)

theorem hashBlocks_one : hashBlocks m 1 H = compress H (beWords m 0) := rfl

/-- `n` blocks are read from their `64 n` bytes. -/
theorem hashBlocks_congr {n : ℕ} (h : ∀ x < 64 * n, m x = m' x) :
    hashBlocks m n H = hashBlocks m' n H := by
  unfold hashBlocks
  exact List.foldl_ext _ _ _ fun H' i hi =>
    compress_beWords_congr fun x hx => h _ (by have := List.mem_range.1 hi; omega)

/-- Hashing `a + b` blocks is hashing `a`, then the `b` after them. -/
theorem hashBlocks_add {a b : ℕ} :
    hashBlocks m (a + b) H = hashBlocks (fun x => m (64 * a + x)) b (hashBlocks m a H) := by
  unfold hashBlocks
  rw [List.range_add, List.foldl_append, List.foldl_map]
  refine List.foldl_ext _ _ _ fun H' i _ => ?_
  -- block `a + i` of `m` is block `i` of the store from block `a` on
  rw [beWords_shift, Nat.mul_add]

end Blocks

/-! ## The digest -/

/-- Word `j` of the hash value is bytes `4 j, …, 4 j + 3` of the digest, big-endian. -/
theorem load_digest {M : List UInt8} {j : ℕ} (hj : j < 8) :
    load big (fun x => (digest M).getD x 0) (4 * j) 4 = ((hash M).word j).toNat := by
  rw [load_of_byte fun k hk => ?_, Nat.mod_eq_of_lt (by simpa using ((hash M).word j).toNat_lt)]
  rw [digest, List.getD_eq_getElem _ _ (by simp; omega), List.getElem_map, List.getElem_range,
    show (4 * j + k) / 4 = j by omega, show (4 * j + k) % 4 = k by omega]

end Sha2
