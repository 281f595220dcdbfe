import Mathlib
import ZfsOsx.Lib.Buffer

/-!
# Byte order

A machine stores an `n`-byte word at `a, …, a + n - 1`, least significant byte
first (`little`) or last (`big`). `load` reads such a word out of a byte memory
and `store` writes one, as a `Buffer.copy` of its encoding `byte`; `reverse` is
the word whose bytes are the reverse of another's, which is what a byte swap
computes.

* `load_of_byte` and `byte_load`: decoding the encoding of `v` gives `v` modulo
  `256 ^ n`, and encoding what was loaded gives back the memory's bytes; from
  them `eq_of_byte_eq`, a word is determined by its bytes.
* `load_store`, `store_load`, `store_store`: a load after a store, a store of
  what was loaded, two stores to one place; `load_congr` and
  `store_apply_of_lt`, `store_apply_of_le`: a load reads only its own bytes, a
  store writes only its own.
* `load_swap`, `store_swap`: a word read or written in the other byte order is
  the reversed word.
-/
namespace Endian

/-- The order in which a machine lays out the bytes of a word. -/
inductive ByteOrder
  | little
  | big
  deriving DecidableEq, Repr

namespace ByteOrder

/-- The other byte order. -/
def swap : ByteOrder → ByteOrder
  | little => big
  | big => little

@[simp] theorem swap_swap (o : ByteOrder) : o.swap.swap = o := by
  cases o <;> rfl


/-- There are two byte orders: one that is not `o` is `o.swap`. -/
theorem eq_swap_of_ne {o o' : ByteOrder} (h : o' ≠ o) : o' = o.swap := by
  cases o <;> cases o' <;> first | rfl | exact absurd rfl h

end ByteOrder

open ByteOrder

/-- The power of 256 that byte `k` of an `n`-byte word in order `o` weighs. -/
@[grind] def weight : ByteOrder → ℕ → ℕ → ℕ
  | little, _, k => k
  | big, n, k => n - 1 - k

/-- Byte `k` of the `n`-byte encoding of `v` in order `o`. -/
@[grind] def byte (o : ByteOrder) (n v k : ℕ) : UInt8 :=
  UInt8.ofNat (v / 256 ^ weight o n k)

/-- The number whose `n`-byte encoding in order `o` lies at `a` in `m`. -/
@[grind] def load : ByteOrder → (ℕ → UInt8) → ℕ → ℕ → ℕ
  | _, _, _, 0 => 0
  | little, m, a, n + 1 => (m a).toNat + 256 * load little m (a + 1) n
  | big, m, a, n + 1 => (m a).toNat * 256 ^ n + load big m (a + 1) n

/-- `m` after the `n`-byte encoding of `v` in order `o` was stored at `a`. -/
def store (o : ByteOrder) (m : ℕ → UInt8) (a n v : ℕ) : ℕ → UInt8 :=
  Buffer.copy m (byte o n v) a 0 n

/-- The `n`-byte number whose bytes are those of `v` in reverse order. -/
@[grind] def reverse (n v : ℕ) : ℕ :=
  load little (byte big n v) 0 n

section Word

variable {o : ByteOrder} {m m' : ℕ → UInt8} {a a' n v w k : ℕ}

/-- A byte is its value modulo 256. -/
theorem ofNat_eq_of_mod {x : ℕ} {b : UInt8} (h : x % 256 = b.toNat) : UInt8.ofNat x = b :=
  UInt8.ext (by rw [UInt8.toNat_ofNat']; exact h)

theorem byte_big : byte big n v k = byte little n v (n - 1 - k) := rfl

/-- A little-endian byte does not depend on the width. -/
theorem byte_little_width (n' : ℕ) : byte little n v k = byte little n' v k := rfl

theorem byte_little_succ : byte little n v (k + 1) = byte little n (v / 256) k := by
  simp only [byte, weight, Nat.div_div_eq_div_mul, ← Nat.pow_succ']

theorem load_lt : load o m a n < 256 ^ n := by
  induction n generalizing a with
  | zero => cases o <;> simp [load]
  | succ n ih =>
    have hb := (m a).toNat_lt
    cases o with
    | little =>
      have := @ih (a + 1)
      rw [load, pow_succ']
      omega
    | big =>
      have := @ih (a + 1)
      have hmul : (m a).toNat * 256 ^ n ≤ 255 * 256 ^ n := Nat.mul_le_mul_right _ (by omega)
      rw [load, pow_succ]
      omega

/-- A load reads only its own `n` bytes. -/
theorem load_congr (h : ∀ k < n, m (a + k) = m' (a' + k)) : load o m a n = load o m' a' n := by
  induction n generalizing a a' with
  | zero => cases o <;> rfl
  | succ n ih =>
    have h0 : m a = m' a' := h 0 (Nat.succ_pos n)
    have hs : load o m (a + 1) n = load o m' (a' + 1) n :=
      ih fun k hk => by simpa only [Nat.add_right_comm _ 1 k, Nat.add_assoc] using h (k + 1) (by omega)
    cases o <;> simp only [load, h0, hs]

/-- Decoding the encoding of `v` gives `v` modulo `256 ^ n`. -/
theorem load_of_byte (h : ∀ k < n, m (a + k) = byte o n v k) : load o m a n = v % 256 ^ n := by
  induction n generalizing a v with
  | zero => cases o <;> simp [load, Nat.mod_one]
  | succ n ih =>
    cases o with
    | little =>
      -- the first byte is `v % 256`, the others encode `v / 256`
      have h0 : (m a).toNat = v % 256 := by
        rw [← Nat.add_zero a, h 0 (Nat.succ_pos n), byte, UInt8.toNat_ofNat']
        simp [weight]
      have hs : load little m (a + 1) n = v / 256 % 256 ^ n :=
        ih fun k hk => by
          rw [Nat.add_right_comm, Nat.add_assoc, h (k + 1) (by omega), byte_little_succ,
            byte_little_width n]
      rw [load, h0, hs, pow_succ', Nat.mod_mul]
    | big =>
      -- the first byte is the most significant one, the others encode `v` itself
      have h0 : (m a).toNat = v / 256 ^ n % 256 := by
        rw [← Nat.add_zero a, h 0 (Nat.succ_pos n), byte, UInt8.toNat_ofNat']
        simp [weight]
      have hs : load big m (a + 1) n = v % 256 ^ n :=
        ih fun k hk => by
          rw [Nat.add_right_comm, Nat.add_assoc, h (k + 1) (by omega)]
          simp only [byte, weight]
          congr 3
          omega
      rw [load, h0, hs, Nat.mod_pow_succ]
      ring

/-- Encoding what was loaded gives back the memory's bytes. -/
theorem byte_load (hk : k < n) : byte o n (load o m a n) k = m (a + k) := by
  induction n generalizing a k with
  | zero => omega
  | succ n ih =>
    have hb := (m a).toNat_lt
    have hl : load o m (a + 1) n < 256 ^ n := load_lt
    cases o with
    | little =>
      cases k with
      | zero =>
        apply ofNat_eq_of_mod
        simp only [weight, pow_zero, Nat.div_one, load, Nat.add_zero]
        omega
      | succ k =>
        rw [byte_little_succ, load, Nat.add_mul_div_left _ _ (by norm_num),
          Nat.div_eq_of_lt (by omega), Nat.zero_add, byte_little_width n, ih (by omega),
          Nat.add_right_comm, Nat.add_assoc]
    | big =>
      cases k with
      | zero =>
        apply ofNat_eq_of_mod
        have hpos : 0 < 256 ^ n := by positivity
        have hdiv : load big m a (n + 1) / 256 ^ n = (m a).toNat := by
          rw [load, Nat.add_comm, Nat.add_mul_div_right _ _ hpos, Nat.div_eq_of_lt hl, Nat.zero_add]
        simp only [weight, Nat.add_sub_cancel, Nat.sub_zero, hdiv, Nat.add_zero]
        omega
      | succ k =>
        -- below the top byte the word is the rest of the memory's word
        obtain ⟨j, hj⟩ : ∃ j, n = j + (k + 1) := ⟨n - (k + 1), by omega⟩
        have hw : weight big (n + 1) (k + 1) = j ∧ weight big n k = j := by
          simp only [weight]
          omega
        have hsplit : load big m a (n + 1) =
            load big m (a + 1) n + (m a).toNat * 256 ^ k * 256 * 256 ^ j := by
          rw [load, hj, pow_add, pow_succ]
          ring
        have hmod : load big m a (n + 1) / 256 ^ j % 256 = load big m (a + 1) n / 256 ^ j % 256 := by
          rw [hsplit, Nat.add_mul_div_right _ _ (by positivity), Nat.add_mul_mod_self_right]
        rw [show a + (k + 1) = a + 1 + k by omega, ← ih (by omega : k < n)]
        simp only [byte, hw.1, hw.2]
        exact ofNat_eq_of_mod (hmod.trans UInt8.toNat_ofNat'.symm)

/-- A word is determined by its bytes. -/
theorem eq_of_byte_eq (hv : v < 256 ^ n) (hw : w < 256 ^ n) (h : ∀ k < n, byte o n v k = byte o n w k) :
    v = w := by
  have ev := load_of_byte (m := byte o n v) (a := 0) fun k _ => by rw [Nat.zero_add]
  have ew := load_of_byte (m := byte o n w) (a := 0) fun k _ => by rw [Nat.zero_add]
  rw [Nat.mod_eq_of_lt hv] at ev
  rw [Nat.mod_eq_of_lt hw] at ew
  rw [← ev, ← ew]
  exact load_congr fun k hk => by simp only [Nat.zero_add, h k hk]

theorem reverse_lt : reverse n v < 256 ^ n := load_lt

/-- A little-endian word of `n + n'` bytes is its low `n` bytes and its high `n'` bytes. -/
theorem load_little_add (n' : ℕ) :
    load little m a (n + n') = load little m a n + 256 ^ n * load little m (a + n) n' := by
  induction n generalizing a with
  | zero => simp [load]
  | succ n ih =>
    rw [Nat.succ_add, load, load, ih, Nat.add_right_comm a 1 n, Nat.add_assoc a, pow_succ']
    ring

/-- A big-endian word of `n + n'` bytes is its high `n` bytes and its low `n'` bytes. -/
theorem load_big_add (n' : ℕ) :
    load big m a (n + n') = load big m a n * 256 ^ n' + load big m (a + n) n' := by
  induction n generalizing a with
  | zero => simp [load]
  | succ n ih =>
    rw [Nat.succ_add, load, load, ih, Nat.add_right_comm a 1 n, Nat.add_assoc a, pow_add]
    ring

theorem reverse_one : reverse 1 v = v % 256 := by
  simp [reverse, load, byte, weight, UInt8.toNat_ofNat']

/-- Reversing `n + n'` bytes puts the high `n` bytes, reversed, below the low `n'`
bytes, reversed. -/
theorem reverse_add (n' : ℕ) : reverse (n + n') v = reverse n (v / 256 ^ n') + 256 ^ n * reverse n' v := by
  have hlow : load little (byte big (n + n') v) 0 n = reverse n (v / 256 ^ n') :=
    load_congr fun k hk => by
      simp only [byte, weight, Nat.div_div_eq_div_mul, ← pow_add]
      congr 3
      omega
  have hhigh : load little (byte big (n + n') v) (0 + n) n' = reverse n' v :=
    load_congr fun k hk => by
      simp only [byte, weight]
      congr 3
      omega
  rw [reverse, load_little_add, hlow, hhigh]

/-- Byte `k` of the reversed word is byte `k` of the word in the other order. -/
theorem byte_reverse (hk : k < n) : byte o n (reverse n v) k = byte o.swap n v k := by
  have hl : ∀ j < n, byte little n (reverse n v) j = byte big n v j := fun j hj => by
    rw [reverse, byte_load hj, Nat.zero_add]
  cases o with
  | little => exact hl k hk
  | big =>
    rw [byte_big, hl _ (by omega), byte_big]
    congr 1
    omega

theorem reverse_reverse (hv : v < 256 ^ n) : reverse n (reverse n v) = v :=
  eq_of_byte_eq (o := little) reverse_lt hv fun k hk => by
    rw [byte_reverse hk, swap, byte_reverse hk]
    rfl

end Word

section Memory

variable {o : ByteOrder} {m m' : ℕ → UInt8} {a b n k v w x : ℕ}

theorem load_store : load o (store o m a n v) a n = v % 256 ^ n :=
  load_of_byte fun k hk => by rw [store, Buffer.copy_apply_add _ _ _ _ hk, Nat.zero_add]

theorem store_load : store o m a n (load o m a n) = m :=
  Buffer.copy_of_eq fun k hk => by rw [Nat.zero_add, byte_load hk]

theorem store_store : store o (store o m a n v) a n w = store o m a n w :=
  Buffer.copy_copy _ _ _ _ _ _ _

theorem store_apply_of_lt (h : x < a) : store o m a n v x = m x :=
  Buffer.copy_apply_of_lt h

theorem store_apply_of_le (h : a + n ≤ x) : store o m a n v x = m x :=
  Buffer.copy_apply_of_le h

/-- A store writes the same bytes over two memories. -/
theorem store_apply_congr (h : m x = m' x) : store o m a n v x = store o m' a n v x := by
  simp only [store, Buffer.copy]
  split
  · rfl
  · exact h

/-- Reading in the other byte order gives the reversed word. -/
theorem load_swap : load o.swap m a n = reverse n (load o m a n) :=
  eq_of_byte_eq (o := o.swap) load_lt reverse_lt fun k hk => by
    rw [byte_load hk, byte_reverse hk, swap_swap, byte_load hk]

/-- Writing in the other byte order writes the reversed word. -/
theorem store_swap : store o.swap m a n v = store o m a n (reverse n v) :=
  Buffer.copy_congr fun k hk => by rw [Nat.zero_add, byte_reverse hk]

end Memory

end Endian
