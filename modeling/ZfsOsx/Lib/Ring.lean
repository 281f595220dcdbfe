import Mathlib
import ZfsOsx.Lib.Buffer
/-!
# Rings over a flat store

A ring of `len` cells at `base, …, base + len - 1` of a store holds a window
of an unbounded logical stream: logical position `x ≥ base` lives in cell
`slot base len x`, so the stream wraps from the end of the ring back to
`base`, and the cells below `base` are outside the ring. A writer appends at
a logical position with two block copies, the part that does not fit before
the end of the ring going to its start; a reader sees the window through
`read`.

* `slot_add`, `slot_add_of_le`: a step of `k` cells moves the slot by `k`,
  less `len` once it passes the end; `slot_inj`: positions less than `len`
  apart have different slots.
* `write_apply_slot`, `write_apply_of_forall_ne`, `write_apply_of_lt`: a
  split write stores the source at the slots of the positions it covers and
  nowhere else.
* `read_write_new`, `read_write_old`, `read_write_append`: the window after
  a write, at the positions written and at the positions before them;
  `block_write_of_le`: the store below the ring after a write.
* `read_add`, `read_eq_take_drop`, `read_eq_block`, `read_split`: a window
  read splits at any point, is one block read of the store as long as it
  does not cross the end of the ring, and two block reads when it does.
-/
namespace Ring

open Buffer (copy)

variable {α : Type*}

/-- The cell of a ring of `len` cells from `base` that logical position `x`
maps to. -/
def slot (base len x : ℕ) : ℕ := (x - base) % len + base

/-- The `n` cells of the stream from logical position `x` on. -/
@[grind] def read (m : ℕ → α) (base len x n : ℕ) : List α :=
  (List.range n).map fun k => m (slot base len (x + k))

/-- `m` after the `n` cells of `src` from offset `s` on were appended at
logical position `x`: as many as fit before the end of the ring from
`slot x`, the rest from `base`. -/
def write (m src : ℕ → α) (base len x s n : ℕ) : ℕ → α :=
  let first := min n (base + len - slot base len x)
  copy (copy m src (slot base len x) s first) src base (s + first) (n - first)

section Slot

variable {base len x y k : ℕ}

theorem le_slot : base ≤ slot base len x := Nat.le_add_left _ _

theorem slot_lt (h : 0 < len) : slot base len x < base + len := by
  have := Nat.mod_lt (x - base) h
  unfold slot
  omega

theorem slot_add (hx : base ≤ x) (hk : slot base len x + k < base + len) :
    slot base len (x + k) = slot base len x + k := by
  unfold slot at *
  have hsum : x + k - base = (x - base) + k := by omega
  rw [hsum, Nat.add_mod, Nat.mod_eq_of_lt (show k < len by omega), Nat.mod_eq_of_lt (by omega)]
  omega

/-- Past the end of the ring the slot starts again at `base`. -/
theorem slot_add_of_le (hx : base ≤ x) (hlen : 0 < len) (hk : k ≤ len)
    (h : base + len ≤ slot base len x + k) : slot base len (x + k) = slot base len x + k - len := by
  unfold slot at *
  have hr := Nat.mod_lt (x - base) hlen
  have hsum : x + k - base = (x - base) / len * len + ((x - base) % len + k) := by
    have := Nat.div_add_mod' (x - base) len
    omega
  rw [hsum, Nat.mul_add_mod_self_right, Nat.mod_eq_sub_mod (by omega), Nat.mod_eq_of_lt (by omega)]
  omega

/-- The first position past the end of the ring maps to `base`. -/
theorem slot_add_gap (hx : base ≤ x) (hlen : 0 < len) :
    slot base len (x + (base + len - slot base len x)) = base := by
  have hp : slot base len x < base + len := slot_lt hlen
  have hb : base ≤ slot base len x := le_slot
  rw [slot_add_of_le hx hlen (by omega) (by omega)]
  omega

/-- Two positions of one window of `len` cells have different slots. -/
theorem slot_inj (hx : base ≤ x) (hxy : x ≤ y) (hy : y < x + len)
    (h : slot base len y = slot base len x) : y = x := by
  unfold slot at h
  have hmod : (y - base) % len = (x - base) % len := by omega
  have hd := Nat.sub_mod_eq_zero_of_mod_eq hmod
  rw [show y - base - (x - base) = y - x by omega, Nat.mod_eq_of_lt (by omega)] at hd
  omega

end Slot

section Write

variable {m src : ℕ → α} {base len x y s n k i : ℕ}

theorem write_apply_slot (hx : base ≤ x) (hn : n ≤ len) (hk : k < n) :
    write m src base len x s n (slot base len (x + k)) = src (s + k) := by
  have hp : slot base len x < base + len := slot_lt (by omega)
  have hb : base ≤ slot base len x := le_slot
  unfold write
  by_cases hw : slot base len x + k < base + len
  · -- before the end of the ring: the first copy, which the second does not reach
    rw [slot_add hx hw, Buffer.copy_apply_of_le (by omega), Buffer.copy_apply_add _ _ _ _ (by omega)]
  · -- past the end: the second copy, from `base`
    rw [slot_add_of_le hx (by omega) (by omega) (by omega),
      show slot base len x + k - len = base + (slot base len x + k - len - base) by omega,
      Buffer.copy_apply_add _ _ _ _ (by omega)]
    congr 1
    omega

/-- A write changes only the slots of the positions it covers. -/
theorem write_apply_of_forall_ne (hx : base ≤ x) (hlen : 0 < len) (hn : n ≤ len)
    (h : ∀ k < n, slot base len (x + k) ≠ i) : write m src base len x s n i = m i := by
  have hp : slot base len x < base + len := slot_lt hlen
  have hb : base ≤ slot base len x := le_slot
  unfold write
  simp only [Buffer.copy]
  split_ifs with h₁ h₂
  · -- a cell of the second copy is the slot of a position past the end
    exfalso
    refine h (base + len - slot base len x + (i - base)) (by omega) ?_
    rw [slot_add_of_le hx hlen (by omega) (by omega)]
    omega
  · exfalso
    refine h (i - slot base len x) (by omega) ?_
    rw [slot_add hx (by omega)]
    omega
  · rfl

/-- The cells below the ring are never written. -/
theorem write_apply_of_lt (h : i < base) : write m src base len x s n i = m i := by
  unfold write
  rw [Buffer.copy_apply_of_lt h, Buffer.copy_apply_of_lt (lt_of_lt_of_le h le_slot)]

end Write

section Read

variable {m m' src : ℕ → α} {base len x y s n k : ℕ}

@[simp] theorem length_read : (read m base len x n).length = n := by
  simp [read]

@[simp] theorem read_zero : read m base len x 0 = [] := rfl

theorem getElem_read (hk : k < (read m base len x n).length) :
    (read m base len x n)[k] = m (slot base len (x + k)) := by
  simp [read]

/-- A window read splits at any point. -/
theorem read_add (a b : ℕ) :
    read m base len x (a + b) = read m base len x a ++ read m base len (x + a) b := by
  simp only [read, List.range_add, List.map_append, List.map_map]
  congr 2
  funext k
  simp [Nat.add_assoc]

/-- A part of a window read is read from within it. -/
theorem read_eq_take_drop {a b : ℕ} (h : a + b ≤ n) :
    read m base len (x + a) b = ((read m base len x n).drop a).take b := by
  apply List.ext_getElem (by simp; omega)
  intro k h₁ h₂
  simp [getElem_read, Nat.add_assoc]

theorem read_congr (h : ∀ k < n, m (slot base len (x + k)) = m' (slot base len (x + k))) :
    read m base len x n = read m' base len x n := by
  unfold read
  apply List.map_congr_left
  intro k hk
  exact h k (List.mem_range.1 hk)

/-- A window that does not cross the end of the ring is one block of the store. -/
theorem read_eq_block (hx : base ≤ x) (h : slot base len x + n ≤ base + len) :
    read m base len x n = Buffer.read m (slot base len x) n := by
  unfold read Buffer.read
  apply List.map_congr_left
  intro k hk
  rw [slot_add hx (by have := List.mem_range.1 hk; omega)]

/-- A window read is two block reads: up to the end of the ring, then from
its start. -/
theorem read_split (hx : base ≤ x) (hlen : 0 < len) (hn : n ≤ len) :
    read m base len x n = Buffer.read m (slot base len x) (min n (base + len - slot base len x)) ++
      Buffer.read m base (n - min n (base + len - slot base len x)) := by
  have hp : slot base len x < base + len := slot_lt hlen
  have hf : min n (base + len - slot base len x) ≤ n := min_le_left _ _
  conv_lhs => rw [← Nat.add_sub_cancel' hf]
  rw [read_add, read_eq_block hx (by omega)]
  congr 1
  by_cases h : n ≤ base + len - slot base len x
  · rw [show n - min n (base + len - slot base len x) = 0 by omega, read_zero, Buffer.read_zero]
  · -- the window crosses the end: its second part starts at `base`
    rw [show min n (base + len - slot base len x) = base + len - slot base len x by omega,
      read_eq_block (by omega) (by rw [slot_add_gap hx hlen]; omega), slot_add_gap hx hlen]

/-- The positions just written hold the source. -/
theorem read_write_new (hx : base ≤ x) (hn : n ≤ len) :
    read (write m src base len x s n) base len x n = Buffer.read src s n := by
  unfold read Buffer.read
  apply List.map_congr_left
  intro k hk
  exact write_apply_slot hx hn (List.mem_range.1 hk)

/-- The positions from `y` up to the write are kept, as long as they and the
write fit in the ring together. -/
theorem read_write_old (hy : base ≤ y) (hyx : y ≤ x) (hlen : 0 < len) (hn : x - y + n ≤ len) :
    read (write m src base len x s n) base len y (x - y) = read m base len y (x - y) := by
  apply read_congr
  intro j hj
  apply write_apply_of_forall_ne (by omega) hlen (by omega)
  intro k hk heq
  have := slot_inj (by omega) (show y + j ≤ x + k by omega) (by omega) heq
  omega

/-- Appending to a window: the positions from `y` on read as before, then
the source. -/
theorem read_write_append (hy : base ≤ y) (hyx : y ≤ x) (hlen : 0 < len) (hn : x - y + n ≤ len) :
    read (write m src base len x s n) base len y (x - y + n) =
      read m base len y (x - y) ++ Buffer.read src s n := by
  rw [read_add, read_write_old hy hyx hlen hn, Nat.add_sub_cancel' hyx,
    read_write_new (by omega) (by omega)]

/-- The store below the ring is not written. -/
theorem block_write_of_le {a b : ℕ} (h : a + b ≤ base) :
    Buffer.read (write m src base len x s n) a b = Buffer.read m a b := by
  unfold Buffer.read
  apply List.map_congr_left
  intro k hk
  exact write_apply_of_lt (by have := List.mem_range.1 hk; omega)

end Read

end Ring
