import Mathlib.Logic.Function.Basic
import Mathlib.Order.Basic

/-!
# Buffers as memory

A buffer seen through a pointer is a function from offsets to cells, and a
loop that stores through `*dst++` is a run of `Function.update`s. `copy` and
`fill` state at once what a forward copy loop and a fill loop leave behind, so
that each loop of a program needs one lemma, by induction on its count, to be
replaced by them.

* `copy_succ`, `fill_succ`: the first iteration, then the rest of the loop;
  `copy_snoc`: the last iteration after the others.
* `copy_add`: two copies of adjacent blocks are one; `copy_copy`: a second copy
  to the same block hides the first; `copy_of_eq`: copying what a block already
  holds changes nothing; `fill_eq_copy`: a fill is a copy of a block holding the
  fill value.
* `copy_apply_add`, `copy_apply_of_lt`, `copy_apply_of_le`: the contents after
  a copy, inside and outside the written block; the same for `fill`.
* `writes_apply_of_mem`: after single-cell writes to distinct cells, each
  cell holds what was written to it.
* `read`: a block read, as the list of the cells it copies out; `read_add`
  splits it, and `read_getD` reads back a list laid out as a buffer.
-/
namespace Buffer

open Function (update)

variable {α : Type*}

/-- `dst` after `len` cells of `src` from offset `s` were stored at offset
`d` onwards. -/
@[grind] def copy (dst src : ℕ → α) (d s len : ℕ) : ℕ → α :=
  fun i => if d ≤ i ∧ i < d + len then src (s + (i - d)) else dst i

/-- `dst` after `len` cells from offset `d` onwards were set to `v`. -/
@[grind] def fill (dst : ℕ → α) (d len : ℕ) (v : α) : ℕ → α :=
  fun i => if d ≤ i ∧ i < d + len then v else dst i

section Copy

variable {dst src : ℕ → α} {d s len i : ℕ}

@[simp] theorem copy_zero (dst src : ℕ → α) (d s : ℕ) : copy dst src d s 0 = dst := by
  funext i
  simp only [copy]
  rw [if_neg (by omega)]

/-- A copy loop stores its first cell and copies the rest from the next
offsets. -/
theorem copy_succ (dst src : ℕ → α) (d s len : ℕ) :
    copy dst src d s (len + 1) = copy (update dst d (src s)) src (d + 1) (s + 1) len := by
  funext i
  simp only [copy, Function.update_apply]
  by_cases hi : i = d
  · subst hi
    rw [if_pos ⟨Nat.le_refl _, by omega⟩, if_neg (by omega), if_pos rfl, Nat.sub_self, Nat.add_zero]
  · rw [if_neg hi]
    by_cases h : d + 1 ≤ i ∧ i < d + 1 + len
    · rw [if_pos ⟨by omega, by omega⟩, if_pos h]
      congr 1
      omega
    · rw [if_neg h, if_neg (by omega)]

/-- A copy loop stores its last cell after the others. -/
theorem copy_snoc (dst src : ℕ → α) (d s len : ℕ) :
    copy dst src d s (len + 1) = update (copy dst src d s len) (d + len) (src (s + len)) := by
  funext i
  simp only [copy, Function.update_apply]
  by_cases hi : i = d + len
  · subst hi
    rw [if_pos ⟨by omega, by omega⟩, if_pos rfl, Nat.add_sub_cancel_left]
  · rw [if_neg hi]
    by_cases h : d ≤ i ∧ i < d + len
    · rw [if_pos ⟨h.1, by omega⟩, if_pos h]
    · rw [if_neg h, if_neg (by omega)]

theorem copy_add (dst src : ℕ → α) (d s a b : ℕ) :
    copy (copy dst src d s a) src (d + a) (s + a) b = copy dst src d s (a + b) := by
  funext i
  simp only [copy]
  by_cases h₁ : d + a ≤ i ∧ i < d + a + b
  · rw [if_pos h₁, if_pos ⟨by omega, by omega⟩]
    congr 1
    omega
  · rw [if_neg h₁]
    by_cases h₂ : d ≤ i ∧ i < d + a
    · rw [if_pos h₂, if_pos ⟨h₂.1, by omega⟩]
    · rw [if_neg h₂, if_neg (by omega)]

/-- A copy depends on the source block only. -/
theorem copy_congr {src' : ℕ → α} {s' : ℕ} (h : ∀ k < len, src (s + k) = src' (s' + k)) :
    copy dst src d s len = copy dst src' d s' len := by
  funext i
  simp only [copy]
  split
  · rename_i hi
    exact h (i - d) (by omega)
  · rfl

theorem copy_copy (dst src src' : ℕ → α) (d s s' len : ℕ) :
    copy (copy dst src d s len) src' d s' len = copy dst src' d s' len := by
  funext i
  simp only [copy]
  split <;> rfl

theorem copy_of_eq (h : ∀ k < len, src (s + k) = dst (d + k)) : copy dst src d s len = dst := by
  funext i
  simp only [copy]
  split
  · rename_i hi
    rw [h (i - d) (by omega), Nat.add_sub_cancel' hi.1]
  · rfl

theorem copy_apply_add (dst src : ℕ → α) (d s : ℕ) {len k : ℕ} (hk : k < len) :
    copy dst src d s len (d + k) = src (s + k) := by
  simp [copy, hk]

/-- Copying a block of `src` to its own offset, after a prefix that already
agrees with `src`, extends the prefix. -/
theorem copy_apply_of_prefix (h : ∀ x < s, dst x = src x) (hi : i < s + len) :
    copy dst src s s len i = src i := by
  simp only [copy]
  split
  · congr 1
    omega
  · exact h i (by omega)

theorem copy_apply_of_lt (h : i < d) : copy dst src d s len i = dst i := by
  simp only [copy]
  rw [if_neg (by omega)]

theorem copy_apply_of_le (h : d + len ≤ i) : copy dst src d s len i = dst i := by
  simp only [copy]
  rw [if_neg (by omega)]

end Copy

section Fill

variable {dst : ℕ → α} {d len i : ℕ} {v : α}

@[simp] theorem fill_zero (dst : ℕ → α) (d : ℕ) (v : α) : fill dst d 0 v = dst := by
  funext i
  simp only [fill]
  rw [if_neg (by omega)]

theorem fill_succ (dst : ℕ → α) (d len : ℕ) (v : α) :
    fill dst d (len + 1) v = fill (update dst d v) (d + 1) len v := by
  funext i
  simp only [fill, Function.update_apply]
  by_cases hi : i = d
  · subst hi
    rw [if_pos ⟨Nat.le_refl _, by omega⟩, if_neg (by omega), if_pos rfl]
  · rw [if_neg hi]
    by_cases h : d + 1 ≤ i ∧ i < d + 1 + len
    · rw [if_pos ⟨by omega, by omega⟩, if_pos h]
    · rw [if_neg h, if_neg (by omega)]

/-- Filling with a value is copying a block that holds only that value. -/
theorem fill_eq_copy {src : ℕ → α} {s : ℕ} (h : ∀ k < len, src (s + k) = v) :
    fill dst d len v = copy dst src d s len := by
  funext i
  simp only [fill, copy]
  split
  · rename_i hi
    exact (h (i - d) (by omega)).symm
  · rfl

theorem fill_apply_add (dst : ℕ → α) (d : ℕ) (v : α) {len k : ℕ} (hk : k < len) :
    fill dst d len v (d + k) = v := by
  simp [fill, hk]

theorem fill_apply_of_lt (h : i < d) : fill dst d len v i = dst i := by
  simp only [fill]
  rw [if_neg (by omega)]

theorem fill_apply_of_le (h : d + len ≤ i) : fill dst d len v i = dst i := by
  simp only [fill]
  rw [if_neg (by omega)]

end Fill

/-- The `len` cells from offset `s` on, in order: what a block read copies
out of the store. -/
@[grind] def read (m : ℕ → α) (s len : ℕ) : List α :=
  (List.range len).map fun k => m (s + k)

section Read

variable {m : ℕ → α} {s len : ℕ}

@[simp] theorem length_read : (read m s len).length = len := by
  simp [read]

@[simp] theorem read_zero : read m s 0 = [] := rfl

theorem getElem_read {k : ℕ} (hk : k < (read m s len).length) : (read m s len)[k] = m (s + k) := by
  simp [read]

theorem getD_read {k : ℕ} (d : α) (hk : k < len) : (read m s len).getD k d = m (s + k) := by
  rw [List.getD_eq_getElem?_getD, List.getElem?_eq_getElem (by simpa using hk), Option.getD_some,
    getElem_read]

/-- A block read splits at any point. -/
theorem read_add (a b : ℕ) : read m s (a + b) = read m s a ++ read m (s + a) b := by
  simp only [read, List.range_add, List.map_append, List.map_map]
  congr 2
  funext k
  simp [Nat.add_assoc]

theorem read_eq_take_drop {a b n : ℕ} (h : a + b ≤ n) : read m (s + a) b = ((read m s n).drop a).take b := by
  apply List.ext_getElem (by simp; omega)
  intro k h₁ h₂
  simp [getElem_read, Nat.add_assoc]

/-- A list laid out as a buffer reads back as the list. -/
theorem read_getD (l : List α) (d : α) : read (fun i => l.getD i d) 0 l.length = l := by
  apply List.ext_getElem (by simp)
  intro k h₁ h₂
  simp [getElem_read, List.getElem?_eq_getElem h₂]

end Read

section Writes

variable {m : ℕ → α} {ws : List (ℕ × α)} {i : ℕ}

/-- `m` after each cell `w.1` was set to `w.2`, in the order of `ws`. -/
def writes (m : ℕ → α) (ws : List (ℕ × α)) : ℕ → α :=
  ws.foldl (fun m w => update m w.1 w.2) m

@[simp]
theorem writes_nil : writes m [] = m := rfl

theorem writes_cons (w : ℕ × α) : writes m (w :: ws) = writes (update m w.1 w.2) ws := rfl

theorem writes_apply_of_not_mem (h : i ∉ ws.map Prod.fst) : writes m ws i = m i := by
  induction ws generalizing m with
  | nil => rfl
  | cons w ws ih =>
    simp only [List.map_cons, List.mem_cons, not_or] at h
    rw [writes_cons, ih h.2, Function.update_of_ne h.1]

/-- With each cell written once, a cell holds what its write stored. -/
theorem writes_apply_of_mem (hnd : (ws.map Prod.fst).Nodup) {w : ℕ × α} (hw : w ∈ ws) :
    writes m ws w.1 = w.2 := by
  induction ws generalizing m with
  | nil => cases hw
  | cons w' ws ih =>
    rw [List.map_cons, List.nodup_cons] at hnd
    rw [writes_cons]
    rcases List.mem_cons.1 hw with rfl | hw
    · rw [writes_apply_of_not_mem hnd.1, Function.update_self]
    · exact ih hnd.2 hw

end Writes

end Buffer
