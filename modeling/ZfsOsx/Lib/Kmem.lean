import Mathlib.Data.List.Basic

/-!
# Objects allocated by address

`kmem_alloc` hands out an object at an address, and `kmem_free` releases it.
`Kmem α` keeps every object allocated so far by its address, a freed one as
`none`. An address is handed out once only, so a freed object stays freed: a
read or a free through a stale pointer finds `none`, whichever object later
takes its memory. That is what a use after free is in this model.

* `get_alloc_self`, `get_alloc_of_ne`, `get_set_self`, `get_set_of_ne`,
  `get_free_self`, `get_free_of_ne`: what each operation does at its own
  address and leaves elsewhere; `get_set_of_get` both at once for a store
  into a live object.
* `get_of_next_le`: nothing lives at or past the next address, so a freshly
  allocated address differs from every live one (`ne_next_of_get`).
-/
namespace Kmem

/-- The objects allocated so far, by address; a freed one is `none`. -/
structure Arena (α : Type) where
  cells : List (Option α)
  deriving DecidableEq, Repr

variable {α : Type} (h : Arena α)

/-- The arena before anything is allocated. -/
def empty : Arena α := ⟨[]⟩

/-- The address the next allocation returns. -/
@[grind] def Arena.next : ℕ := h.cells.length

/-- `kmem_alloc`, the new object holding `a`; it lives at `h.next`. -/
@[grind] def Arena.alloc (a : α) : Arena α := ⟨h.cells ++ [some a]⟩

/-- The object at `p`, `none` once it is freed or before it is allocated. -/
@[grind] def Arena.get (p : ℕ) : Option α := h.cells[p]?.bind id

/-- A store into the object at `p`. -/
@[grind] def Arena.set (p : ℕ) (a : α) : Arena α := ⟨h.cells.set p (some a)⟩

/-- `kmem_free` of the object at `p`. -/
@[grind] def Arena.free (p : ℕ) : Arena α := ⟨h.cells.set p none⟩

namespace Arena

variable {h} {p q : ℕ} {a : α}

theorem get_of_next_le (hp : h.next ≤ p) : h.get p = none := by
  simp [get, List.getElem?_eq_none (show h.cells.length ≤ p from hp)]

/-- A live object's address is not the next one. -/
theorem ne_next_of_get (hp : h.get p = some a) : p ≠ h.next := by
  rintro rfl
  rw [get_of_next_le (Nat.le_refl _)] at hp
  cases hp

@[simp] theorem next_alloc : (h.alloc a).next = h.next + 1 := by
  simp [alloc, next]

@[simp] theorem next_set : (h.set p a).next = h.next := by
  simp [set, next]

@[simp] theorem next_free : (h.free p).next = h.next := by
  simp [free, next]

@[simp] theorem get_empty : (empty : Arena α).get p = none := by
  simp [empty, get]

@[simp] theorem get_alloc_self : (h.alloc a).get h.next = some a := by
  simp [alloc, get, next]

theorem get_alloc_of_ne (hp : p ≠ h.next) : (h.alloc a).get p = h.get p := by
  simp only [alloc, get, next] at hp ⊢
  rcases Nat.lt_or_gt_of_ne hp with hlt | hgt
  · rw [List.getElem?_append_left hlt]
  · rw [List.getElem?_eq_none (by simp; omega), List.getElem?_eq_none (by omega)]

theorem get_set_self (hp : (h.get p).isSome) : (h.set p a).get p = some a := by
  have hlt : p < h.cells.length := by
    by_contra hge
    simp [get, List.getElem?_eq_none (Nat.le_of_not_lt hge)] at hp
  simp [set, get, hlt]

theorem get_set_of_ne (hq : q ≠ p) : (h.set p a).get q = h.get q := by
  simp [set, get, Ne.symm hq]

/-- A store into a live object, read anywhere. -/
theorem get_set_of_get (hp : h.get p = some a) (b : α) (q : ℕ) :
    (h.set p b).get q = if q = p then some b else h.get q := by
  split_ifs with hq
  · subst hq
    exact get_set_self (by simp [hp])
  · exact get_set_of_ne hq

@[simp] theorem get_free_self : (h.free p).get p = none := by
  simp only [free, get, List.getElem?_set]
  split_ifs <;> simp

theorem get_free_of_ne (hq : q ≠ p) : (h.free p).get q = h.get q := by
  simp [free, get, Ne.symm hq]

end Arena

end Kmem
