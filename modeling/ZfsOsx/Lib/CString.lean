import Mathlib

/-!
# C strings

A C string seen through a pointer is the list of its characters; what lies
past the list reads as the terminating NUL. The functions of `<string.h>` and
`<stdlib.h>` that scan a string read it from the pointer onwards, so each
takes the suffix `s.drop p` and returns an offset into it.

* `charAt_eq_nul`, `lt_length_of_charAt_ne`: a character other than NUL lies
  inside the list.
* `strlen_le_of_charAt`, `le_strlen`: `strlen` is the offset of the first
  NUL.
* `strtol`: the conversion of C11 7.22.1.4 for base 0, with the value clamped
  to the range of a 64-bit `long`.
-/
namespace CString

/-- The terminating NUL. -/
def nul : Char := Char.ofNat 0

/-- `p[i]`: NUL past the end of the string. -/
def charAt (s : List Char) (i : ℕ) : Char := s.getD i nul

/-- `strchr(p, c)`: the offset of the first `c` before the terminator, which
itself counts when `c` is NUL. -/
def strchr (c : Char) : List Char → Option ℕ
  | [] => if c = nul then some 0 else none
  | d :: ds => if d = c then some 0 else if d = nul then none else (strchr c ds).map (· + 1)

/-- `strlen(p)`. -/
@[grind] def strlen : List Char → ℕ
  | [] => 0
  | d :: ds => if d = nul then 0 else strlen ds + 1

/-- `isspace` in the C locale. -/
def isspace (c : Char) : Bool :=
  c = ' ' || c = '\t' || c = '\n' || c = '\x0b' || c = '\x0c' || c = '\r'

/-- The value of a digit or letter as a digit of a base up to 36. -/
def digitValue (c : Char) : Option ℕ :=
  if '0' ≤ c ∧ c ≤ '9' then some (c.toNat - '0'.toNat)
  else if 'a' ≤ c ∧ c ≤ 'z' then some (c.toNat - 'a'.toNat + 10)
  else if 'A' ≤ c ∧ c ≤ 'Z' then some (c.toNat - 'A'.toNat + 10)
  else none

/-- Whether `c` is a digit of base `base`. -/
@[grind] def isDigit (base : ℕ) (c : Char) : Bool := (digitValue c).any (· < base)

/-- The digits of base `base` at the start of a string: their value after
`acc`, and how many there are. -/
@[grind] def digits (base : ℕ) : List Char → ℕ → ℕ × ℕ
  | [], acc => (acc, 0)
  | d :: ds, acc =>
    match digitValue d with
    | some v =>
      if v < base then
        let r := digits base ds (acc * base + v)
        (r.1, r.2 + 1)
      else (acc, 0)
    | none => (acc, 0)

/-- The number of leading characters that satisfy `p`. -/
def countWhile (p : Char → Bool) : List Char → ℕ
  | [] => 0
  | d :: ds => if p d then countWhile p ds + 1 else 0

/-- `LONG_MAX` and `LONG_MIN` of a 64-bit `long`. -/
def longMax : ℤ := 2 ^ 63 - 1

def longMin : ℤ := -2 ^ 63

/-- `strtol(p, &end, 0)`: the value and the offset of `end`, which is 0 when
no digit follows the blanks and the sign. A leading `0x` or `0X` followed by
a hexadecimal digit selects base 16, another leading `0` base 8, anything else
base 10; a value out of range is clamped to `LONG_MIN` or `LONG_MAX`. -/
def strtol (s : List Char) : ℤ × ℕ :=
  let w := countWhile isspace s
  let t := s.drop w
  let neg := charAt t 0 = '-'
  let k := if charAt t 0 = '-' ∨ charAt t 0 = '+' then 1 else 0
  let u := t.drop k
  let (base, pre) :=
    if charAt u 0 = '0' ∧ (charAt u 1 = 'x' ∨ charAt u 1 = 'X') ∧ isDigit 16 (charAt u 2) then (16, 2)
    else if charAt u 0 = '0' then (8, 0)
    else (10, 0)
  let r := digits base (u.drop pre) 0
  if r.2 = 0 then (0, 0)
  else ((if neg then max (-(r.1 : ℤ)) longMin else min (r.1 : ℤ) longMax), w + k + pre + r.2)

theorem charAt_eq_nul {s : List Char} {i : ℕ} (h : s.length ≤ i) : charAt s i = nul := by
  rw [charAt, List.getD_eq_default _ _ h]

theorem lt_length_of_charAt_ne {s : List Char} {i : ℕ} (h : charAt s i ≠ nul) : i < s.length := by
  by_contra hle
  exact h (charAt_eq_nul (Nat.le_of_not_lt hle))

@[simp] theorem charAt_drop (s : List Char) (p i : ℕ) : charAt (s.drop p) i = charAt s (p + i) := by
  simp [charAt, List.getD_eq_getElem?_getD]

theorem countWhile_charAt {p : Char → Bool} {s : List Char} {i : ℕ} (h : i < countWhile p s) :
    p (charAt s i) = true := by
  induction s generalizing i with
  | nil => cases h
  | cons d ds ih =>
    by_cases hd : p d = true
    · rw [countWhile, if_pos hd] at h
      cases i with
      | zero => exact hd
      | succ i => exact ih (by omega)
    · rw [countWhile, if_neg hd] at h
      cases h

/-- `strlen` stops at the first NUL, and at the end of the list. -/
theorem strlen_le_of_charAt {s : List Char} {i : ℕ} (h : charAt s i = nul) : strlen s ≤ i := by
  induction s generalizing i with
  | nil => exact Nat.zero_le _
  | cons d ds ih =>
    by_cases hd : d = nul
    · simp [strlen, hd]
    · cases i with
      | zero => exact absurd h hd
      | succ i =>
        rw [strlen, if_neg hd]
        exact Nat.succ_le_succ (ih h)

theorem le_strlen {s : List Char} {n : ℕ} (h : ∀ i < n, charAt s i ≠ nul) : n ≤ strlen s := by
  induction s generalizing n with
  | nil => cases n with
    | zero => exact Nat.zero_le _
    | succ n => exact absurd rfl (h 0 (Nat.succ_pos _))
  | cons d ds ih =>
    cases n with
    | zero => exact Nat.zero_le _
    | succ n =>
      have hd : d ≠ nul := h 0 (Nat.succ_pos _)
      rw [strlen, if_neg hd]
      exact Nat.succ_le_succ (ih fun i hi => h (i + 1) (by omega))

theorem strlen_drop {s : List Char} {q : ℕ} (h : q ≤ strlen s) :
    strlen (s.drop q) = strlen s - q := by
  induction s generalizing q with
  | nil => simp [strlen]
  | cons d ds ih =>
    cases q with
    | zero => rfl
    | succ q =>
      have hd : d ≠ nul := fun e => by simp [strlen, e] at h
      rw [strlen, if_neg hd] at h ⊢
      rw [List.drop_succ_cons, ih (by omega)]
      omega

end CString
