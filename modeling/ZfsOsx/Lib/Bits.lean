import Mathlib
/-!
# Flag words

C code keeps sets of flags as bits of an integer: `x |= b` adds the flag `b`,
`x &= ~m` removes the flags of `m`, and `x & b` tests one. On `ℕ` the
complement is not available, so `clearBits x m = x ^ (x & m)` stands for
`x & ~m`; it agrees with it on every bit. The lemmas read each operation bit
by bit, for single-bit flags `2 ^ j`.
-/
namespace FlagWord

/-- `x & ~m`: the bits of `x` outside `m`. -/
def clearBits (x m : ℕ) : ℕ := x ^^^ (x &&& m)

@[simp] theorem testBit_clearBits (x m i : ℕ) :
    (clearBits x m).testBit i = (x.testBit i && !m.testBit i) := by
  simp only [clearBits, Nat.testBit_xor, Nat.testBit_and]
  cases x.testBit i <;> cases m.testBit i <;> rfl

@[simp] theorem clearBits_self (x : ℕ) : clearBits x x = 0 := by
  simp [clearBits]

theorem and_two_pow_eq_zero_iff (x j : ℕ) : x &&& 2 ^ j = 0 ↔ x.testBit j = false := by
  constructor
  · intro h
    have := congrArg (·.testBit j) h
    simpa [Nat.testBit_and] using this
  · intro h
    apply Nat.eq_of_testBit_eq
    intro i
    by_cases hij : j = i
    · subst hij
      simp [Nat.testBit_and, h]
    · simp [Nat.testBit_and, hij]

theorem and_two_pow_of_ne_zero {x j : ℕ} (h : x &&& 2 ^ j ≠ 0) : x &&& 2 ^ j = 2 ^ j := by
  have hx : x.testBit j = true := by
    by_contra hb
    exact h ((and_two_pow_eq_zero_iff x j).2 (by simpa using hb))
  apply Nat.eq_of_testBit_eq
  intro i
  by_cases hij : j = i
  · subst hij
    simp [Nat.testBit_and, hx]
  · simp [Nat.testBit_and, hij]


theorem testBit_of_and_eq {x m i : ℕ} (h : x &&& m = m) (hm : m.testBit i = true) :
    x.testBit i = true := by
  have := congrArg (·.testBit i) h
  simp only [Nat.testBit_and, hm, Bool.and_true] at this
  exact this

/-- Reducing `x` modulo `2 ^ n` keeps every bit that a mask below `2 ^ n`
tests. -/
theorem mod_two_pow_and {x b n : ℕ} (hb : b < 2 ^ n) : x % 2 ^ n &&& b = x &&& b := by
  apply Nat.eq_of_testBit_eq
  intro i
  rw [Nat.testBit_and, Nat.testBit_and, Nat.testBit_mod_two_pow]
  by_cases hi : i < n
  · simp [hi]
  · have hbi : b.testBit i = false :=
      Nat.testBit_lt_two_pow (lt_of_lt_of_le hb (Nat.pow_le_pow_right (by decide) (by omega)))
    simp [hbi]

/-- Setting `b` before clearing `m` is undone by setting `b` again after. -/
theorem clearBits_or_or (x b m : ℕ) : clearBits (x ||| b) m ||| b = clearBits x m ||| b := by
  apply Nat.eq_of_testBit_eq
  intro i
  simp only [Nat.testBit_or, testBit_clearBits]
  cases x.testBit i <;> cases b.testBit i <;> cases m.testBit i <;> rfl

/-- A flag set twice, with another between. -/
theorem or_or_or_self (x b c : ℕ) : x ||| b ||| c ||| b = x ||| c ||| b := by
  apply Nat.eq_of_testBit_eq
  intro i
  simp only [Nat.testBit_or]
  cases x.testBit i <;> cases b.testBit i <;> cases c.testBit i <;> rfl

theorem or_and_of_and_eq_zero {x b t : ℕ} (h : b &&& t = 0) : (x ||| b) &&& t = x &&& t := by
  apply Nat.eq_of_testBit_eq
  intro i
  have hi := congrArg (·.testBit i) h
  simp only [Nat.testBit_and, Nat.zero_testBit] at hi
  simp only [Nat.testBit_and, Nat.testBit_or]
  revert hi
  cases x.testBit i <;> cases b.testBit i <;> cases t.testBit i <;> simp

theorem clearBits_and_eq_zero {x m r : ℕ} (h : m &&& r = r) : clearBits x m &&& r = 0 := by
  apply Nat.eq_of_testBit_eq
  intro i
  have hi := congrArg (·.testBit i) h
  simp only [Nat.testBit_and] at hi
  simp only [Nat.testBit_and, testBit_clearBits, Nat.zero_testBit]
  revert hi
  cases x.testBit i <;> cases m.testBit i <;> cases r.testBit i <;> simp

end FlagWord
