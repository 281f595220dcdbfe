import ZfsOsx.Lib.CString

/-!
# Bounded integer parsing (`lib/libuutil/uu_strtoint.c`)

`strtoint` scans a string byte by byte: blanks, a sign, a base chosen from a
leading `0` or `0x` when the base is 0, an optional `0x` in base 16, then
digits, then only blanks up to the NUL. Errors are collected in flags and
reported after the scan. `uu_strtoint` and `uu_strtouint` check the width
and the range around it. The memory from `s` on is a list of characters that
holds the string, its NUL and whatever follows it.

* `strtoint_reads_past_nul_iff`: the last byte `strtoint` reads is past the
  string's NUL exactly when the string is a blank prefix, a sign and `0x`
  with nothing after it, in base 16 or 0. After the prefix the cursor stands
  on the NUL and the digit loop's `*++s` steps over it.
* `CTOI` maps the bytes `:` to `@` to the digits 3 to 9, so `"1:"` is read
  as 13 (`uu_strtouint_colon`).
-/
namespace ZfsOsx.Libuutil

open CString

/-- The `uu_error_t` values set here. -/
inductive UuError
  | invalidArgument | empty | invalidChar | invalidDigit | underflow | overflow
  deriving DecidableEq, Repr

/-- `CTOI(x)` on an `unsigned`: a byte that is neither a decimal digit nor a
lowercase letter goes through `x + 10 - 'A'`, which wraps below 55. -/
def ctoi (c : Char) : ℕ :=
  if '0' ≤ c ∧ c ≤ '9' then c.toNat - 48
  else if 'a' ≤ c ∧ c ≤ 'z' then c.toNat + 10 - 97
  else (c.toNat + 10 + 2 ^ 32 - 65) % 2 ^ 32

/-- The value and the error flags of the scan. -/
structure Scan where
  val : ℕ
  badDigit : Bool
  badChar : Bool
  overflow : Bool

/-- A byte that is no digit of the base: `bad_digit` for a decimal digit,
`bad_char` for anything else. -/
def Scan.bad (st : Scan) (c : Char) : Scan :=
  if '0' ≤ c ∧ c ≤ '9' then { st with badDigit := true } else { st with badChar := true }

/-- The body of the digit loop for a byte that ends neither the string nor
the digits; the overflow test is split into the multiply and the add. -/
def digitStep (base : ℕ) (st : Scan) (c : Char) : Scan :=
  let i := if base ≤ ctoi c then 0 else ctoi c
  let st := if base ≤ ctoi c then st.bad c else st
  let v := st.val * base % 2 ^ 64
  { st with
    val := (v + i) % 2 ^ 64
    overflow := st.overflow || decide ((2 ^ 64 - 1) / base < st.val) || decide (2 ^ 64 - 1 - v < i) }

/-- `for (c = *++s; c != '\0'; c = *++s)` over the bytes after `s`: the scan,
and how many bytes it took before the NUL or the blank that ended it. -/
def digitLoop (base : ℕ) : List Char → Scan → Scan × ℕ
  | [], st => (st, 0)
  | c :: cs, st =>
    if c = nul ∨ (base ≤ ctoi c ∧ isspace c) then (st, 0)
    else
      let r := digitLoop base cs (digitStep base st c)
      (r.1, r.2 + 1)

/-- The blanks and the sign: where the number starts, and whether the sign
is `-`. -/
def strtointSign (mem : List Char) : ℕ × Bool :=
  let w := countWhile isspace mem
  if charAt mem w = '-' ∨ charAt mem w = '+' then (w + 1, charAt mem w = '-') else (w, false)

/-- The base, chosen from `0x` or a leading `0` when it is 0, and where the
digits start: after `0x` in base 16. -/
def strtointBase (mem : List Char) (p base : ℕ) : ℕ × ℕ :=
  let x := charAt mem (p + 1) = 'x' ∨ charAt mem (p + 1) = 'X'
  let base := if base = 0 then (if charAt mem p ≠ '0' then 10 else if x then 16 else 8) else base
  (base, if base = 16 ∧ charAt mem p = '0' ∧ x then p + 2 else p)

/-- `strtoint(s, out, base, sign)`: the result, and the offset of the last
byte read, the NUL that ends the trailing loop. -/
def strtoint (mem : List Char) (base : ℕ) (sign : Bool) : Except UuError ℕ × ℕ :=
  if base = 1 ∨ 36 < base then (.error .invalidArgument, 0)
  else
    let p := (strtointSign mem).1
    let neg := (strtointSign mem).2
    if charAt mem p = nul then (.error .empty, p)
    else
      let bp := strtointBase mem p base
      let base := bp.1
      let p := bp.2
      let c := charAt mem p
      let st₀ : Scan :=
        { val := if base ≤ ctoi c then 0 else ctoi c, badDigit := false, badChar := false,
          overflow := neg && !sign }
      let r := digitLoop base (mem.drop (p + 1)) (if base ≤ ctoi c then st₀.bad c else st₀)
      let q := p + 1 + r.2
      -- `while ((c = *s) != 0)`: only blanks may follow the digits
      let trailBad := ((mem.drop q).take (strlen (mem.drop q))).any fun c => !isspace c
      let overflow := r.1.overflow ||
        (sign && if neg then decide (2 ^ 63 < r.1.val) else decide (2 ^ 63 - 1 < r.1.val))
      let res : Except UuError ℕ :=
        if r.1.badChar || trailBad then .error .invalidChar
        else if r.1.badDigit then .error .invalidDigit
        else if overflow then .error (if neg then .underflow else .overflow)
        else .ok (if neg then (2 ^ 64 - r.1.val) % 2 ^ 64 else r.1.val)
      (res, q + strlen (mem.drop q))

/-- `uu_strtouint(s, v, sz, base, min, max)`: `min == 0 && max == 0` stands
for the whole range of the width. -/
def uuStrtouint (mem : List Char) (sz base min max : ℕ) : Except UuError ℕ :=
  if max < min then .error .invalidArgument
  else if sz ∉ [1, 2, 4, 8] ∨ 2 ^ (8 * sz) - 1 < max then .error .invalidArgument
  else
    let max := if min = 0 ∧ max = 0 then 2 ^ (8 * sz) - 1 else max
    match (strtoint mem base false).1 with
    | .error e => .error e
    | .ok val => if val < min then .error .underflow else if max < val then .error .overflow else .ok val

/-- `uu_strtoint(s, v, sz, base, min, max)`: the unsigned result of
`strtoint` is read back as an `int64_t`. -/
def uuStrtoint (mem : List Char) (sz base : ℕ) (min max : ℤ) : Except UuError ℤ :=
  if max < min then .error .invalidArgument
  else if sz ∉ [1, 2, 4, 8] ∨ 2 ^ (8 * sz - 1) - 1 < max ∨ min < -2 ^ (8 * sz - 1) then
    .error .invalidArgument
  else
    let (min, max) := if min = 0 ∧ max = 0 then (-2 ^ (8 * sz - 1), 2 ^ (8 * sz - 1) - 1) else (min, max)
    match (strtoint mem base true).1 with
    | .error e => .error e
    | .ok u =>
      let val : ℤ := if 2 ^ 63 ≤ u then (u : ℤ) - 2 ^ 64 else u
      if val < min then .error .underflow else if max < val then .error .overflow else .ok val


/-! ## Where the scan stops -/

theorem digitLoop_snd_le (base : ℕ) (l : List Char) (st : Scan) :
    (digitLoop base l st).2 ≤ strlen l := by
  induction l generalizing st with
  | nil => exact Nat.le_refl _
  | cons c cs ih =>
    by_cases hc : c = nul ∨ (base ≤ ctoi c ∧ isspace c)
    · simp [digitLoop, hc]
    · have hn : c ≠ nul := fun e => hc (.inl e)
      simp only [digitLoop, if_neg hc, strlen, if_neg hn]
      exact Nat.succ_le_succ (ih _)

theorem charAt_ne_nul_of_lt_sign {mem : List Char} {i : ℕ} (h : i < (strtointSign mem).1) :
    charAt mem i ≠ nul := by
  have hblank : ∀ j < countWhile isspace mem, charAt mem j ≠ nul := fun j hj e => by
    have := countWhile_charAt hj
    rw [e] at this
    exact absurd this (by decide)
  simp only [strtointSign] at h
  split_ifs at h with hs
  · rcases Nat.lt_succ_iff_lt_or_eq.1 h with h | rfl
    · exact hblank i h
    · rcases hs with hs | hs <;> rw [hs] <;> decide
  · exact hblank i h

theorem strlen_lt_read_iff {mem : List Char} {p k : ℕ} (hpre : ∀ i < p, charAt mem i ≠ nul)
    (hk : k ≤ strlen (mem.drop (p + 1))) :
    strlen mem < p + 1 + k + strlen (mem.drop (p + 1 + k)) ↔ charAt mem p = nul := by
  by_cases hp : charAt mem p = nul
  · have := strlen_le_of_charAt hp
    simp only [hp, iff_true]
    omega
  · have hlt : p + 1 ≤ strlen mem :=
      le_strlen fun i hi => if h : i < p then hpre i h else by rwa [show i = p by omega]
    rw [strlen_drop hlt] at hk
    rw [strlen_drop (by omega)]
    simp only [hp, iff_false]
    omega

theorem strtointBase_snd {mem : List Char} {p : ℕ} (base : ℕ) (hp : charAt mem p ≠ nul) :
    (∀ i < (strtointBase mem p base).2, p ≤ i → charAt mem i ≠ nul) ∧
    (charAt mem (strtointBase mem p base).2 = nul ↔
      (base = 0 ∨ base = 16) ∧ charAt mem p = '0' ∧
        (charAt mem (p + 1) = 'x' ∨ charAt mem (p + 1) = 'X') ∧ charAt mem (p + 2) = nul) := by
  by_cases hx : charAt mem p = '0' ∧ (charAt mem (p + 1) = 'x' ∨ charAt mem (p + 1) = 'X')
  · obtain ⟨h0, hx⟩ := hx
    have hx1 : charAt mem (p + 1) ≠ nul := by rcases hx with hx | hx <;> rw [hx] <;> decide
    by_cases hb : base = 0 ∨ base = 16
    · -- the `0x` is skipped
      have hsk : (strtointBase mem p base).2 = p + 2 := by
        rcases hb with rfl | rfl <;> simp [strtointBase, h0, hx]
      rw [hsk]
      refine ⟨fun i hi hpi => ?_, by simp [hb, h0, hx]⟩
      rcases (show i = p ∨ i = p + 1 by omega) with rfl | rfl
      · exact hp
      · exact hx1
    · have hsk : (strtointBase mem p base).2 = p := by
        simp only [strtointBase, not_or] at hb ⊢
        simp [hb.1, hb.2]
      rw [hsk]
      exact ⟨fun i hi hpi => absurd hi (by omega), by simp [hp, hb]⟩
  · have hsk : (strtointBase mem p base).2 = p := by
      simp only [strtointBase]
      rw [if_neg (fun h => hx ⟨h.2.1, h.2.2⟩)]
    rw [hsk]
    refine ⟨fun i hi hpi => absurd hi (by omega), ?_⟩
    simp only [hp, false_iff]
    exact fun ⟨_, h0, hx', _⟩ => hx ⟨h0, hx'⟩

theorem strtoint_snd {base : ℕ} (hb : ¬(base = 1 ∨ 36 < base)) {mem : List Char} (sign : Bool)
    (h0 : charAt mem (strtointSign mem).1 ≠ nul) :
    ∃ st, (strtoint mem base sign).2 =
      let bp := strtointBase mem (strtointSign mem).1 base
      let q := bp.2 + 1 + (digitLoop bp.1 (mem.drop (bp.2 + 1)) st).2
      q + strlen (mem.drop q) := by
  simp only [strtoint, if_neg hb, if_neg h0]
  exact ⟨_, rfl⟩

/-- The last byte `strtoint` reads is past the string's NUL exactly when the
string is blanks, a sign and a bare `0x`, in base 16 or 0. -/
theorem strtoint_reads_past_nul_iff {base : ℕ} (hb : base ≠ 1 ∧ base ≤ 36)
    (mem : List Char) (sign : Bool) :
    strlen mem < (strtoint mem base sign).2 ↔
      (base = 0 ∨ base = 16) ∧ charAt mem (strtointSign mem).1 = '0' ∧
        (charAt mem ((strtointSign mem).1 + 1) = 'x' ∨
          charAt mem ((strtointSign mem).1 + 1) = 'X') ∧
        charAt mem ((strtointSign mem).1 + 2) = nul := by
  have hb' : ¬(base = 1 ∨ 36 < base) := by omega
  have hpre := @charAt_ne_nul_of_lt_sign mem
  by_cases h0 : charAt mem (strtointSign mem).1 = nul
  · -- UU_ERROR_EMPTY: the scan ends on the NUL after the sign
    have hle : (strtointSign mem).1 ≤ strlen mem := le_strlen fun i hi => hpre hi
    simp only [strtoint, if_neg hb', h0, if_true]
    constructor
    · intro h
      omega
    · rintro ⟨-, h, -⟩
      exact absurd h (by decide)
  · obtain ⟨st, hst⟩ := strtoint_snd hb' sign h0
    obtain ⟨hmid, hiff⟩ := strtointBase_snd base h0
    rw [hst, ← hiff]
    apply strlen_lt_read_iff _ (digitLoop_snd_le _ _ _)
    intro i hi
    by_cases hip : i < (strtointSign mem).1
    · exact hpre hip
    · exact hmid i hi (by omega)

/-- `"0x"` in base 16: the cursor is moved past `0x` onto the NUL, and the
digit loop reads the byte after it. -/
theorem strtoint_hex_prefix_overread :
    strlen ['0', 'x', nul, nul] = 2 ∧ strtoint ['0', 'x', nul, nul] 16 false = (.error .invalidChar, 3) ∧
      uuStrtouint ['0', 'x', nul, nul] 8 16 0 0 = .error .invalidChar := by
  decide

/-- `CTOI(':')` is `58 + 10 - 65 = 3`, a digit of base 10. -/
theorem uu_strtouint_colon : uuStrtouint ['1', ':', nul] 1 10 0 100 = .ok 13 := by
  decide

end ZfsOsx.Libuutil
