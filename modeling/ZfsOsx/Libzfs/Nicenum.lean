import ZfsOsx.Lib.CString
import Mathlib.Data.Nat.Digits.Defs
import Mathlib.Tactic.IntervalCases

/-!
# Human-readable sizes (`lib/libzfs/libzfs_util.c`)

`zfs_nicenum` prints a 64-bit count as a number and a unit letter of
`" KMGTPE"`, dividing by 1024 until the number is below 1024.
`zfs_nicestrtonum` reads such a string back: `strtoull` takes the decimal
digits, `str2shift` turns the suffix into a shift (ten times the unit's
index in `"BKMGTPEZ"`), and the number is shifted left after a test that no
bit is lost. A digit run followed by `.` goes to the floating-point path,
which is not modelled.

* `zfsNicestrtonum_eq_ok_iff`: off the floating-point path the parse
  succeeds exactly on a decimal integer with an accepted suffix whose shift
  is below 64 and whose shifted value fits in 64 bits.
* `zfsNicestrtonum_zfsNicenum`: every string `zfs_nicenum` prints without a
  fraction parses back to the number printed.
* `Z` is ten times index 7, a shift of 70: the test `shift >= 64` rejects
  every `Z` suffix, `"0Z"` included (`zfs_nicestrtonum_zero_z`).
-/
namespace ZfsOsx.Libzfs

open CString

/-! ## The model -/

/-- `toupper` in the C locale. -/
def toupper (c : Char) : Char :=
  if 'a' ≤ c ∧ c ≤ 'z' then Char.ofNat (c.toNat - 32) else c

/-- The units of `str2shift`, `"BKMGTPEZ"`: unit `i` shifts by `10 * i`. -/
def ends : List Char := ['B', 'K', 'M', 'G', 'T', 'P', 'E', 'Z']

/-- `str2shift(hdl, buf)`; `none` is the return value -1, reported as
"invalid numeric suffix". The loop over `ends` stops at the first unit equal
to `toupper(buf[0])`, or at `strlen(ends)`. -/
def str2shift (buf : List Char) : Option ℕ :=
  if charAt buf 0 = nul then some 0
  else
    let i := ends.idxOf (toupper (charAt buf 0))
    if i = ends.length then none
    -- 'G' = 'GB' = 'GiB', but 'BB' and 'BiB' are refused
    else if charAt buf 1 = nul ∨
        (toupper (charAt buf 0) ≠ 'B' ∧
          ((toupper (charAt buf 1) = 'B' ∧ charAt buf 2 = nul) ∨
            (toupper (charAt buf 1) = 'I' ∧ toupper (charAt buf 2) = 'B' ∧
              charAt buf 3 = nul))) then some (10 * i)
    else none

/-- The messages `zfs_nicestrtonum` leaves with `zfs_error_aux`. -/
inductive NicestrtonumError
  /-- "bad numeric value '%s'" -/
  | badNumericValue
  /-- "numeric value is too large" -/
  | tooLarge
  /-- "invalid numeric suffix '%s'", from `str2shift` -/
  | invalidSuffix
  deriving DecidableEq, Repr

/-- What `zfs_nicestrtonum` returns: 0 with `*num`, or -1 with a message;
`fractional` stands for the `strtod` path, which is not modelled. -/
inductive NicestrtonumResult
  | ok (num : ℕ)
  | error (e : NicestrtonumError)
  | fractional
  deriving DecidableEq, Repr

/-- `zfs_nicestrtonum(hdl, value, num)`. `strtoull(value, &end, 10)` is
`digits 10 value 0` (the value of the digit run and its length), since
`value[0]` is a digit or `.`; a value of 2^64 or more is `ERANGE`. -/
@[grind] def zfsNicestrtonum (value : List Char) : NicestrtonumResult :=
  let c := charAt value 0
  if (c < '0' ∨ c > '9') ∧ c ≠ '.' then .error .badNumericValue
  else
    let r := digits 10 value 0
    if 2 ^ 64 ≤ r.1 then .error .tooLarge
    else if charAt value r.2 = '.' then .fractional
    else match str2shift (value.drop r.2) with
      | none => .error .invalidSuffix
      | some shift =>
        -- (*num << shift) >> shift != *num, on a uint64_t
        if 64 ≤ shift ∨ ((r.1 <<< shift) % 2 ^ 64) >>> shift ≠ r.1 then .error .tooLarge
        else .ok ((r.1 <<< shift) % 2 ^ 64)

/-- `snprintf(buf, buflen, "%llu", n)`. -/
def llu (n : ℕ) : List Char :=
  if n = 0 then ['0'] else (Nat.digits 10 n).reverse.map Nat.digitChar

/-- The units of `zfs_nicenum`, `" KMGTPE"`. -/
def nicenumUnits : List Char := [' ', 'K', 'M', 'G', 'T', 'P', 'E']

/-- The loop `while (n >= 1024) { n /= 1024; index++; }` of `zfs_nicenum`. -/
def nicenumScale (n index : ℕ) : ℕ × ℕ :=
  if n < 1024 then (n, index) else nicenumScale (n / 1024) (index + 1)
termination_by n
decreasing_by omega

/-- `zfs_nicenum(num, buf, buflen)` where it prints no fraction: the number
alone below 1024, and the number and its unit for an exact multiple of the
unit. `none` stands for the `"%.*f%c"` forms. -/
def zfsNicenum (num : ℕ) : Option (List Char) :=
  let r := nicenumScale num 0
  let u := nicenumUnits.getD r.2 nul
  if r.2 = 0 then some (llu r.1)
  else if num &&& ((1 <<< (10 * r.2)) - 1) = 0 then some (llu r.1 ++ [u])
  else none

/-! ## What the parse accepts -/

/-- The suffixes the parse is meant to take, with their shift: none, or a
unit `u` of `ends` in either case, alone or, for a unit other than `B`,
followed by `B` or `iB` in either case. -/
def SuffixSpec (suf : List Char) (sh : ℕ) : Prop :=
  (suf = [] ∧ sh = 0) ∨
  ∃ u rest i, suf = u :: rest ∧ ends[i]? = some (toupper u) ∧ sh = 10 * i ∧
    (rest = [] ∨ (0 < i ∧ ∃ b, toupper b = 'B' ∧ (rest = [b] ∨ ∃ c, toupper c = 'I' ∧ rest = [c, b])))

/-- `value` is the decimal digits `ds` of a number (leading zeros allowed)
and an accepted suffix, and `m` is the number shifted by the suffix, below
2^64 and with a shift below 64. -/
def NiceDecimal (value : List Char) (m : ℕ) : Prop :=
  ∃ (ds : List ℕ) (suf : List Char) (sh : ℕ), value = ds.map Nat.digitChar ++ suf ∧ ds ≠ [] ∧ (∀ d ∈ ds, d < 10) ∧
    SuffixSpec suf sh ∧ sh < 64 ∧ m = Nat.ofDigits 10 ds.reverse * 2 ^ sh ∧ m < 2 ^ 64

/-! ## Digits -/

theorem digitValue_digitChar : ∀ d < 10, digitValue (Nat.digitChar d) = some d := by
  decide

theorem exists_digitChar {c : Char} (h : isDigit 10 c = true) :
    ∃ v < 10, Nat.digitChar v = c := by
  have hb : 48 ≤ c.toNat ∧ c.toNat ≤ 57 := by
    unfold isDigit digitValue at h
    split_ifs at h with h1 <;> simp at h
    exact ⟨h1.1, h1.2⟩
  refine ⟨c.toNat - 48, by omega, ?_⟩
  rw [← Char.ofNat_toNat c]
  obtain ⟨lo, hi⟩ := hb
  generalize c.toNat = n at lo hi
  interval_cases n <;> decide

theorem digits_of_not_digit {suf : List Char} (h : isDigit 10 (charAt suf 0) = false)
    (acc : ℕ) : digits 10 suf acc = (acc, 0) := by
  cases suf with
  | nil => rfl
  | cons c cs =>
    simp only [charAt, List.getD_cons_zero, isDigit] at h
    simp only [digits]
    cases hv : digitValue c with
    | none => rfl
    | some v => simp_all

theorem digits_map_digitChar (ds : List ℕ) (hds : ∀ d ∈ ds, d < 10) {suf : List Char}
    (hsuf : isDigit 10 (charAt suf 0) = false) (acc : ℕ) :
    digits 10 (ds.map Nat.digitChar ++ suf) acc =
      (ds.foldl (fun a d => a * 10 + d) acc, ds.length) := by
  induction ds generalizing acc with
  | nil => exact digits_of_not_digit hsuf acc
  | cons d ds ih =>
    have hd : d < 10 := hds d (by simp)
    simp only [List.map_cons, List.cons_append, digits, digitValue_digitChar d hd,
      if_pos hd, ih (fun x hx => hds x (by simp [hx])), List.foldl_cons, List.length_cons]

theorem foldl_reverse_eq_ofDigits (L : List ℕ) :
    L.reverse.foldl (fun a d => a * 10 + d) 0 = Nat.ofDigits 10 L := by
  rw [List.foldl_reverse, Nat.ofDigits_eq_foldr]
  induction L with
  | nil => rfl
  | cons x L ih => simp only [List.foldr_cons, ih, Nat.cast_id]; ring

theorem exists_digit_split (l : List Char) :
    ∃ (ds : List ℕ) (suf : List Char), l = ds.map Nat.digitChar ++ suf ∧ (∀ d ∈ ds, d < 10) ∧
      isDigit 10 (charAt suf 0) = false := by
  induction l with
  | nil => exact ⟨[], [], rfl, by simp, rfl⟩
  | cons c cs ih =>
    by_cases hc : isDigit 10 c = true
    · obtain ⟨v, hv, rfl⟩ := exists_digitChar hc
      obtain ⟨ds, suf, rfl, hds, hsuf⟩ := ih
      refine ⟨v :: ds, suf, rfl, ?_, hsuf⟩
      intro d hd
      rcases List.mem_cons.1 hd with rfl | hd
      · exact hv
      · exact hds d hd
    · exact ⟨[], c :: cs, rfl, by simp, by simpa [charAt] using hc⟩

theorem digits_snd (base : ℕ) (l : List Char) (acc : ℕ) :
    (digits base l acc).2 = countWhile (isDigit base) l := by
  induction l generalizing acc with
  | nil => rfl
  | cons d ds ih =>
    cases hv : digitValue d with
    | none => simp [digits, countWhile, isDigit, hv]
    | some v =>
      by_cases hb : v < base
      · simp [digits, countWhile, isDigit, hv, hb, ih]
      · simp [digits, countWhile, isDigit, hv, hb]

theorem countWhile_map_digitChar (ds : List ℕ) (hds : ∀ d ∈ ds, d < 10) {suf : List Char}
    (hsuf : isDigit 10 (charAt suf 0) = false) :
    countWhile (isDigit 10) (ds.map Nat.digitChar ++ suf) = ds.length := by
  rw [← digits_snd 10 _ 0, digits_map_digitChar ds hds hsuf]

/-! ## Suffixes and the shift -/

theorem getElem?_ends_iff {x : Char} {i : ℕ} :
    ends[i]? = some x ↔ ends.idxOf x = i ∧ i < ends.length := by
  constructor
  · intro h
    obtain ⟨hi, rfl⟩ := List.getElem?_eq_some_iff.1 h
    have hidx : ∀ j (hj : j < ends.length), ends.idxOf ends[j] = j := by decide
    exact ⟨hidx i hi, hi⟩
  · rintro ⟨rfl, hi⟩
    exact List.getElem?_eq_some_iff.2 ⟨hi, List.getElem_idxOf hi⟩

theorem isDigit_of_mem_ends {u : Char} {i : ℕ} (h : ends[i]? = some (toupper u)) :
    isDigit 10 u = false := by
  cases hd : isDigit 10 u with
  | false => rfl
  | true =>
    obtain ⟨v, hv, rfl⟩ := exists_digitChar hd
    have hmem : toupper (Nat.digitChar v) ∈ ends := List.mem_of_getElem? h
    interval_cases v <;> revert hmem <;> decide

theorem str2shift_tail_iff {x : Char} {rest : List Char} (hrest : nul ∉ rest) :
    (charAt rest 0 = nul ∨
      (x ≠ 'B' ∧ ((toupper (charAt rest 0) = 'B' ∧ charAt rest 1 = nul) ∨
        (toupper (charAt rest 0) = 'I' ∧ toupper (charAt rest 1) = 'B' ∧
          charAt rest 2 = nul)))) ↔
    rest = [] ∨ (x ≠ 'B' ∧ ∃ b, toupper b = 'B' ∧ (rest = [b] ∨ ∃ c, toupper c = 'I' ∧ rest = [c, b])) := by
  have hB : toupper nul ≠ 'B' := by decide
  match rest, hrest with
  | [], _ => simp [charAt]
  | [b], h =>
    have hb : b ≠ nul := fun e => h (by simp [e])
    simp [charAt, hb, hB]
  | [c, b], h =>
    have hb : b ≠ nul := fun e => h (by simp [e])
    have hc : c ≠ nul := fun e => h (by simp [e])
    simp [charAt, hb, hc, and_comm]
  | c :: b :: d :: t, h =>
    have hd : d ≠ nul := fun e => h (by simp [e])
    have hb : b ≠ nul := fun e => h (by simp [e])
    have hc : c ≠ nul := fun e => h (by simp [e])
    simp [charAt, hb, hc, hd]

theorem eq_B_iff_of_ends {x : Char} {i : ℕ} (h : ends[i]? = some x) : x = 'B' ↔ i = 0 := by
  obtain ⟨hi, rfl⟩ := List.getElem?_eq_some_iff.1 h
  have hB : ∀ j (hj : j < ends.length), ends[j] = 'B' ↔ j = 0 := by decide
  exact hB i hi

theorem str2shift_eq_some_iff {suf : List Char} (hnul : nul ∉ suf) (sh : ℕ) :
    str2shift suf = some sh ↔ SuffixSpec suf sh := by
  match suf, hnul with
  | [], _ =>
    simp only [str2shift, charAt, List.getD_nil, if_true, Option.some.injEq, SuffixSpec]
    simp [eq_comm (a := 0)]
  | u :: rest, h =>
    have hu : u ≠ nul := fun e => h (by simp [e])
    have hrest : nul ∉ rest := fun e => h (List.mem_cons_of_mem _ e)
    -- the shape of the suffix after its unit, with the unit's index
    have hspec : SuffixSpec (u :: rest) sh ↔ ∃ i, ends[i]? = some (toupper u) ∧ sh = 10 * i ∧
        (rest = [] ∨ (0 < i ∧ ∃ b, toupper b = 'B' ∧
          (rest = [b] ∨ ∃ c, toupper c = 'I' ∧ rest = [c, b]))) := by
      constructor
      · rintro (⟨h, -⟩ | ⟨u', rest', i, h, hg, rfl, hr⟩)
        · cases h
        · cases h
          exact ⟨i, hg, rfl, hr⟩
      · rintro ⟨i, hg, rfl, hr⟩
        exact .inr ⟨u, rest, i, rfl, hg, rfl, hr⟩
    have h0 : charAt (u :: rest) 0 = u := rfl
    have hs : ∀ k, charAt (u :: rest) (k + 1) = charAt rest k := fun _ => rfl
    rw [hspec, str2shift]
    simp only [h0, hs, if_neg hu]
    by_cases hi : ends.idxOf (toupper u) = ends.length
    · -- no unit matches: `str2shift` returns -1
      rw [if_pos hi]
      simp only [reduceCtorEq, false_iff, not_exists, not_and]
      intro i hg
      obtain ⟨rfl, hlt⟩ := getElem?_ends_iff.1 hg
      omega
    · rw [if_neg hi]
      have hget : ends[ends.idxOf (toupper u)]? = some (toupper u) :=
        getElem?_ends_iff.2 ⟨rfl, lt_of_le_of_ne List.idxOf_le_length hi⟩
      have hB : toupper u ≠ 'B' ↔ 0 < ends.idxOf (toupper u) := by
        rw [ne_eq, eq_B_iff_of_ends hget]
        omega
      have htail := str2shift_tail_iff (x := toupper u) hrest
      constructor
      · intro hsh
        split_ifs at hsh with hcond
        cases hsh
        refine ⟨_, hget, rfl, ?_⟩
        rcases htail.1 hcond with hr | ⟨hx, hb⟩
        · exact .inl hr
        · exact .inr ⟨hB.1 hx, hb⟩
      · rintro ⟨i, hg, rfl, hr⟩
        obtain ⟨rfl, -⟩ := getElem?_ends_iff.1 hg
        have hcond := htail.2 (by
          rcases hr with hr | ⟨hi0, hb⟩
          · exact .inl hr
          · exact .inr ⟨hB.2 hi0, hb⟩)
        rw [if_pos hcond]

theorem shift_roundtrip_iff {n sh : ℕ} :
    ((n <<< sh) % 2 ^ 64) >>> sh = n ↔ n * 2 ^ sh < 2 ^ 64 := by
  rw [Nat.shiftLeft_eq, Nat.shiftRight_eq_div_pow]
  constructor
  · intro h
    have hle : n * 2 ^ sh ≤ n * 2 ^ sh % 2 ^ 64 := by
      calc n * 2 ^ sh = (n * 2 ^ sh % 2 ^ 64) / 2 ^ sh * 2 ^ sh := by rw [h]
        _ ≤ n * 2 ^ sh % 2 ^ 64 := Nat.div_mul_le_self _ _
    exact lt_of_le_of_lt hle (Nat.mod_lt _ (by positivity))
  · intro h
    rw [Nat.mod_eq_of_lt h, Nat.mul_div_cancel _ (by positivity)]

/-! ## The parse -/

theorem charAt_map_append_length (ds : List ℕ) (suf : List Char) :
    charAt (ds.map Nat.digitChar ++ suf) ds.length = charAt suf 0 := by
  simpa using (charAt_drop (ds.map Nat.digitChar ++ suf) ds.length 0).symm

theorem SuffixSpec.head {suf : List Char} {sh : ℕ} (h : SuffixSpec suf sh) :
    charAt suf 0 = nul ∨ ∃ i : ℕ, ends[i]? = some (toupper (charAt suf 0)) := by
  rcases h with ⟨rfl, -⟩ | ⟨u, rest, i, rfl, hg, -, -⟩
  · exact .inl rfl
  · exact .inr ⟨i, hg⟩

theorem SuffixSpec.not_digit {suf : List Char} {sh : ℕ} (h : SuffixSpec suf sh) :
    isDigit 10 (charAt suf 0) = false := by
  rcases h.head with h0 | ⟨i, hg⟩
  · rw [h0]
    decide
  · exact isDigit_of_mem_ends hg

theorem SuffixSpec.not_dot {suf : List Char} {sh : ℕ} (h : SuffixSpec suf sh) :
    charAt suf 0 ≠ '.' := by
  rcases h.head with h0 | ⟨i, hg⟩
  · rw [h0]
    decide
  · intro hdot
    rw [hdot] at hg
    exact absurd (List.mem_of_getElem? hg) (by decide)

theorem zfsNicestrtonum_eq_ok_iff_of_split {ds : List ℕ} {suf : List Char}
    (hds : ∀ d ∈ ds, d < 10) (hne : ds ≠ []) (hsuf : isDigit 10 (charAt suf 0) = false)
    (hdot : charAt suf 0 ≠ '.') (m : ℕ) :
    zfsNicestrtonum (ds.map Nat.digitChar ++ suf) = .ok m ↔
      ∃ sh, str2shift suf = some sh ∧ sh < 64 ∧
        m = Nat.ofDigits 10 ds.reverse * 2 ^ sh ∧ m < 2 ^ 64 := by
  -- the first character is a digit, so the `bad numeric value` test passes
  have hfirst : ¬((charAt (ds.map Nat.digitChar ++ suf) 0 < '0' ∨
      charAt (ds.map Nat.digitChar ++ suf) 0 > '9') ∧
      charAt (ds.map Nat.digitChar ++ suf) 0 ≠ '.') := by
    obtain ⟨d, ds', rfl⟩ := List.exists_cons_of_ne_nil hne
    have hd : d < 10 := hds d List.mem_cons_self
    show ¬((Nat.digitChar d < '0' ∨ Nat.digitChar d > '9') ∧ Nat.digitChar d ≠ '.')
    interval_cases d <;> decide
  have hval : ds.foldl (fun a d => a * 10 + d) 0 = Nat.ofDigits 10 ds.reverse := by
    rw [← foldl_reverse_eq_ofDigits, List.reverse_reverse]
  have hdrop : (ds.map Nat.digitChar ++ suf).drop ds.length = suf := by
    simp
  simp only [zfsNicestrtonum, if_neg hfirst, digits_map_digitChar ds hds hsuf, hval,
    charAt_map_append_length, if_neg hdot, hdrop]
  generalize Nat.ofDigits 10 ds.reverse = n
  by_cases hn : 2 ^ 64 ≤ n
  · -- ERANGE from strtoull
    rw [if_pos hn]
    simp only [reduceCtorEq, false_iff, not_exists, not_and]
    rintro sh - - rfl hm
    exact absurd hm (not_lt.2 (le_trans hn (Nat.le_mul_of_pos_right _ (by positivity))))
  rw [if_neg hn]
  cases hs : str2shift suf with
  | none => simp
  | some sh =>
    simp only [Option.some.injEq, exists_eq_left']
    by_cases hc : 64 ≤ sh ∨ ((n <<< sh) % 2 ^ 64) >>> sh ≠ n
    · rw [if_pos hc]
      simp only [reduceCtorEq, false_iff, not_and]
      rintro hsh rfl hm
      rcases hc with hc | hc
      · omega
      · exact hc (shift_roundtrip_iff.2 hm)
    · rw [if_neg hc]
      obtain ⟨hsh, hrt⟩ := not_or.1 hc
      have hfit := shift_roundtrip_iff.1 (not_not.1 hrt)
      have hval : (n <<< sh) % 2 ^ 64 = n * 2 ^ sh := by
        rw [Nat.shiftLeft_eq, Nat.mod_eq_of_lt hfit]
      rw [hval]
      constructor
      · intro h
        cases h
        exact ⟨by omega, rfl, hfit⟩
      · rintro ⟨-, rfl, -⟩
        rfl

theorem isDigit_of_le {c : Char} (h : 48 ≤ c.toNat ∧ c.toNat ≤ 57) : isDigit 10 c = true := by
  have hc : '0' ≤ c ∧ c ≤ '9' := h
  simp only [isDigit, digitValue, if_pos hc, Option.any_some, decide_eq_true_eq]
  exact Nat.lt_of_le_of_lt (Nat.sub_le_sub_right h.2 _) (by decide)

theorem zfsNicestrtonum_of_not_digit {value : List Char}
    (h : isDigit 10 (charAt value 0) = false) (hdot : charAt value 0 ≠ '.') :
    zfsNicestrtonum value = .error .badNumericValue := by
  have hc : charAt value 0 < '0' ∨ charAt value 0 > '9' := by
    by_contra hc
    obtain ⟨h0, h9⟩ := not_or.1 hc
    have h0' : ¬(charAt value 0).toNat < 48 := h0
    have h9' : ¬57 < (charAt value 0).toNat := h9
    rw [isDigit_of_le ⟨by omega, by omega⟩] at h
    cases h
  rw [zfsNicestrtonum, if_pos ⟨hc, hdot⟩]

theorem zfsNicestrtonum_fractional {value : List Char} (h : zfsNicestrtonum value = .fractional) :
    charAt value (countWhile (isDigit 10) value) = '.' := by
  rw [← digits_snd 10 value 0]
  simp only [zfsNicestrtonum] at h
  split_ifs at h with hbad hbig hdot
  · exact hdot
  · split at h
    · cases h
    · split_ifs at h

theorem zfsNicestrtonum_eq_ok_iff {value : List Char} (hnul : nul ∉ value)
    (hdot : charAt value (countWhile (isDigit 10) value) ≠ '.') (m : ℕ) :
    zfsNicestrtonum value = .ok m ↔ NiceDecimal value m := by
  constructor
  · intro h
    obtain ⟨ds, suf, rfl, hds, hsuf⟩ := exists_digit_split value
    rw [countWhile_map_digitChar ds hds hsuf, charAt_map_append_length] at hdot
    have hne : ds ≠ [] := by
      rintro rfl
      rw [List.map_nil, List.nil_append, zfsNicestrtonum_of_not_digit hsuf hdot] at h
      cases h
    obtain ⟨sh, hs, hsh, hm, hlt⟩ := (zfsNicestrtonum_eq_ok_iff_of_split hds hne hsuf hdot m).1 h
    have hsnul : nul ∉ suf := fun e => hnul (List.mem_append_right _ e)
    exact ⟨ds, suf, sh, rfl, hne, hds, (str2shift_eq_some_iff hsnul sh).1 hs, hsh, hm, hlt⟩
  · rintro ⟨ds, suf, sh, rfl, hne, hds, hspec, hsh, hm, hlt⟩
    have hsnul : nul ∉ suf := fun e => hnul (List.mem_append_right _ e)
    exact (zfsNicestrtonum_eq_ok_iff_of_split hds hne hspec.not_digit hspec.not_dot m).2
      ⟨sh, (str2shift_eq_some_iff hsnul sh).2 hspec, hsh, hm, hlt⟩

/-! ## The round trip with `zfs_nicenum` -/

theorem llu_spec (n : ℕ) : ∃ ds : List ℕ, llu n = ds.map Nat.digitChar ∧ ds ≠ [] ∧
    (∀ d ∈ ds, d < 10) ∧ Nat.ofDigits 10 ds.reverse = n := by
  by_cases hn : n = 0
  · subst hn
    exact ⟨[0], rfl, by simp, by simp, rfl⟩
  · refine ⟨(Nat.digits 10 n).reverse, by simp [llu, hn], ?_, ?_, ?_⟩
    · simpa using Nat.digits_ne_nil_iff_ne_zero.2 hn
    · intro d hd
      exact Nat.digits_lt_base (by norm_num) (List.mem_reverse.1 hd)
    · rw [List.reverse_reverse, Nat.ofDigits_digits]

theorem nicenumScale_spec (n index : ℕ) : ∃ k, nicenumScale n index = (n / 1024 ^ k, index + k) ∧
    n / 1024 ^ k < 1024 ∧ (0 < k → 1024 ^ k ≤ n) := by
  induction n, index using nicenumScale.induct with
  | case1 n index h =>
    refine ⟨0, ?_, by simpa using h, by omega⟩
    rw [nicenumScale, if_pos h]
    simp
  | case2 n index h ih =>
    obtain ⟨k, heq, hlt, hle⟩ := ih
    have hdiv : n / 1024 / 1024 ^ k = n / 1024 ^ (k + 1) := by
      rw [Nat.div_div_eq_div_mul, pow_succ']
    refine ⟨k + 1, ?_, hdiv ▸ hlt, fun _ => ?_⟩
    · rw [nicenumScale, if_neg h, heq, hdiv]
      simp only [Prod.mk.injEq, true_and]
      omega
    · rcases Nat.eq_zero_or_pos k with rfl | hk
      · simpa using not_lt.1 h
      · have := (Nat.le_div_iff_mul_le (by norm_num)).1 (hle hk)
        rw [pow_succ]
        exact this

theorem str2shift_nicenum_unit : ∀ k < 7, 0 < k →
    str2shift [nicenumUnits.getD k nul] = some (10 * k) ∧
      isDigit 10 (charAt [nicenumUnits.getD k nul] 0) = false ∧
      charAt [nicenumUnits.getD k nul] 0 ≠ '.' := by
  decide

theorem zfsNicestrtonum_zfsNicenum {num : ℕ} (hnum : num < 2 ^ 64) {s : List Char}
    (h : zfsNicenum num = some s) : zfsNicestrtonum s = .ok num := by
  obtain ⟨k, hk, hlt, hle⟩ := nicenumScale_spec num 0
  obtain ⟨ds, hl, hne, hds, hv⟩ := llu_spec (num / 1024 ^ k)
  simp only [zfsNicenum, hk, Nat.zero_add] at h
  by_cases hk0 : k = 0
  · -- below 1024: the number alone
    subst hk0
    rw [if_pos rfl] at h
    cases h
    rw [hl, ← List.append_nil (ds.map Nat.digitChar)]
    refine (zfsNicestrtonum_eq_ok_iff_of_split hds hne rfl (by decide) num).2
      ⟨0, rfl, by norm_num, ?_, hnum⟩
    simpa using hv.symm
  · -- an exact multiple of the unit: the number and the unit letter
    rw [if_neg hk0] at h
    split_ifs at h with hmask
    cases h
    have hk7 : k < 7 := by
      by_contra hk7
      have h7 : 1024 ^ 7 ≤ 1024 ^ k := Nat.pow_le_pow_right (by norm_num) (not_lt.1 hk7)
      have := hle (Nat.pos_of_ne_zero hk0)
      omega
    have hpow : (2 : ℕ) ^ (10 * k) = 1024 ^ k := by rw [pow_mul]; norm_num
    have hmod : num % 1024 ^ k = 0 := by
      rw [Nat.one_shiftLeft, Nat.and_two_pow_sub_one_eq_mod, hpow] at hmask
      exact hmask
    obtain ⟨hs, hdig, hdot⟩ := str2shift_nicenum_unit k hk7 (Nat.pos_of_ne_zero hk0)
    rw [hl]
    refine (zfsNicestrtonum_eq_ok_iff_of_split hds hne hdig hdot num).2
      ⟨10 * k, hs, by omega, ?_, hnum⟩
    rw [hv, hpow, Nat.div_mul_cancel (Nat.dvd_of_mod_eq_zero hmod)]

/-! ## The integer path as a whole -/

theorem zfs_nicestrtonum_integer_path :
    (∀ value : List Char, nul ∉ value → charAt value (countWhile (isDigit 10) value) ≠ '.' →
      (∀ m, zfsNicestrtonum value = .ok m ↔ NiceDecimal value m) ∧
      ((∀ m, ¬NiceDecimal value m) → ∃ e, zfsNicestrtonum value = .error e)) ∧
    (∀ num < 2 ^ 64, ∀ s, zfsNicenum num = some s → zfsNicestrtonum s = .ok num) := by
  refine ⟨fun value hnul hdot => ⟨zfsNicestrtonum_eq_ok_iff hnul hdot, fun hnot => ?_⟩,
    fun num hnum s h => zfsNicestrtonum_zfsNicenum hnum h⟩
  -- neither `ok` (no value fits) nor the floating-point path (no `.`)
  cases hr : zfsNicestrtonum value with
  | ok m => exact absurd ((zfsNicestrtonum_eq_ok_iff hnul hdot m).1 hr) (hnot m)
  | error e => exact ⟨e, rfl⟩
  | fractional => exact absurd (zfsNicestrtonum_fractional hr) hdot

theorem zfs_nicestrtonum_sixteen_k :
    zfsNicestrtonum ['1', '6', 'K'] = .ok 16384 ∧ zfsNicestrtonum ['2', 'K'] = .ok 2048 :=
  ⟨((zfs_nicestrtonum_integer_path.1 ['1', '6', 'K'] (by decide) (by decide)).1 16384).2
      ⟨[1, 6], ['K'], 10, rfl, by simp, by decide, .inr ⟨'K', [], 1, rfl, rfl, rfl, .inl rfl⟩,
        by norm_num, by norm_num [Nat.ofDigits], by norm_num⟩,
    zfs_nicestrtonum_integer_path.2 2048 (by norm_num) ['2', 'K']
      (by simp [zfsNicenum, nicenumScale, llu, nicenumUnits])⟩

/-- `"0Z"` is a digit and a suffix of the grammar whose value, 0, fits, but
the shift of `Z` is 70 and `zfs_nicestrtonum` refuses it as too large. -/
theorem zfs_nicestrtonum_zero_z :
    SuffixSpec ['Z'] 70 ∧ Nat.ofDigits 10 [0] * 2 ^ 70 < 2 ^ 64 ∧
      zfsNicestrtonum ['0', 'Z'] = .error .tooLarge :=
  ⟨.inr ⟨'Z', [], 7, rfl, rfl, rfl, .inl rfl⟩, by norm_num, by decide⟩

end ZfsOsx.Libzfs
