import Mathlib

/-!
# Increasing tuples of allowed positions

The positions `0, 1, 2, …` below a bound, some of them allowed (`p`), and
the `n`-element subsets of the allowed ones, each written as an increasing
list. `combs p low up n` lists those in `[low, up)` in colex order: by the
largest element, and for equal largest elements recursively by the rest.
A C loop that hunts for the next allowed position is `scan`.

* `mem_combs`, `nodup_combs`: `combs` lists every increasing `n`-tuple of
  allowed positions in `[low, up)`, each once.
* `combs_ne_nil_iff`: there is one exactly when the first `n` allowed
  positions from `low` (`firstN`) lie below `up`.
* `length_combs_le`: there are at most `2 ^ up` of them.
-/
namespace Combination

section Scan

variable (p : ℕ → Bool) (bound : ℕ)

/-- `scan` with its step count. -/
@[grind] def scanAux : ℕ → ℕ → ℕ
  | 0, c => c
  | k + 1, c => if p c then c else scanAux k (c + 1)

/-- `for (; c < bound && !p(c); c++)`: the first allowed position from `c`
on, or `bound` when there is none below it. -/
@[grind] def scan (c : ℕ) : ℕ := scanAux p (bound - c) c

/-- The first `n` allowed positions from `c` on, each found by `scan` from
the one after the last. -/
@[grind] def firstN (c : ℕ) : ℕ → List ℕ
  | 0 => []
  | n + 1 => scan p bound c :: firstN (scan p bound c + 1) n

theorem le_scanAux : ∀ k c, c ≤ scanAux p k c
  | 0, _ => le_rfl
  | k + 1, c => by
    rw [scanAux]
    split
    · exact le_rfl
    · exact Nat.le_of_succ_le (le_scanAux k (c + 1))

theorem scanAux_le : ∀ k c, scanAux p k c ≤ c + k
  | 0, _ => le_rfl
  | k + 1, c => by
    rw [scanAux]
    split
    · omega
    · have := scanAux_le k (c + 1)
      omega

theorem scanAux_spec : ∀ k c, scanAux p k c < c + k → p (scanAux p k c) = true
  | 0, _, h => by simp [scanAux] at h
  | k + 1, c, h => by
    rw [scanAux] at h ⊢
    split
    · assumption
    · rw [if_neg ‹_›] at h
      exact scanAux_spec k (c + 1) (by omega)

theorem scanAux_skip : ∀ k c x, c ≤ x → x < scanAux p k c → p x = false
  | 0, _, _, h1, h2 => by simp [scanAux] at h2; omega
  | k + 1, c, x, h1, h2 => by
    rw [scanAux] at h2
    by_cases hpc : p c = true
    · rw [if_pos hpc] at h2
      omega
    · rw [if_neg hpc] at h2
      rcases Nat.eq_or_lt_of_le h1 with rfl | hlt
      · simpa using hpc
      · exact scanAux_skip k (c + 1) x hlt h2

variable {p bound}

theorem le_scan (c : ℕ) : c ≤ scan p bound c := le_scanAux p _ c

theorem scan_le {c : ℕ} (hc : c ≤ bound) : scan p bound c ≤ bound := by
  have := scanAux_le p (bound - c) c
  rw [scan]
  omega


/-- Below `bound`, `scan` stops at an allowed position. -/
theorem scan_spec {c : ℕ} (h : scan p bound c < bound) : p (scan p bound c) = true := by
  have : c ≤ scan p bound c := le_scan c
  unfold scan at h this ⊢
  exact scanAux_spec p _ c (by omega)

/-- `scan` passes only positions that are not allowed. -/
theorem scan_skip {c x : ℕ} (h1 : c ≤ x) (h2 : x < scan p bound c) : p x = false :=
  scanAux_skip p _ c x h1 h2

theorem scan_of_p {c : ℕ} (hc : c < bound) (h : p c = true) : scan p bound c = c := by
  obtain ⟨k, hk⟩ : ∃ k, bound - c = k + 1 := ⟨bound - c - 1, by omega⟩
  rw [scan, hk, scanAux, if_pos h]

theorem scan_of_not_p {c : ℕ} (hc : c < bound) (h : p c = false) :
    scan p bound c = scan p bound (c + 1) := by
  obtain ⟨k, hk⟩ : ∃ k, bound - c = k + 1 := ⟨bound - c - 1, by omega⟩
  rw [scan, hk, scanAux, if_neg (by simp [h]), scan, show bound - (c + 1) = k by omega]

/-- `scan` goes no further than an allowed position, or `bound`. -/
theorem scan_le_of {c x : ℕ} (h1 : c ≤ x) (h2 : x ≤ bound) (h : x = bound ∨ p x = true) :
    scan p bound c ≤ x := by
  by_contra hlt
  have hx := scan_skip h1 (Nat.lt_of_not_le hlt)
  rcases h with rfl | h
  · exact hlt (scan_le (Nat.le_trans h1 le_rfl))
  · simp [hx] at h

end Scan

/-- The position after the last of `l`, or `c` for the empty list. -/
def after (c : ℕ) (l : List ℕ) : ℕ := (l.getLast?.map (· + 1)).getD c

section Tuples

variable (p : ℕ → Bool)

/-- The allowed positions in `[lo, up)`, increasing. -/
@[grind] def goodsIn (lo up : ℕ) : List ℕ := (List.range' lo (up - lo)).filter p

/-- The increasing `n`-tuples of allowed positions in `[low, up)`, in colex
order: for each allowed `m` below `up`, the `n - 1`-tuples below `m` followed
by `m`. -/
def combs (low : ℕ) : ℕ → ℕ → List (List ℕ)
  | _, 0 => [[]]
  | up, n + 1 => (goodsIn p low up).flatMap fun m => (combs low m n).map (· ++ [m])

/-- The part of `combs p low up (n + 1)` whose largest element is at least
`lo`. -/
@[grind] def blocks (low lo up n : ℕ) : List (List ℕ) :=
  (goodsIn p lo up).flatMap fun m => (combs p low m n).map (· ++ [m])

/-- An increasing `n`-tuple of allowed positions in `[low, up)`. -/
def IsComb (low up n : ℕ) (t : List ℕ) : Prop :=
  t.Pairwise (· < ·) ∧ t.length = n ∧ ∀ x ∈ t, low ≤ x ∧ x < up ∧ p x = true

variable {p}

theorem mem_goodsIn {lo up m : ℕ} : m ∈ goodsIn p lo up ↔ lo ≤ m ∧ m < up ∧ p m = true := by
  simp only [goodsIn, List.mem_filter, List.mem_range'_1]
  constructor
  · rintro ⟨⟨h1, h2⟩, h3⟩
    exact ⟨h1, by omega, h3⟩
  · rintro ⟨h1, h2, h3⟩
    exact ⟨⟨h1, by omega⟩, h3⟩

theorem goodsIn_of_le {lo up : ℕ} (h : up ≤ lo) : goodsIn p lo up = [] := by
  rw [goodsIn, Nat.sub_eq_zero_of_le h, List.range'_zero, List.filter_nil]

theorem goodsIn_of_lt {lo up : ℕ} (h : lo < up) :
    goodsIn p lo up = if p lo then lo :: goodsIn p (lo + 1) up else goodsIn p (lo + 1) up := by
  obtain ⟨k, hk⟩ : ∃ k, up - lo = k + 1 := ⟨up - lo - 1, by omega⟩
  rw [goodsIn, hk, List.range'_succ, List.filter_cons, goodsIn, show up - (lo + 1) = k by omega]

theorem pairwise_goodsIn (lo up : ℕ) : (goodsIn p lo up).Pairwise (· < ·) :=
  (List.pairwise_lt_range').filter _

/-- The first allowed position in `[lo, up)` is the one `scan` finds. -/
theorem goodsIn_eq_cons {bound lo up : ℕ} (hup : up ≤ bound) (h : scan p bound lo < up) :
    goodsIn p lo up = scan p bound lo :: goodsIn p (scan p bound lo + 1) up := by
  induction hk : up - lo generalizing lo with
  | zero =>
    have : lo ≤ scan p bound lo := le_scan lo
    omega
  | succ k ih =>
    have hlo : lo < up := by omega
    rw [goodsIn_of_lt hlo]
    by_cases hp : p lo = true
    · rw [if_pos hp, scan_of_p (by omega) hp]
    · rw [if_neg hp, scan_of_not_p (by omega) (by simpa using hp)] at *
      exact ih h (by omega)

theorem combs_succ (low up n : ℕ) : combs p low up (n + 1) = blocks p low low up n := rfl

theorem blocks_of_le {low lo up : ℕ} (n : ℕ) (h : up ≤ lo) : blocks p low lo up n = [] := by
  rw [blocks, goodsIn_of_le h, List.flatMap_nil]

theorem blocks_of_lt {low lo up : ℕ} (n : ℕ) (h : lo < up) :
    blocks p low lo up n =
      (if p lo then (combs p low lo n).map (· ++ [lo]) else []) ++ blocks p low (lo + 1) up n := by
  rw [blocks, goodsIn_of_lt h, blocks]
  split <;> simp

theorem mem_blocks {low lo up n : ℕ} {t : List ℕ} :
    t ∈ blocks p low lo up n ↔ ∃ s m, t = s ++ [m] ∧ s ∈ combs p low m n ∧ m ∈ goodsIn p lo up := by
  simp only [blocks, List.mem_flatMap, List.mem_map]
  constructor
  · rintro ⟨m, hm, s, hs, rfl⟩
    exact ⟨s, m, rfl, hs, hm⟩
  · rintro ⟨s, m, rfl, hs, hm⟩
    exact ⟨m, hm, s, hs, rfl⟩

/-- An `(n + 1)`-tuple is an `n`-tuple below its last element, then that
element. -/
theorem isComb_succ_iff {low up n : ℕ} {t : List ℕ} :
    IsComb p low up (n + 1) t ↔
      ∃ s m, t = s ++ [m] ∧ IsComb p low m n s ∧ low ≤ m ∧ m < up ∧ p m = true := by
  constructor
  · rintro ⟨htp, htl, htx⟩
    obtain ⟨s, m, rfl⟩ : ∃ s m, t = s ++ [m] := by
      rcases List.eq_nil_or_concat t with rfl | ⟨s, m, rfl⟩
      · simp at htl
      · exact ⟨s, m, List.concat_eq_append⟩
    rw [List.pairwise_append] at htp
    have hm := htx m (by simp)
    refine ⟨s, m, rfl, ⟨htp.1, by simpa using htl, fun x hx => ?_⟩, hm⟩
    exact ⟨(htx x (by simp [hx])).1, htp.2.2 x hx m (by simp), (htx x (by simp [hx])).2.2⟩
  · rintro ⟨s, m, rfl, ⟨hsp, hsl, hsx⟩, hlm, hmu, hpm⟩
    refine ⟨List.pairwise_append.2 ⟨hsp, List.pairwise_singleton _ _, ?_⟩, by simp [hsl], ?_⟩
    · intro a ha b hb
      rw [List.mem_singleton] at hb
      exact hb ▸ (hsx a ha).2.1
    · intro x hx
      rw [List.mem_append, List.mem_singleton] at hx
      rcases hx with hx | rfl
      · exact ⟨(hsx x hx).1, by have := (hsx x hx).2.1; omega, (hsx x hx).2.2⟩
      · exact ⟨hlm, hmu, hpm⟩

theorem mem_combs {low : ℕ} : ∀ {up n : ℕ} {t : List ℕ}, t ∈ combs p low up n ↔ IsComb p low up n t
  | _, 0, t => by
    simp only [combs, List.mem_singleton, IsComb]
    constructor
    · rintro rfl
      simp
    · rintro ⟨-, hl, -⟩
      exact List.eq_nil_of_length_eq_zero hl
  | up, n + 1, t => by
    rw [combs_succ, mem_blocks, isComb_succ_iff]
    constructor
    · rintro ⟨s, m, rfl, hs, hm⟩
      exact ⟨s, m, rfl, mem_combs.1 hs, mem_goodsIn.1 hm⟩
    · rintro ⟨s, m, rfl, hs, hm⟩
      exact ⟨s, m, rfl, mem_combs.2 hs, mem_goodsIn.2 hm⟩

theorem nodup_blocks {low lo up n : ℕ} (h : ∀ m, (combs p low m n).Nodup) :
    (blocks p low lo up n).Nodup := by
  rw [blocks, List.nodup_flatMap]
  refine ⟨fun m _ => (h m).map (List.append_left_injective [m]), ?_⟩
  refine (pairwise_goodsIn lo up).imp fun {a b} hab => ?_
  intro t hta htb
  obtain ⟨s, -, rfl⟩ := List.mem_map.1 hta
  obtain ⟨s', -, he⟩ := List.mem_map.1 htb
  have := congrArg List.getLast? he
  simp only [List.getLast?_append, List.getLast?_singleton, Option.some_or, Option.some.injEq] at this
  omega

theorem nodup_combs {low : ℕ} : ∀ {up n : ℕ}, (combs p low up n).Nodup
  | _, 0 => List.nodup_singleton _
  | _, _ + 1 => nodup_blocks fun _ => nodup_combs

theorem length_blocks_le {low lo up n : ℕ} (h : ∀ m, (combs p low m n).length ≤ 2 ^ m)
    (hlo : lo ≤ up) : (blocks p low lo up n).length + 2 ^ lo ≤ 2 ^ up := by
  induction hk : up - lo generalizing lo with
  | zero =>
    rw [blocks_of_le n (by omega), show lo = up by omega]
    simp
  | succ k ih =>
    rw [blocks_of_lt n (by omega), List.length_append]
    have h1 : (blocks p low (lo + 1) up n).length + 2 ^ (lo + 1) ≤ 2 ^ up := ih (by omega) (by omega)
    have h2 : (if p lo then (combs p low lo n).map (· ++ [lo]) else []).length ≤ 2 ^ lo := by
      split
      · rw [List.length_map]
        exact h lo
      · simp
    rw [Nat.pow_succ] at h1
    omega

theorem length_combs_le {low : ℕ} : ∀ {up n : ℕ}, (combs p low up n).length ≤ 2 ^ up
  | _, 0 => Nat.one_le_two_pow
  | up, n + 1 => by
    rw [combs_succ]
    by_cases hlo : low ≤ up
    · have : (blocks p low low up n).length + 2 ^ low ≤ 2 ^ up :=
        length_blocks_le (fun _ => length_combs_le) hlo
      have : 1 ≤ 2 ^ low := Nat.one_le_two_pow
      omega
    · rw [blocks_of_le n (by omega)]
      simp

end Tuples

section FirstN

variable {p : ℕ → Bool} {bound : ℕ}

@[simp] theorem after_nil (c : ℕ) : after c [] = c := rfl

@[simp] theorem after_append_singleton (c : ℕ) (l : List ℕ) (y : ℕ) :
    after c (l ++ [y]) = y + 1 := by
  simp [after]

theorem after_cons (c a : ℕ) (l : List ℕ) : after c (a :: l) = after (a + 1) l := by
  cases l with
  | nil => rfl
  | cons b l =>
    rw [after, after, List.getLast?_cons_cons, List.getLast?_eq_some_getLast (List.cons_ne_nil b l)]
    rfl

@[simp] theorem length_firstN (c n : ℕ) : (firstN p bound c n).length = n := by
  induction n generalizing c with
  | zero => rfl
  | succ n ih => simp [firstN, ih]

/-- `firstN` grows at its end: the next allowed position after the last. -/
theorem firstN_succ (c n : ℕ) :
    firstN p bound c (n + 1) = firstN p bound c n ++ [scan p bound (after c (firstN p bound c n))] := by
  induction n generalizing c with
  | zero => rfl
  | succ n ih =>
    rw [firstN, ih, firstN, after_cons]
    rfl

theorem le_of_mem_firstN {c n x : ℕ} (hx : x ∈ firstN p bound c n) : c ≤ x := by
  induction n generalizing c with
  | zero => simp [firstN] at hx
  | succ n ih =>
    rw [firstN, List.mem_cons] at hx
    have : c ≤ scan p bound c := le_scan _
    rcases hx with rfl | hx
    · exact this
    · have := ih hx
      omega

theorem le_after_firstN (c n : ℕ) : c ≤ after c (firstN p bound c n) := by
  cases n with
  | zero => exact le_rfl
  | succ n =>
    rw [firstN_succ, after_append_singleton]
    have : after c (firstN p bound c n) ≤ scan p bound (after c (firstN p bound c n)) := le_scan _
    have := le_after_firstN c n
    omega

theorem lt_after_of_mem_firstN {c n x : ℕ} (hx : x ∈ firstN p bound c n) :
    x < after c (firstN p bound c n) := by
  induction n with
  | zero => simp [firstN] at hx
  | succ n ih =>
    rw [firstN_succ, List.mem_append, List.mem_singleton] at hx
    rw [firstN_succ, after_append_singleton]
    rcases hx with hx | rfl
    · have := ih hx
      have : after c (firstN p bound c n) ≤ scan p bound (after c (firstN p bound c n)) := le_scan _
      omega
    · omega

theorem pairwise_firstN (c n : ℕ) : (firstN p bound c n).Pairwise (· < ·) := by
  induction n with
  | zero => exact List.Pairwise.nil
  | succ n ih =>
    rw [firstN_succ, List.pairwise_append]
    refine ⟨ih, List.pairwise_singleton _ _, fun a ha b hb => ?_⟩
    rw [List.mem_singleton] at hb
    subst hb
    exact Nat.lt_of_lt_of_le (lt_after_of_mem_firstN ha) (le_scan _)

theorem p_of_mem_firstN {c n x : ℕ} (hx : x ∈ firstN p bound c n) (hb : x < bound) :
    p x = true := by
  induction n generalizing c with
  | zero => simp [firstN] at hx
  | succ n ih =>
    rw [firstN, List.mem_cons] at hx
    rcases hx with rfl | hx
    · exact scan_spec hb
    · exact ih hx

theorem firstN_mem_combs {c up n : ℕ} (hup : up ≤ bound) (h : ∀ x ∈ firstN p bound c n, x < up) :
    firstN p bound c n ∈ combs p c up n :=
  mem_combs.2 ⟨pairwise_firstN c n, length_firstN c n, fun x hx =>
    ⟨le_of_mem_firstN hx, h x hx, p_of_mem_firstN hx (Nat.lt_of_lt_of_le (h x hx) hup)⟩⟩

/-- With `n` allowed positions in `[c, up)`, the first `n` from `c` lie below `up`. -/
theorem firstN_lt {c up n : ℕ} (hup : up ≤ bound) (hn : n ≤ (goodsIn p c up).length) :
    ∀ x ∈ firstN p bound c n, x < up := by
  induction n generalizing c with
  | zero => simp [firstN]
  | succ n ih =>
    obtain ⟨m, hm⟩ : ∃ m, m ∈ goodsIn p c up := List.exists_mem_of_length_pos (by omega)
    obtain ⟨hcm, hmu, hpm⟩ := mem_goodsIn.1 hm
    have hs : scan p bound c < up :=
      Nat.lt_of_le_of_lt (scan_le_of hcm (by omega) (Or.inr hpm)) hmu
    rw [goodsIn_eq_cons hup hs, List.length_cons] at hn
    intro x hx
    rw [firstN, List.mem_cons] at hx
    rcases hx with rfl | hx
    · exact hs
    · exact ih (by omega) x hx

/-- There is an `n`-tuple in `[c, up)` exactly when `firstN` is one. -/
theorem combs_ne_nil_iff {c up n : ℕ} (hup : up ≤ bound) :
    combs p c up n ≠ [] ↔ ∀ x ∈ firstN p bound c n, x < up := by
  constructor
  · intro hne
    obtain ⟨t, ht⟩ := List.exists_mem_of_ne_nil _ hne
    obtain ⟨htp, htl, htx⟩ := mem_combs.1 ht
    have hsub : t.Subperm (goodsIn p c up) :=
      List.Nodup.subperm (List.Pairwise.nodup htp) fun x hx => mem_goodsIn.2 (htx x hx)
    exact firstN_lt hup (htl ▸ List.Subperm.length_le hsub)
  · intro h
    exact List.ne_nil_of_mem (firstN_mem_combs hup h)

theorem after_firstN_le {c n x : ℕ} (hc : c ≤ x) (h : ∀ y ∈ firstN p bound c n, y < x) :
    after c (firstN p bound c n) ≤ x := by
  cases n with
  | zero => exact hc
  | succ n =>
    rw [firstN_succ, after_append_singleton]
    exact h _ (by rw [firstN_succ]; simp)

theorem exists_mem_firstN_ge {c n lo : ℕ} (hc : c ≤ lo) (h : lo < after c (firstN p bound c n)) :
    ∃ x ∈ firstN p bound c n, lo ≤ x := by
  cases n with
  | zero =>
    rw [firstN, after_nil] at h
    omega
  | succ n =>
    rw [firstN_succ, after_append_singleton] at h
    refine ⟨scan p bound (after c (firstN p bound c n)), ?_, by omega⟩
    rw [firstN_succ]
    simp

/-- A block whose largest element comes before the end of `firstN` is empty:
in `combs`, the blocks start at `after`. -/
theorem blocks_eq_blocks_after {low lo up n : ℕ} (hup : up ≤ bound) (hlo : low ≤ lo)
    (hθ : lo ≤ after low (firstN p bound low n)) :
    blocks p low lo up n = blocks p low (after low (firstN p bound low n)) up n := by
  induction hk : after low (firstN p bound low n) - lo generalizing lo with
  | zero => rw [show lo = after low (firstN p bound low n) by omega]
  | succ k ih =>
    by_cases hlu : lo < up
    · have hnil : combs p low lo n = [] := by
        by_contra hne
        obtain ⟨x, hx, hlx⟩ := exists_mem_firstN_ge hlo (by omega : lo < after low (firstN p bound low n))
        have := ((combs_ne_nil_iff (by omega)).1 hne) x hx
        omega
      rw [blocks_of_lt n hlu, hnil, List.map_nil, ite_self, List.nil_append]
      exact ih (by omega) (by omega) (by omega)
    · rw [blocks_of_le n (by omega), blocks_of_le n (by omega)]

end FirstN

end Combination
