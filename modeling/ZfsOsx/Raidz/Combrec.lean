import ZfsOsx.Lib.Combination
import Mathlib.Data.List.Chain

/-!
# Combinatorial reconstruction (`module/zfs/vdev_raidz.c`)

When a RAID-Z read fails its checksum and fewer columns are in error than
there are parity columns, `vdev_raidz_combrec` guesses which error-free
columns are silently bad. For `n = 1, 2, …` up to the parity left over it
tries increasing `n`-tuples of error-free columns as targets of
`vdev_raidz_reconstruct`, saving their contents first and putting them back
when the checksum still fails. The tuples come from an odometer over
`tgts[]`, with the sentinels `tgts[-1] = -1` and `tgts[n] = rm_cols`; with no
data errors the last target starts in, and stays in, the data columns.

* `advanceTargets_append`: the odometer on `n + 1` targets runs the odometer
  on the first `n` under the last, and moves the last when that one is done.
* `walks_combs`, `walks_blocks`: from its first targets, the odometer steps
  through `Combination.combs` in colex order and stops after the last tuple.
* `roundLoop_chain`: a round tries the tuples of such a walk in turn, each
  from the original contents of the error-free columns.
-/
namespace ZfsOsx.Raidz

open Combination

/-- What `vdev_raidz_combrec` reads of a `raidz_map_t`: `rm_cols`,
`rm_firstdatacol`, whether each column's `rc_error` is set, and the contents
of each column's `rc_data`. -/
structure RaidzMap (α : Type*) where
  cols : ℕ
  firstdatacol : ℕ
  error : ℕ → Bool
  data : ℕ → α
  /-- `vdev_raidz_map_alloc` gives the map of a non-empty I/O a data column:
  `acols` is `dcols` or `r + nparity` with `0 < r`. -/
  firstdatacol_lt : firstdatacol < cols

variable {α : Type*}

namespace RaidzMap

/-- A column that may be targeted: its `rc_error` is clear. -/
def good (rm : RaidzMap α) (c : ℕ) : Bool := !rm.error c

/-- `total_errors` as `vdev_raidz_io_done` counts it: the columns whose
`rc_error` is set.
mirrors module/zfs/vdev_raidz.c:1886-1905 -/
def totalErrors (rm : RaidzMap α) : ℕ := ((List.range rm.cols).filter rm.error).length

/-- `data_errors`: those among the data columns.
mirrors module/zfs/vdev_raidz.c:1886-1905 -/
def dataErrors (rm : RaidzMap α) : ℕ :=
  ((List.range rm.cols).filter fun c => rm.error c && decide (rm.firstdatacol ≤ c)).length

/-- Two contents of the columns that agree on every error-free column. -/
def Agree (rm : RaidzMap α) (d d' : ℕ → α) : Prop := ∀ c, rm.error c = false → d c = d' c

end RaidzMap

/-- `vdev_raidz_reconstruct(rm, tgts, n)` as `vdev_raidz_combrec` sees it: the
new contents of the columns and the code it returns. Its dispatch hands the
P, Q, PQ and general routines the targets together with the columns already
in error, and each writes only data columns among those, so every other
error-free column keeps its contents. -/
structure Reconstruct (α : Type*) (error : ℕ → Bool) where
  run : (ℕ → α) → List ℕ → (ℕ → α) × ℕ
  frame : ∀ d tgts c, c ∉ tgts → error c = false → (run d tgts).1 c = d c

/-- The first targets of a round of `n`: the first `n` error-free columns
from `c` on, the last pushed up to `rm_firstdatacol` when there are no data
errors. The C's `while (rc_error != 0) c++` runs past `rm_cols` only where
its `ASSERT3S(c, <, rm->rm_cols)` fails; `scan` stops there.
mirrors module/zfs/vdev_raidz.c:1746-1758 -/
def initTargets (rm : RaidzMap α) (dataErrors : ℕ) : ℕ → ℕ → List ℕ
  | _, 0 => []
  | c, k + 1 =>
    let c := if k = 0 ∧ dataErrors = 0 ∧ c < rm.firstdatacol then rm.firstdatacol else c
    let c := scan rm.good rm.cols c
    c :: initTargets rm dataErrors (c + 1) k

/-- The `do … while (curr != n)` loop after a failed attempt, from position
`curr` on, with `low = tgts[curr - 1] + 1` (0 for `tgts[-1] = -1`) and the
sentinel `up = tgts[n] = rm_cols`. A target that can move to an error-free
column before `tgts[curr + 1]` moves there (`break`); otherwise it drops back
to the first error-free column after `tgts[curr - 1]` and the next position
is tried. `none` once every position has dropped back: the round is over.
mirrors module/zfs/vdev_raidz.c:1826-1854 -/
def advanceTargets (rm : RaidzMap α) (low up : ℕ) : List ℕ → Option (List ℕ)
  | [] => none
  | t :: ts =>
    let next := scan rm.good rm.cols (t + 1)
    if next ≠ ts.headD up then some (next :: ts)
    else
      let c := scan rm.good rm.cols low
      (advanceTargets rm (c + 1) up ts).map (c :: ·)

/-- `bcopy(orig[i], rc->rc_data, rc->rc_size)` for each target: the contents
`orig` saved before the attempt put back into the targets.
mirrors module/zfs/vdev_raidz.c:1816-1824 -/
def restoreTargets (tgts : List ℕ) (orig d : ℕ → α) : ℕ → α :=
  fun c => if c ∈ tgts then orig c else d c

/-- One call of `vdev_raidz_reconstruct`: its targets and the contents of the
columns it was given. -/
structure Attempt (α : Type*) where
  tgts : List ℕ
  before : ℕ → α

/-- How a round ends. -/
inductive RoundEnd (α : Type*)
  /-- `raidz_checksum_verify` passed: `goto done`, with the code, the targets
  and the reconstructed contents. -/
  | found (code : ℕ) (tgts : List ℕ) (d : ℕ → α)
  /-- Every tuple of the round failed; the contents the last restore left. -/
  | exhausted (d : ℕ → α)
  /-- The fuel of the model ran out. -/
  | outOfFuel

/-- The `while (curr != n)` loop of a round from the targets `tgts`, and the
attempts it made: save, reconstruct, verify, then restore and advance.
mirrors module/zfs/vdev_raidz.c:1774-1855 -/
def roundLoop (rm : RaidzMap α) (R : Reconstruct α rm.error) (verify : (ℕ → α) → Bool) :
    ℕ → (ℕ → α) → List ℕ → RoundEnd α × List (Attempt α)
  | 0, _, _ => (.outOfFuel, [])
  | fuel + 1, d, tgts =>
    let r := R.run d tgts
    if verify r.1 then (.found r.2 tgts r.1, [⟨tgts, d⟩])
    else
      let d' := restoreTargets tgts d r.1
      match advanceTargets rm 0 rm.cols tgts with
      | none => (.exhausted d', [⟨tgts, d⟩])
      | some tgts' =>
        let s := roundLoop rm R verify fuel d' tgts'
        (s.1, ⟨tgts, d⟩ :: s.2)

/-- What `vdev_raidz_combrec` returns and leaves behind: `ret`, the contents
and the `rc_error` flags of the columns, and the attempts it made. -/
structure CombrecResult (α : Type*) where
  ret : ℕ
  data : ℕ → α
  error : ℕ → Bool
  attempts : List (Attempt α)

/-- The rounds `n, n + 1, …` of `vdev_raidz_combrec`, `k` of them, each with
`2 ^ rm_cols` turns of fuel. A success marks the targets `ECKSUM`.
mirrors module/zfs/vdev_raidz.c:1736-1857 -/
def combrecRounds (rm : RaidzMap α) (R : Reconstruct α rm.error) (verify : (ℕ → α) → Bool)
    (dataErrors : ℕ) : ℕ → ℕ → (ℕ → α) → Option (CombrecResult α)
  | 0, _, d => some ⟨0, d, rm.error, []⟩
  | k + 1, n, d =>
    match roundLoop rm R verify (2 ^ rm.cols) d (initTargets rm dataErrors 0 n) with
    | (.found code tgts d', atts) =>
      some ⟨code, d', fun c => rm.error c || decide (c ∈ tgts), atts⟩
    | (.exhausted d', atts) =>
      (combrecRounds rm R verify dataErrors k (n + 1) d').map fun r =>
        { r with attempts := atts ++ r.attempts }
    | (.outOfFuel, _) => none

/-- `vdev_raidz_combrec(zio, total_errors, data_errors)`: rounds of
`n = 1 … rm_firstdatacol - total_errors` targets.
mirrors module/zfs/vdev_raidz.c:1718-1864 -/
def vdevRaidzCombrec (rm : RaidzMap α) (R : Reconstruct α rm.error) (verify : (ℕ → α) → Bool)
    (totalErrors dataErrors : ℕ) : Option (CombrecResult α) :=
  combrecRounds rm R verify dataErrors (rm.firstdatacol - totalErrors) 1 rm.data

/-- The targets `vdev_raidz_combrec` is meant to try in its round of `n`: an
increasing `n`-tuple of error-free columns, whose last one is a data column
when there are no data errors. -/
def IsTarget (rm : RaidzMap α) (n : ℕ) (t : List ℕ) : Prop :=
  t.Pairwise (· < ·) ∧ t.length = n ∧ (∀ c ∈ t, c < rm.cols ∧ rm.error c = false) ∧
    (rm.dataErrors = 0 → ∀ c ∈ t.getLast?, rm.firstdatacol ≤ c)

/-! ## The odometer -/

section Odometer

variable (rm : RaidzMap α)

theorem headD_append_singleton (ts : List ℕ) (m up : ℕ) : (ts ++ [m]).headD up = ts.headD m := by
  cases ts <;> rfl

/-- The odometer on `ts ++ [m]` is the odometer on `ts` under the sentinel
`m`; when that is done, `m` moves to the next error-free column and `ts`
starts over from the first error-free columns. -/
theorem advanceTargets_append (low up m : ℕ) (ts : List ℕ) :
    advanceTargets rm low up (ts ++ [m]) =
      match advanceTargets rm low m ts with
      | some ts' => some (ts' ++ [m])
      | none =>
        if scan rm.good rm.cols (m + 1) ≠ up then
          some (firstN rm.good rm.cols low ts.length ++ [scan rm.good rm.cols (m + 1)])
        else none := by
  induction ts generalizing low with
  | nil => simp [advanceTargets, firstN]
  | cons t ts ih =>
    rw [List.cons_append, advanceTargets, headD_append_singleton, advanceTargets]
    by_cases hnext : scan rm.good rm.cols (t + 1) ≠ ts.headD m
    · rw [if_pos hnext, if_pos hnext]
      rfl
    · rw [if_neg hnext, if_neg hnext]
      dsimp only
      rw [ih]
      cases advanceTargets rm (scan rm.good rm.cols low + 1) m ts with
      | some ts' => rfl
      | none =>
        simp only [Option.map_none, List.length_cons, firstN]
        split <;> rfl

theorem advanceTargets_append_of_some {low up m : ℕ} {ts ts' : List ℕ}
    (h : advanceTargets rm low m ts = some ts') :
    advanceTargets rm low up (ts ++ [m]) = some (ts' ++ [m]) := by
  rw [advanceTargets_append, h]

theorem advanceTargets_append_of_none {low up m : ℕ} {ts : List ℕ}
    (h : advanceTargets rm low m ts = none) :
    advanceTargets rm low up (ts ++ [m]) =
      if scan rm.good rm.cols (m + 1) ≠ up then
        some (firstN rm.good rm.cols low ts.length ++ [scan rm.good rm.cols (m + 1)])
      else none := by
  rw [advanceTargets_append, h]

/-- The odometer steps from each tuple of `L` to the next, and stops after
the last. -/
structure Walks (low up : ℕ) (L : List (List ℕ)) : Prop where
  chain : L.IsChain fun x y => advanceTargets rm low up x = some y
  last : ∀ x ∈ L.getLast?, advanceTargets rm low up x = none

/-- A sentinel `tgts[curr + 1]`: `rm_cols`, or an error-free column. -/
def Sentinel (up : ℕ) : Prop := up = rm.cols ∨ (up < rm.cols ∧ rm.good up = true)

variable {rm}

theorem Sentinel.le {up : ℕ} (h : Sentinel rm up) : up ≤ rm.cols := by
  rcases h with h | h <;> omega

/-- Below a sentinel, the next error-free column is at most the sentinel. -/
theorem Sentinel.scan_le {lo up : ℕ} (h : Sentinel rm up) (hlo : lo ≤ up) :
    scan rm.good rm.cols lo ≤ up := by
  rcases h with rfl | ⟨hlt, hg⟩
  · exact Combination.scan_le hlo
  · exact scan_le_of hlo hlt.le (Or.inr hg)

theorem walks_nil (low up : ℕ) : Walks rm low up [] :=
  ⟨List.IsChain.nil, fun _ h => by simp at h⟩

/-- The blocks of `(n + 1)`-tuples from `lo` on: if the odometer walks the
`n`-tuples under every sentinel, it walks the blocks, from the first `n`
error-free columns and the first error-free `m ≥ lo` on. -/
theorem walks_blocks {low n : ℕ}
    (ih : ∀ up, Sentinel rm up → Walks rm low up (combs rm.good low up n) ∧
      ∀ x ∈ (combs rm.good low up n).head?, x = firstN rm.good rm.cols low n)
    {lo up : ℕ} (hθ : after low (firstN rm.good rm.cols low n) ≤ lo) (hup : Sentinel rm up) :
    Walks rm low up (blocks rm.good low lo up n) ∧
      (blocks rm.good low lo up n).head? =
        if scan rm.good rm.cols lo < up then
          some (firstN rm.good rm.cols low n ++ [scan rm.good rm.cols lo])
        else none := by
  induction hk : up - lo generalizing lo with
  | zero =>
    have : lo ≤ scan rm.good rm.cols lo := le_scan lo
    rw [blocks_of_le n (by omega), if_neg (by omega)]
    exact ⟨walks_nil low up, rfl⟩
  | succ k ihk =>
    have hlo : lo < up := by omega
    have hcols : lo < rm.cols := Nat.lt_of_lt_of_le hlo hup.le
    rw [blocks_of_lt n hlo]
    by_cases hg : rm.good lo = true
    · rw [if_pos hg]
      obtain ⟨hW, hhead⟩ := ih lo (Or.inr ⟨hcols, hg⟩)
      obtain ⟨hWr, hheadr⟩ := @ihk (lo + 1) (by omega) (by omega)
      have hne : combs rm.good low lo n ≠ [] := by
        rw [combs_ne_nil_iff (le_of_lt hcols)]
        intro x hx
        exact Nat.lt_of_lt_of_le (lt_after_of_mem_firstN hx) hθ
      have hsc : scan rm.good rm.cols (lo + 1) ≤ up := hup.scan_le hlo
      -- the last tuple of the block advances to the head of the next one
      have hlast : ∀ x ∈ ((combs rm.good low lo n).map (· ++ [lo])).getLast?,
          advanceTargets rm low up x =
            if scan rm.good rm.cols (lo + 1) ≠ up then
              some (firstN rm.good rm.cols low n ++ [scan rm.good rm.cols (lo + 1)])
            else none := by
        intro x hx
        rw [List.getLast?_map] at hx
        obtain ⟨x0, hx0, rfl⟩ := Option.map_eq_some_iff.1 hx
        have hlen := (mem_combs.1 (List.mem_of_getLast? hx0)).2.1
        rw [advanceTargets_append_of_none rm (hW.last x0 hx0), hlen]
      refine ⟨⟨List.IsChain.append ?_ hWr.chain ?_, ?_⟩, ?_⟩
      · exact (List.isChain_map _).2 (hW.chain.imp fun x y h => advanceTargets_append_of_some rm h)
      · intro x hx y hy
        rw [hheadr] at hy
        split at hy
        · rw [hlast x hx, if_pos (by omega)]
          exact Option.mem_def.1 hy
        · simp at hy
      · intro x hx
        by_cases hr : blocks rm.good low (lo + 1) up n = []
        · rw [hr, List.append_nil] at hx
          rw [hr, List.head?_nil] at hheadr
          split at hheadr
          · simp at hheadr
          · rw [hlast x hx, if_neg (by omega)]
        · rw [List.getLast?_append_of_ne_nil _ hr] at hx
          exact hWr.last x hx
      · have hB : (combs rm.good low lo n).map (· ++ [lo]) ≠ [] := by simpa using hne
        rw [List.head?_append_of_ne_nil _ hB, List.head?_map, scan_of_p hcols hg, if_pos hlo]
        cases hc : (combs rm.good low lo n).head? with
        | none => exact absurd (List.head?_eq_none_iff.1 hc) hne
        | some h => rw [hhead h hc]; rfl
    · rw [if_neg hg, List.nil_append, scan_of_not_p hcols (by simpa using hg)]
      exact ihk (by omega) (by omega)

/-- From the first `n` error-free columns from `low`, the odometer walks every
increasing `n`-tuple of error-free columns in `[low, up)`, in colex order. -/
theorem walks_combs (low : ℕ) : ∀ n up, Sentinel rm up →
    Walks rm low up (combs rm.good low up n) ∧
      ∀ x ∈ (combs rm.good low up n).head?, x = firstN rm.good rm.cols low n
  | 0, up, _ => by
    refine ⟨⟨List.isChain_singleton _, fun x hx => ?_⟩, fun x hx => ?_⟩
    · simp only [combs, List.getLast?_singleton, Option.mem_def, Option.some.injEq] at hx
      subst hx
      rfl
    · simp only [combs, List.head?_cons, Option.mem_def, Option.some.injEq] at hx
      exact hx.symm
  | n + 1, up, hup => by
    have hθ : low ≤ after low (firstN rm.good rm.cols low n) := le_after_firstN low n
    rw [combs_succ, blocks_eq_blocks_after hup.le le_rfl hθ]
    obtain ⟨hW, hhead⟩ := walks_blocks (walks_combs low n) le_rfl hup
    refine ⟨hW, fun x hx => ?_⟩
    rw [hhead] at hx
    split at hx
    · rw [firstN_succ]
      exact (Option.some_inj.1 (Option.mem_def.1 hx)).symm
    · simp at hx

/-- The first targets of a round: the first `k` error-free columns, then the
next one from `rm_firstdatacol` on when there are no data errors. -/
theorem initTargets_succ (dataErrors c k : ℕ) :
    initTargets rm dataErrors c (k + 1) =
      firstN rm.good rm.cols c k ++
        [scan rm.good rm.cols
          (if dataErrors = 0 ∧ after c (firstN rm.good rm.cols c k) < rm.firstdatacol then
            rm.firstdatacol else after c (firstN rm.good rm.cols c k))] := by
  induction k generalizing c with
  | zero =>
    by_cases h : dataErrors = 0 ∧ c < rm.firstdatacol <;> simp [initTargets, firstN, h]
  | succ k ih =>
    rw [initTargets, if_neg (by omega), ih, firstN, after_cons]
    rfl

end Odometer

/-! ## A round -/

section Round

variable {rm : RaidzMap α} (R : Reconstruct α rm.error) (verify : (ℕ → α) → Bool)

theorem RaidzMap.Agree.trans {d₁ d₂ d₃ : ℕ → α} (h₁ : rm.Agree d₁ d₂) (h₂ : rm.Agree d₂ d₃) :
    rm.Agree d₁ d₃ :=
  fun c hc => (h₁ c hc).trans (h₂ c hc)

/-- A failed attempt: after the restore, every error-free column holds what
it held before the attempt. The targets get their saved contents back, and
`vdev_raidz_reconstruct` wrote no other error-free column. -/
theorem agree_restoreTargets (d : ℕ → α) (tgts : List ℕ) :
    rm.Agree (restoreTargets tgts d (R.run d tgts).1) d := by
  intro c hc
  unfold restoreTargets
  split
  · rfl
  · exact R.frame d tgts c ‹_› hc

/-- An attempt whose checksum still fails. -/
def Attempt.Fails (a : Attempt α) : Prop := verify (R.run a.before a.tgts).1 = false

/-- What a round that walks the tuples `T` does: it tries a prefix of them,
each from the original contents of the error-free columns; it ends, and it
has tried all of `T` when it ends without a success, which it does when every
attempt failed. -/
structure RoundSpec (T : List (List ℕ)) (r : RoundEnd α × List (Attempt α)) : Prop where
  tried : r.2.map Attempt.tgts <+: T
  before : ∀ a ∈ r.2, rm.Agree a.before rm.data
  ends : r.1 ≠ .outOfFuel
  exhausted : ∀ d, r.1 = .exhausted d → r.2.map Attempt.tgts = T ∧ rm.Agree d rm.data
  failed : (∀ a ∈ r.2, a.Fails R verify) → ∃ d, r.1 = .exhausted d

/-- The run lemma of a round: from the head of a walk, with fuel for every
tuple of it. -/
theorem roundLoop_chain : ∀ (L : List (List ℕ)) (t : List ℕ) (fuel : ℕ) (d : ℕ → α),
    Walks rm 0 rm.cols (t :: L) → L.length < fuel → rm.Agree d rm.data →
    RoundSpec R verify (t :: L) (roundLoop rm R verify fuel d t)
  | _, _, 0, _, _, hfuel, _ => absurd hfuel (Nat.not_lt_zero _)
  | L, t, fuel + 1, d, hW, hfuel, hd => by
    have hd' := (agree_restoreTargets R d t).trans hd
    rw [roundLoop]
    dsimp only
    by_cases hv : verify (R.run d t).1 = true
    · rw [if_pos hv]
      refine ⟨⟨L, rfl⟩, ?_, nofun, nofun, fun hf => ?_⟩
      · intro a ha
        rw [List.mem_singleton] at ha
        exact ha ▸ hd
      · have := hf _ (List.mem_singleton_self _)
        simp [Attempt.Fails, hv] at this
    · rw [if_neg hv]
      cases hadv : advanceTargets rm 0 rm.cols t with
      | none =>
        -- the walk ends at `t`
        have hL : L = [] := by
          cases L with
          | nil => rfl
          | cons y L =>
            have := (List.isChain_cons_cons.1 hW.chain).1
            rw [hadv] at this
            cases this
        subst hL
        refine ⟨List.prefix_rfl, ?_, nofun, fun d' h => ?_, fun _ => ⟨_, rfl⟩⟩
        · intro a ha
          rw [List.mem_singleton] at ha
          exact ha ▸ hd
        · cases h
          exact ⟨rfl, hd'⟩
      | some t' =>
        obtain ⟨y, L', rfl⟩ : ∃ y L', L = y :: L' := by
          cases L with
          | nil =>
            have := hW.last t rfl
            rw [hadv] at this
            cases this
          | cons y L' => exact ⟨y, L', rfl⟩
        have hy : t' = y := by
          have := List.isChain_cons_cons.1 hW.chain
          rw [hadv] at this
          exact Option.some_inj.1 this.1
        subst hy
        have hW' : Walks rm 0 rm.cols (t' :: L') :=
          ⟨hW.chain.tail, fun x hx => hW.last x (by rwa [List.getLast?_cons_cons])⟩
        have ih := roundLoop_chain L' t' fuel _ hW' (by simpa using hfuel) hd'
        refine ⟨?_, ?_, ih.ends, fun d' h => ?_, fun hf => ih.failed fun a ha => hf a (by simp [ha])⟩
        · exact List.cons_prefix_cons.2 ⟨rfl, ih.tried⟩
        · intro a ha
          rw [List.mem_cons] at ha
          rcases ha with rfl | ha
          · exact hd
          · exact ih.before a ha
        · obtain ⟨h1, h2⟩ := ih.exhausted d' h
          exact ⟨by simp [h1], h2⟩

end Round

/-! ## The rounds -/

section Rounds

variable {rm : RaidzMap α}

/-- Where the last target of the round of `n + 1` starts: after the first
`n` error-free columns, and at least at `rm_firstdatacol` when there are no
data errors. -/
def roundStart (rm : RaidzMap α) (dataErrors n : ℕ) : ℕ :=
  if dataErrors = 0 ∧ after 0 (firstN rm.good rm.cols 0 n) < rm.firstdatacol then rm.firstdatacol
  else after 0 (firstN rm.good rm.cols 0 n)

/-- The tuples the round of `n + 1` walks. -/
def roundTuples (rm : RaidzMap α) (dataErrors n : ℕ) : List (List ℕ) :=
  blocks rm.good 0 (roundStart rm dataErrors n) rm.cols n

theorem after_le_roundStart (dataErrors n : ℕ) :
    after 0 (firstN rm.good rm.cols 0 n) ≤ roundStart rm dataErrors n := by
  unfold roundStart
  split <;> omega

theorem walks_roundTuples (dataErrors n : ℕ) :
    Walks rm 0 rm.cols (roundTuples rm dataErrors n) ∧
      (roundTuples rm dataErrors n).head? =
        if scan rm.good rm.cols (roundStart rm dataErrors n) < rm.cols then
          some (initTargets rm dataErrors 0 (n + 1))
        else none := by
  rw [initTargets_succ]
  exact walks_blocks (walks_combs 0 n) (after_le_roundStart dataErrors n) (Or.inl rfl)

theorem length_roundTuples_lt (dataErrors n : ℕ) :
    (roundTuples rm dataErrors n).length < 2 ^ rm.cols := by
  unfold roundTuples
  by_cases hs : roundStart rm dataErrors n ≤ rm.cols
  · have : (blocks rm.good 0 (roundStart rm dataErrors n) rm.cols n).length +
        2 ^ roundStart rm dataErrors n ≤ 2 ^ rm.cols :=
      length_blocks_le (fun _ => length_combs_le) hs
    have : 1 ≤ 2 ^ roundStart rm dataErrors n := Nat.one_le_two_pow
    omega
  · rw [blocks_of_le n (by omega)]
    exact Nat.one_le_two_pow

theorem nodup_roundTuples (dataErrors n : ℕ) : (roundTuples rm dataErrors n).Nodup :=
  nodup_blocks fun _ => nodup_combs

/-- The round of `n + 1` walks the increasing `(n + 1)`-tuples of error-free
columns, those ending in a data column when there are no data errors. -/
theorem mem_roundTuples {dataErrors n : ℕ} {t : List ℕ} :
    t ∈ roundTuples rm dataErrors n ↔
      IsComb rm.good 0 rm.cols (n + 1) t ∧
        (dataErrors = 0 → ∀ c ∈ t.getLast?, rm.firstdatacol ≤ c) := by
  rw [roundTuples, mem_blocks, isComb_succ_iff]
  constructor
  · rintro ⟨s, m, rfl, hs, hm⟩
    obtain ⟨hsm, hmc, hgm⟩ := mem_goodsIn.1 hm
    refine ⟨⟨s, m, rfl, mem_combs.1 hs, Nat.zero_le m, hmc, hgm⟩, fun hde c hc => ?_⟩
    rw [List.getLast?_concat, Option.mem_def, Option.some_inj] at hc
    subst hc
    unfold roundStart at hsm
    split at hsm
    · exact hsm
    · omega
  · rintro ⟨⟨s, m, rfl, hs, -, hmc, hgm⟩, hlast⟩
    have hθ : after 0 (firstN rm.good rm.cols 0 n) ≤ m :=
      after_firstN_le (Nat.zero_le m)
        ((combs_ne_nil_iff (Nat.le_of_lt hmc)).1 (List.ne_nil_of_mem (mem_combs.2 hs)))
    refine ⟨s, m, rfl, mem_combs.2 hs, mem_goodsIn.2 ⟨?_, hmc, hgm⟩⟩
    unfold roundStart
    split
    · next h => exact hlast h.1 m (by simp)
    · exact hθ

theorem length_goodsIn_add (b : ℕ) :
    (goodsIn rm.good 0 b).length + ((List.range b).filter rm.error).length = b := by
  have h := List.length_eq_length_filter_add (l := List.range b) rm.error
  rw [List.length_range] at h
  rw [goodsIn, Nat.sub_zero, ← List.range_eq_range']
  unfold RaidzMap.good
  omega

theorem errors_le_totalErrors {b : ℕ} (hb : b ≤ rm.cols) :
    ((List.range b).filter rm.error).length ≤ rm.totalErrors :=
  ((List.range_sublist.2 hb).filter _).length_le

/-- With no data errors, every data column is error-free. -/
theorem good_of_dataErrors {c : ℕ} (hde : rm.dataErrors = 0) (h1 : rm.firstdatacol ≤ c)
    (h2 : c < rm.cols) : rm.good c = true := by
  unfold RaidzMap.dataErrors at hde
  have := List.filter_eq_nil_iff.1 (List.length_eq_zero_iff.1 hde) c (List.mem_range.2 h2)
  simpa [RaidzMap.good, h1] using this

/-- While parity is left over, every round has a tuple to start from: with no
data errors the first error-free columns are parity columns, so the last
target starts at `rm_firstdatacol`. -/
theorem scan_roundStart_lt {n : ℕ} (hn : n + 1 ≤ rm.firstdatacol - rm.totalErrors) :
    scan rm.good rm.cols (roundStart rm rm.dataErrors n) < rm.cols := by
  have hfc := rm.firstdatacol_lt
  by_cases hde : rm.dataErrors = 0
  · have hF : ∀ x ∈ firstN rm.good rm.cols 0 n, x < rm.firstdatacol := by
      apply firstN_lt hfc.le
      have : (goodsIn rm.good 0 rm.firstdatacol).length +
          ((List.range rm.firstdatacol).filter rm.error).length = rm.firstdatacol :=
        length_goodsIn_add _
      have : ((List.range rm.firstdatacol).filter rm.error).length ≤ rm.totalErrors :=
        errors_le_totalErrors hfc.le
      omega
    have hθ := after_firstN_le (Nat.zero_le _) hF
    have hstart : roundStart rm rm.dataErrors n = rm.firstdatacol := by
      unfold roundStart
      split <;> omega
    rw [hstart, scan_of_p hfc (good_of_dataErrors hde le_rfl hfc)]
    exact hfc
  · have hF : ∀ x ∈ firstN rm.good rm.cols 0 (n + 1), x < rm.cols := by
      apply firstN_lt le_rfl
      have : (goodsIn rm.good 0 rm.cols).length +
          ((List.range rm.cols).filter rm.error).length = rm.cols :=
        length_goodsIn_add _
      unfold RaidzMap.totalErrors at hn
      omega
    have hstart : roundStart rm rm.dataErrors n = after 0 (firstN rm.good rm.cols 0 n) := by
      unfold roundStart
      rw [if_neg (fun h => hde h.1)]
    rw [hstart]
    exact hF _ (by rw [firstN_succ]; simp)

theorem isTarget_iff {n : ℕ} {t : List ℕ} :
    IsTarget rm n t ↔
      IsComb rm.good 0 rm.cols n t ∧ (rm.dataErrors = 0 → ∀ c ∈ t.getLast?, rm.firstdatacol ≤ c) := by
  unfold IsTarget IsComb RaidzMap.good
  constructor
  · rintro ⟨h1, h2, h3, h4⟩
    exact ⟨⟨h1, h2, fun x hx => ⟨Nat.zero_le x, (h3 x hx).1, by simp [(h3 x hx).2]⟩⟩, h4⟩
  · rintro ⟨⟨h1, h2, h3⟩, h4⟩
    exact ⟨h1, h2, fun x hx => ⟨(h3 x hx).2.1, by simpa using (h3 x hx).2.2⟩, h4⟩

/-- The tuples of the rounds `n + 1, …, n + k`. -/
@[grind] def roundsTuples (rm : RaidzMap α) (dataErrors n k : ℕ) : List (List ℕ) :=
  (List.range' n k).flatMap (roundTuples rm dataErrors)

variable (R : Reconstruct α rm.error) (verify : (ℕ → α) → Bool)

/-- The run lemma of the rounds: each round that starts walks its tuples, and
a round that ends without a success hands the next one the original contents
of the error-free columns. -/
theorem combrecRounds_spec (dataErrors : ℕ) : ∀ (k n : ℕ) (d : ℕ → α),
    (∀ i, n ≤ i → i < n + k →
      (roundTuples rm dataErrors i).head? = some (initTargets rm dataErrors 0 (i + 1))) →
    rm.Agree d rm.data →
    ∃ r, combrecRounds rm R verify dataErrors k (n + 1) d = some r ∧
      r.attempts.map Attempt.tgts <+: roundsTuples rm dataErrors n k ∧
      (∀ a ∈ r.attempts, rm.Agree a.before rm.data) ∧
      ((∀ a ∈ r.attempts, a.Fails R verify) →
        r.attempts.map Attempt.tgts = roundsTuples rm dataErrors n k ∧ rm.Agree r.data rm.data)
  | 0, _, _, _, hd => ⟨_, rfl, List.nil_prefix, nofun, fun _ => ⟨rfl, hd⟩⟩
  | k + 1, n, d, hhead, hd => by
    obtain ⟨L, hT⟩ : ∃ L,
        roundTuples rm dataErrors n = initTargets rm dataErrors 0 (n + 1) :: L := by
      have h := hhead n le_rfl (by omega)
      cases hT : roundTuples rm dataErrors n with
      | nil => rw [hT] at h; cases h
      | cons t L =>
        rw [hT, List.head?_cons, Option.some_inj] at h
        exact ⟨L, by rw [h]⟩
    have hW : Walks rm 0 rm.cols (roundTuples rm dataErrors n) := (walks_roundTuples dataErrors n).1
    have hlen : (roundTuples rm dataErrors n).length < 2 ^ rm.cols := length_roundTuples_lt dataErrors n
    rw [hT] at hW hlen
    have hspec := roundLoop_chain R verify L _ (2 ^ rm.cols) d hW
      (by rw [List.length_cons] at hlen; omega) hd
    rw [combrecRounds, roundsTuples, List.range'_succ, List.flatMap_cons, hT]
    rcases hr : roundLoop rm R verify (2 ^ rm.cols) d (initTargets rm dataErrors 0 (n + 1)) with
      ⟨e, atts⟩
    rw [hr] at hspec
    cases e with
    | found code tgts d' =>
      refine ⟨_, rfl, hspec.tried.trans (List.prefix_append _ _), hspec.before, fun hf => ?_⟩
      obtain ⟨_, h⟩ := hspec.failed hf
      cases h
    | exhausted d' =>
      obtain ⟨h1, h2⟩ := hspec.exhausted d' rfl
      obtain ⟨r, hr', hpre, hbefore, hfail⟩ :=
        combrecRounds_spec dataErrors k (n + 1) d' (fun i hi1 hi2 => hhead i (by omega) (by omega)) h2
      refine ⟨{ r with attempts := atts ++ r.attempts }, by dsimp only; rw [hr']; rfl, ?_, ?_,
        fun hf => ?_⟩
      · rw [List.map_append, h1]
        exact (List.prefix_append_right_inj _).2 hpre
      · intro a ha
        rw [List.mem_append] at ha
        rcases ha with ha | ha
        · exact hspec.before a ha
        · exact hbefore a ha
      · obtain ⟨h3, h4⟩ := hfail fun a ha => hf a (List.mem_append_right _ ha)
        exact ⟨by rw [List.map_append, h1, h3]; rfl, h4⟩
    | outOfFuel => exact absurd rfl hspec.ends

theorem nodup_roundsTuples (dataErrors n k : ℕ) : (roundsTuples rm dataErrors n k).Nodup := by
  rw [roundsTuples, List.nodup_flatMap]
  refine ⟨fun i _ => nodup_roundTuples dataErrors i,
    (List.pairwise_lt_range' (s := n) (n := k)).imp fun {i j} hij => ?_⟩
  intro t hti htj
  have hi := (mem_roundTuples.1 hti).1.2.1
  have hj := (mem_roundTuples.1 htj).1.2.1
  omega

theorem mem_roundsTuples {n k : ℕ} {t : List ℕ} :
    t ∈ roundsTuples rm rm.dataErrors n k ↔ ∃ i, n ≤ i ∧ i < n + k ∧ IsTarget rm (i + 1) t := by
  simp only [roundsTuples, List.mem_flatMap, List.mem_range'_1, mem_roundTuples, isTarget_iff]
  constructor
  · rintro ⟨i, hi, ht⟩
    exact ⟨i, hi.1, hi.2, ht⟩
  · rintro ⟨i, hi1, hi2, ht⟩
    exact ⟨i, ⟨hi1, hi2⟩, ht⟩

end Rounds

end ZfsOsx.Raidz
