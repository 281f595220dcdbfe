import ZfsOsx.Arc.Run
import Mathlib

/-!
# The target sizes of the ARC (`module/zfs/arc.c`)

The ARC aims at a size `arc_c` between `arc_c_min` and `arc_c_max`, with a
share `arc_p` of it for the most recently used data. `arc_init` derives the
bounds from the memory size and the tunables `zfs_arc_max`, `zfs_arc_min` and
`zfs_arc_meta_limit`. Later, `arc_adapt` moves `arc_p` on a ghost hit and grows
`arc_c` near the target, `arc_shrink` cuts `arc_c` under memory pressure,
`arc_get_data_buf` grows `arc_p` for anonymous data, and
`arc_tempreserve_space` grows `arc_c` for a large reservation.

The variables are `uint64_t`, `UInt64` here, so every sum and difference
wraps as the C does; the shifts are the `int` tunables, read as naturals.

* `TargetInv`: `arc_c_min ≤ arc_c ≤ arc_c_max` and `arc_p ≤ arc_c`.
* `arcInitSizes_inv`: `arc_init` establishes it exactly when the `arc_c_min`
  it computes is at most the `arc_c_max` it computes.
* `TargetInv.adapt`, `.shrink`, `.getDataBuf`, `.tempreserve`: the later
  updates keep it when their sums do not wrap; `ArcTargetReach.inv` is the run
  lemma.
* `ArcInv.size_pos_of_ghost`: a ghost state that holds a header of positive
  size has a positive `arcs_size`, the divisor of `arc_adapt` for a hit there.
* `arc_init_c_above_max`: with 64 GiB of memory and `zfs_arc_max` at 1 GiB,
  `arc_init` leaves `arc_c = arc_c_min = 2 GiB` above `arc_c_max`; so it does
  with 64 MiB of memory and no tunables.
-/
namespace ZfsOsx.Arc

/-- `PAGESIZE`. -/
def pagesize : UInt64 := 4096

/-- The tunables `arc_init` reads for the bounds and the two shifts. -/
structure ArcTunables where
  zfsArcMax : UInt64
  zfsArcMin : UInt64
  zfsArcMetaLimit : UInt64
  zfsArcShrinkShift : ℤ
  zfsArcPMinShift : ℤ

/-- `arc_c`, `arc_p`, `arc_c_min`, `arc_c_max`, `arc_meta_limit`, and the
shifts `arc_shrink_shift` and `arc_p_min_shift`. -/
structure ArcSizes where
  arcC : UInt64
  arcP : UInt64
  arcCMin : UInt64
  arcCMax : UInt64
  arcMetaLimit : UInt64
  arcShrinkShift : ℕ
  arcPMinShift : ℕ
  deriving DecidableEq, Repr

/-- The bounds `arc_init` derives, `(arc_c_min, arc_c_max, arc_meta_limit)`:
`arc_c` starts at an eighth of memory, `arc_c_min` at a quarter of that or
64 MiB, and `arc_c_max` at four times it, as it is still 0 when first read.
Tunables above 64 MiB override them when they fit, and an unset `zfs_arc_min`
lets `arc_c_min` rise to half of `arc_meta_limit`.
mirrors module/zfs/arc.c:3698-3744 -/
def arcInitBounds (physmem : UInt64) (tun : ArcTunables) : UInt64 × UInt64 × UInt64 :=
  let arcC := physmem * pagesize / 8
  let arcCMin := max (arcC / 4) ((64 : UInt64) <<< 20)
  let arcCMax := max (arcC * 4) 0
  let arcCMax :=
    if tun.zfsArcMax > (64 : UInt64) <<< 20 ∧ tun.zfsArcMax < physmem * pagesize then tun.zfsArcMax
    else arcCMax
  let arcCMin :=
    if tun.zfsArcMin > (64 : UInt64) <<< 20 ∧ tun.zfsArcMin ≤ arcCMax then tun.zfsArcMin else arcCMin
  let arcMetaLimit :=
    if tun.zfsArcMetaLimit > 0 ∧ tun.zfsArcMetaLimit ≤ arcCMax then tun.zfsArcMetaLimit
    else arcCMax / 4
  let arcCMin :=
    if arcCMin < arcMetaLimit / 2 ∧ tun.zfsArcMin = 0 then arcMetaLimit / 2 else arcCMin
  (arcCMin, arcCMax, arcMetaLimit)

/-- What `arc_init` sets for `physmem` pages: `arc_c` starts at `arc_c_max`,
halved under kmem debugging and raised to `arc_c_min`; `arc_p` is half of
`arc_c_max`; the shifts default to 5 and 4.
mirrors module/zfs/arc.c:3689-3763 -/
def arcInitSizes (physmem : UInt64) (tun : ArcTunables) (kmemDebugging : Bool) : ArcSizes :=
  let (arcCMin, arcCMax, arcMetaLimit) := arcInitBounds physmem tun
  let arcC := if kmemDebugging then arcCMax / 2 else arcCMax
  { arcC := if arcC < arcCMin then arcCMin else arcC
    arcP := arcCMax >>> 1
    arcCMin := arcCMin
    arcCMax := arcCMax
    arcMetaLimit := arcMetaLimit
    arcShrinkShift := if tun.zfsArcShrinkShift > 0 then tun.zfsArcShrinkShift.toNat else 5
    arcPMinShift := if tun.zfsArcPMinShift > 0 then tun.zfsArcPMinShift.toNat else 4 }

/-- The first half of `arc_adapt`: a hit in the MRU ghost list raises
`arc_p` by `bytes` times the ratio of the ghost sizes, at most 10 and below
`arc_c - arc_p_min`; a hit in the MFU ghost list lowers it, not below
`arc_p_min`. `mult` is an `int` in the C and is kept at 64 bits here.
mirrors module/zfs/arc.c:2358-2389 -/
def arcAdaptP (a : ArcSizes) (bytes : UInt64) (state : ArcState)
    (mruGhostSize mfuGhostSize : UInt64) : UInt64 :=
  let arcPMin := a.arcC >>> a.arcPMinShift.toUInt64
  if state = .mruGhost then
    let mult := min (if mruGhostSize ≥ mfuGhostSize then 1 else mfuGhostSize / mruGhostSize) 10
    min (a.arcC - arcPMin) (a.arcP + bytes * mult)
  else if state = .mfuGhost then
    let mult := min (if mfuGhostSize ≥ mruGhostSize then 1 else mruGhostSize / mfuGhostSize) 10
    let delta := min (bytes * mult) a.arcP
    max arcPMin (a.arcP - delta)
  else a.arcP

/-- The second half of `arc_adapt`: within `2 << SPA_MAXBLOCKSHIFT` bytes of
the target, `arc_c` grows by `bytes` up to `arc_c_max`, and `arc_p` with it
for anonymous data.
mirrors module/zfs/arc.c:2391-2410 -/
def arcAdaptGrow (a : ArcSizes) (bytes : UInt64) (state : ArcState) (arcSize : UInt64) :
    ArcSizes :=
  if a.arcC ≥ a.arcCMax then a
  else if arcSize > a.arcC - (2 : UInt64) <<< 17 then
    let arcC := a.arcC + bytes
    let (arcC, arcP) :=
      if arcC > a.arcCMax then (a.arcCMax, a.arcP)
      else if state = ArcState.anon then (arcC, a.arcP + bytes) else (arcC, a.arcP)
    { a with arcC := arcC, arcP := if arcP > arcC then arcC else arcP }
  else a

/-- `arc_adapt(bytes, state)`, given the sizes of the two ghost states,
`arc_size` and `arc_no_grow`.
mirrors module/zfs/arc.c:2355-2411 -/
def arcAdapt (a : ArcSizes) (bytes : UInt64) (state : ArcState)
    (mruGhostSize mfuGhostSize arcSize : UInt64) (arcNoGrow : Bool) : ArcSizes :=
  if state = .l2cOnly then a
  else
    let a := { a with arcP := arcAdaptP a bytes state mruGhostSize mfuGhostSize }
    if arcNoGrow then a else arcAdaptGrow a bytes state arcSize

/-- `arc_shrink(bytes)` up to its call of `arc_adjust`, which moves data and
no target.
mirrors module/zfs/arc.c:2089-2114 -/
def arcShrink (a : ArcSizes) (bytes arcSize : UInt64) : ArcSizes :=
  if a.arcC > a.arcCMin then
    let toFree := if bytes ≠ 0 then bytes else a.arcC >>> a.arcShrinkShift.toUInt64
    let arcC := if a.arcC > a.arcCMin + toFree then a.arcC - toFree else a.arcCMin
    let arcP := a.arcP - (a.arcP >>> a.arcShrinkShift.toUInt64)
    let arcC := if arcC > arcSize then max arcSize a.arcCMin else arcC
    { a with arcC := arcC, arcP := if arcP > arcC then arcC >>> 1 else arcP }
  else a

/-- The end of `arc_get_data_buf` for a header in `state`: anonymous data
that outgrows `arc_p` while the cache grows raises `arc_p`, up to `arc_c`.
mirrors module/zfs/arc.c:2535-2540 -/
def arcGetDataBufP (a : ArcSizes) (state : ArcState) (size arcSize anonSize mruSize : UInt64) :
    ArcSizes :=
  if arcSize < a.arcC ∧ state = .anon ∧ anonSize + mruSize > a.arcP then
    { a with arcP := min a.arcC (a.arcP + size) }
  else a

/-- The growth of `arc_tempreserve_space(reserve, txg)`: a reservation above a
quarter of `arc_c` raises `arc_c` to four times it, up to `arc_c_max`.
mirrors module/zfs/arc.c:3599-3600 -/
def arcTempreserveGrow (a : ArcSizes) (reserve : UInt64) (arcNoGrow : Bool) : ArcSizes :=
  if reserve > a.arcC / 4 ∧ !arcNoGrow then { a with arcC := min a.arcCMax (reserve * 4) } else a

/-! ## The bounds -/

/-- The bounds the targets are meant to keep. -/
structure TargetInv (a : ArcSizes) : Prop where
  min_le : a.arcCMin ≤ a.arcC
  le_max : a.arcC ≤ a.arcCMax
  p_le : a.arcP ≤ a.arcC

theorem toNat_shiftRight_le (x s : UInt64) : (x >>> s).toNat ≤ x.toNat := by
  rw [UInt64.toNat_shiftRight]
  exact Nat.shiftRight_le _ _

/-- `(int64_t)arc_p >= 0`, the assertion of `arc_adapt` and `arc_shrink`,
holds while `arc_c_max` is below `2^63`. -/
theorem TargetInv.arcP_lt {a : ArcSizes} (h : TargetInv a) (hmax : a.arcCMax.toNat < 2 ^ 63) :
    a.arcP.toNat < 2 ^ 63 := by
  have h1 := UInt64.le_iff_toNat_le.1 h.p_le
  have h2 := UInt64.le_iff_toNat_le.1 h.le_max
  omega

/-- `arc_init` leaves `arc_c` between the bounds and `arc_p` below it
exactly when the lower bound it computes is at most the upper one. -/
theorem arcInitSizes_inv (physmem : UInt64) (tun : ArcTunables) (kmemDebugging : Bool) :
    TargetInv (arcInitSizes physmem tun kmemDebugging) ↔
      (arcInitSizes physmem tun kmemDebugging).arcCMin ≤
        (arcInitSizes physmem tun kmemDebugging).arcCMax := by
  simp only [arcInitSizes]
  obtain ⟨arcCMin, arcCMax, arcMetaLimit⟩ := arcInitBounds physmem tun
  simp only [UInt64.le_iff_toNat_le]
  have hp := toNat_shiftRight_le arcCMax 1
  have hhalf : (arcCMax >>> 1).toNat = (arcCMax / 2).toNat := by
    rw [UInt64.toNat_shiftRight, UInt64.toNat_div]
    simp [Nat.shiftRight_eq_div_pow]
  have hdiv : (arcCMax / 2).toNat ≤ arcCMax.toNat := by
    rw [UInt64.toNat_div]
    exact Nat.div_le_self _ _
  constructor
  · rintro ⟨h1, h2, -⟩
    exact Nat.le_trans h1 h2
  · intro h
    -- `arc_c` before it is raised to `arc_c_min`: `arc_c_max`, or half of it
    have hc0 : (if kmemDebugging then arcCMax / 2 else arcCMax).toNat ≤ arcCMax.toNat ∧
        (arcCMax >>> 1).toNat ≤ (if kmemDebugging then arcCMax / 2 else arcCMax).toNat := by
      cases kmemDebugging <;> simp only [Bool.false_eq_true, if_true, if_false] <;> omega
    generalize (if kmemDebugging then arcCMax / 2 else arcCMax) = c0 at hc0 ⊢
    refine ⟨?_, ?_, ?_⟩ <;> simp only [UInt64.le_iff_toNat_le, UInt64.lt_iff_toNat_lt] <;>
      split <;> omega

section Updates

variable {a : ArcSizes}

theorem TargetInv.getDataBuf (h : TargetInv a) (state : ArcState)
    (size arcSize anonSize mruSize : UInt64) :
    TargetInv (arcGetDataBufP a state size arcSize anonSize mruSize) := by
  unfold arcGetDataBufP
  split
  · refine ⟨h.min_le, h.le_max, UInt64.le_iff_toNat_le.2 ?_⟩
    rw [UInt64.toNat_min]
    exact Nat.min_le_left _ _
  · exact h

/-- A reservation whose fourfold does not wrap raises `arc_c` past its old
value, but not past `arc_c_max`. -/
theorem TargetInv.tempreserve (h : TargetInv a) {reserve : UInt64} (arcNoGrow : Bool)
    (hr : reserve.toNat * 4 < 2 ^ 64) : TargetInv (arcTempreserveGrow a reserve arcNoGrow) := by
  unfold arcTempreserveGrow
  split
  · next hc =>
    have hgt := UInt64.lt_iff_toNat_lt.1 hc.1
    have hmin := UInt64.le_iff_toNat_le.1 h.min_le
    have hmax := UInt64.le_iff_toNat_le.1 h.le_max
    have hp := UInt64.le_iff_toNat_le.1 h.p_le
    have hdiv : (a.arcC / 4).toNat = a.arcC.toNat / 4 := UInt64.toNat_div _ _
    have hmul : (reserve * 4).toNat = reserve.toNat * 4 := by
      rw [UInt64.toNat_mul]
      exact Nat.mod_eq_of_lt hr
    rw [hdiv] at hgt
    refine ⟨?_, ?_, ?_⟩ <;> simp only [UInt64.le_iff_toNat_le, UInt64.toNat_min, hmul] <;> omega
  · exact h

/-- The first half of `arc_adapt` leaves `arc_p` at most `arc_c`. -/
theorem arcAdaptP_le (h : TargetInv a) (bytes : UInt64) (state : ArcState)
    (mruGhostSize mfuGhostSize : UInt64) :
    (arcAdaptP a bytes state mruGhostSize mfuGhostSize).toNat ≤ a.arcC.toNat := by
  have hp := UInt64.le_iff_toNat_le.1 h.p_le
  have hpmin := toNat_shiftRight_le a.arcC a.arcPMinShift.toUInt64
  unfold arcAdaptP
  split
  · -- an MRU ghost hit: below `arc_c - arc_p_min`
    rw [UInt64.toNat_min, UInt64.toNat_sub_of_le _ _ (UInt64.le_iff_toNat_le.2 hpmin)]
    omega
  split
  · -- an MFU ghost hit: `delta` is at most `arc_p`
    have hdelta := Nat.min_le_right ((bytes * min (if mfuGhostSize ≥ mruGhostSize then 1
      else mruGhostSize / mfuGhostSize) 10).toNat) a.arcP.toNat
    rw [UInt64.toNat_max, UInt64.toNat_sub_of_le _ _
      (UInt64.le_iff_toNat_le.2 (by rw [UInt64.toNat_min]; exact hdelta))]
    omega
  · exact hp

/-- The growth of `arc_adapt` keeps the bounds when `arc_c + bytes` does not
wrap. -/
theorem TargetInv.adaptGrow (h : TargetInv a) {bytes : UInt64} (state : ArcState)
    (arcSize : UInt64) (hb : a.arcC.toNat + bytes.toNat < 2 ^ 64) :
    TargetInv (arcAdaptGrow a bytes state arcSize) := by
  have hmin := UInt64.le_iff_toNat_le.1 h.min_le
  have hmax := UInt64.le_iff_toNat_le.1 h.le_max
  have hp := UInt64.le_iff_toNat_le.1 h.p_le
  have hsum : (a.arcC + bytes).toNat = a.arcC.toNat + bytes.toNat := by
    rw [UInt64.toNat_add, Nat.mod_eq_of_lt hb]
  unfold arcAdaptGrow
  split
  · exact h
  split
  · -- the new `arc_c` is the grown one or `arc_c_max`, and `arc_p` is cut to it
    dsimp only
    generalize hq : (if a.arcC + bytes > a.arcCMax then (a.arcCMax, a.arcP)
      else if state = ArcState.anon then (a.arcC + bytes, a.arcP + bytes)
      else (a.arcC + bytes, a.arcP)) = q
    have hc : a.arcC.toNat ≤ q.1.toNat ∧ q.1.toNat ≤ a.arcCMax.toNat := by
      rw [← hq]
      split
      · exact ⟨hmax, Nat.le_refl _⟩
      · next hle =>
        rw [gt_iff_lt, UInt64.lt_iff_toNat_lt, hsum] at hle
        split <;> (dsimp only; rw [hsum]; omega)
    refine ⟨?_, ?_, ?_⟩ <;> simp only [gt_iff_lt, UInt64.le_iff_toNat_le, UInt64.lt_iff_toNat_lt] <;>
      (try split) <;> omega
  · exact h

theorem TargetInv.adapt (h : TargetInv a) {bytes : UInt64} (state : ArcState)
    (mruGhostSize mfuGhostSize arcSize : UInt64) (arcNoGrow : Bool)
    (hb : a.arcC.toNat + bytes.toNat < 2 ^ 64) :
    TargetInv (arcAdapt a bytes state mruGhostSize mfuGhostSize arcSize arcNoGrow) := by
  unfold arcAdapt
  split
  · exact h
  have hP : TargetInv { a with arcP := arcAdaptP a bytes state mruGhostSize mfuGhostSize } :=
    ⟨h.min_le, h.le_max, UInt64.le_iff_toNat_le.2 (arcAdaptP_le h bytes state _ _)⟩
  dsimp only
  split
  · exact hP
  · exact hP.adaptGrow state arcSize hb

/-- `arc_shrink` keeps the bounds when `arc_c_min` plus the amount to free
does not wrap. -/
theorem TargetInv.shrink (h : TargetInv a) {bytes : UInt64} (arcSize : UInt64)
    (hb : a.arcCMin.toNat + bytes.toNat < 2 ^ 64)
    (hc : a.arcCMin.toNat + a.arcC.toNat < 2 ^ 64) : TargetInv (arcShrink a bytes arcSize) := by
  have hmin := UInt64.le_iff_toNat_le.1 h.min_le
  have hmax := UInt64.le_iff_toNat_le.1 h.le_max
  have hp := UInt64.le_iff_toNat_le.1 h.p_le
  unfold arcShrink
  split
  · -- `arc_c` is cut by `to_free`, or to `arc_c_min`, then to `arc_size`
    dsimp only
    generalize htf : (if bytes ≠ 0 then bytes else a.arcC >>> a.arcShrinkShift.toUInt64) = toFree
    have hfree : a.arcCMin.toNat + toFree.toNat < 2 ^ 64 := by
      subst htf
      split
      · exact hb
      · have := toNat_shiftRight_le a.arcC a.arcShrinkShift.toUInt64
        omega
    have hc1 : a.arcCMin.toNat ≤ (if a.arcC > a.arcCMin + toFree then a.arcC - toFree
          else a.arcCMin).toNat ∧
        (if a.arcC > a.arcCMin + toFree then a.arcC - toFree else a.arcCMin).toNat ≤
          a.arcC.toNat := by
      split
      · next hlt =>
        rw [gt_iff_lt, UInt64.lt_iff_toNat_lt, UInt64.toNat_add, Nat.mod_eq_of_lt hfree] at hlt
        rw [UInt64.toNat_sub_of_le _ _ (UInt64.le_iff_toNat_le.2 (by omega))]
        omega
      · omega
    generalize (if a.arcC > a.arcCMin + toFree then a.arcC - toFree else a.arcCMin) = c1 at hc1 ⊢
    -- `arc_p` loses a fraction of itself
    have hp1 : (a.arcP - (a.arcP >>> a.arcShrinkShift.toUInt64)).toNat ≤ a.arcP.toNat := by
      rw [UInt64.toNat_sub_of_le _ _ (UInt64.le_iff_toNat_le.2
        (toNat_shiftRight_le a.arcP a.arcShrinkShift.toUInt64))]
      omega
    generalize a.arcP - (a.arcP >>> a.arcShrinkShift.toUInt64) = p1 at hp1 ⊢
    have hc2 : a.arcCMin.toNat ≤ (if c1 > arcSize then max arcSize a.arcCMin else c1).toNat ∧
        (if c1 > arcSize then max arcSize a.arcCMin else c1).toNat ≤ a.arcC.toNat := by
      split
      · next hgt =>
        rw [gt_iff_lt, UInt64.lt_iff_toNat_lt] at hgt
        rw [UInt64.toNat_max]
        omega
      · omega
    generalize (if c1 > arcSize then max arcSize a.arcCMin else c1) = c2 at hc2 ⊢
    have hhalf := toNat_shiftRight_le c2 1
    refine ⟨?_, ?_, ?_⟩ <;> simp only [gt_iff_lt, UInt64.le_iff_toNat_le, UInt64.lt_iff_toNat_lt] <;>
      (try split) <;> omega
  · exact h

end Updates

/-! ## Every run after `arc_init` -/

/-- One update of the targets, with the side conditions under which its sums
do not wrap: `bytes` is a block size in `arc_adapt` and a number of pages in
`arc_shrink`, and a reservation is the memory of one transaction. -/
inductive ArcTargetStep : ArcSizes → ArcSizes → Prop
  | adapt (a : ArcSizes) (bytes : UInt64) (state : ArcState)
      (mruGhostSize mfuGhostSize arcSize : UInt64) (arcNoGrow : Bool)
      (hb : a.arcC.toNat + bytes.toNat < 2 ^ 64) :
      ArcTargetStep a (arcAdapt a bytes state mruGhostSize mfuGhostSize arcSize arcNoGrow)
  | shrink (a : ArcSizes) (bytes arcSize : UInt64) (hb : a.arcCMin.toNat + bytes.toNat < 2 ^ 64)
      (hc : a.arcCMin.toNat + a.arcC.toNat < 2 ^ 64) :
      ArcTargetStep a (arcShrink a bytes arcSize)
  | getDataBuf (a : ArcSizes) (state : ArcState) (size arcSize anonSize mruSize : UInt64) :
      ArcTargetStep a (arcGetDataBufP a state size arcSize anonSize mruSize)
  | tempreserve (a : ArcSizes) (reserve : UInt64) (arcNoGrow : Bool)
      (hr : reserve.toNat * 4 < 2 ^ 64) :
      ArcTargetStep a (arcTempreserveGrow a reserve arcNoGrow)

theorem ArcTargetStep.inv {a a' : ArcSizes} (hs : ArcTargetStep a a') (h : TargetInv a) :
    TargetInv a' := by
  cases hs with
  | adapt bytes state mruGhostSize mfuGhostSize arcSize arcNoGrow hb =>
    exact h.adapt state mruGhostSize mfuGhostSize arcSize arcNoGrow hb
  | shrink bytes arcSize hb hc => exact h.shrink arcSize hb hc
  | getDataBuf state size arcSize anonSize mruSize =>
    exact h.getDataBuf state size arcSize anonSize mruSize
  | tempreserve reserve arcNoGrow hr => exact h.tempreserve arcNoGrow hr

/-- The targets a run of updates reaches from `arc_init`. -/
def ArcTargetReach (physmem : UInt64) (tun : ArcTunables) (kmemDebugging : Bool)
    (a : ArcSizes) : Prop :=
  Relation.ReflTransGen ArcTargetStep (arcInitSizes physmem tun kmemDebugging) a

/-- Once `arc_init` computes bounds in order, every later update keeps
`arc_c` between them and `arc_p` below `arc_c`. -/
theorem ArcTargetReach.inv {physmem : UInt64} {tun : ArcTunables} {kmemDebugging : Bool}
    {a : ArcSizes}
    (hinit : (arcInitSizes physmem tun kmemDebugging).arcCMin ≤
      (arcInitSizes physmem tun kmemDebugging).arcCMax)
    (hr : ArcTargetReach physmem tun kmemDebugging a) : TargetInv a := by
  induction hr with
  | refl => exact (arcInitSizes_inv physmem tun kmemDebugging).2 hinit
  | tail _ hs ih => exact hs.inv ih

/-! ## The divisor of `arc_adapt` -/

/-- A ghost state holding a header of positive size, as `arc_buf_alloc`
asserts every header is, has a positive `arcs_size`: the divisor `arc_adapt`
uses for a hit there. -/
theorem ArcInv.size_pos_of_ghost {H : Type*} [DecidableEq H] [Fintype H] {arc : ArcCache H}
    (h : ArcInv arc) {ab : H} (hg : (arc.hdr ab).state.ghost) (hpos : 0 < (arc.hdr ab).size) :
    0 < arc.size (arc.hdr ab).state := by
  rw [h.size_eq_sum_filter]
  have hab : ab ∈ Finset.univ.filter fun ab' => (arc.hdr ab').state = (arc.hdr ab).state := by
    simp
  have hsz : (arc.hdr ab).stateSize = (arc.hdr ab).size := by
    simp [ArcBufHdr.stateSize, hg]
  calc (0 : ℤ) < (arc.hdr ab).stateSize := by
        rw [hsz]
        exact_mod_cast hpos
    _ ≤ _ := Finset.single_le_sum (fun ab' _ => (arc.hdr ab').stateSize_nonneg) hab

/-! ## Where `arc_init` goes wrong -/

/-- With 64 GiB of memory (2^24 pages) and `zfs_arc_max` at 1 GiB,
`arc_c_min` is 2 GiB, a 32nd of memory, and the override of `arc_c_max` does
not look at it; `arc_c` then rises to `arc_c_min`, above `arc_c_max`. With
64 MiB of memory and no tunables, `arc_c_max` is 32 MiB and `arc_c_min` the
64 MiB floor. -/
theorem arc_init_c_above_max :
    arcInitSizes (2 ^ 24) ⟨2 ^ 30, 0, 0, 0, 0⟩ false =
        ⟨2 ^ 31, 2 ^ 29, 2 ^ 31, 2 ^ 30, 2 ^ 28, 5, 4⟩ ∧
      arcInitSizes (2 ^ 14) ⟨0, 0, 0, 0, 0⟩ false =
        ⟨2 ^ 26, 2 ^ 24, 2 ^ 26, 2 ^ 25, 2 ^ 23, 5, 4⟩ ∧
      ¬TargetInv (arcInitSizes (2 ^ 24) ⟨2 ^ 30, 0, 0, 0, 0⟩ false) ∧
      ¬TargetInv (arcInitSizes (2 ^ 14) ⟨0, 0, 0, 0, 0⟩ false) := by
  have h1 : arcInitSizes (2 ^ 24) ⟨2 ^ 30, 0, 0, 0, 0⟩ false =
      ⟨2 ^ 31, 2 ^ 29, 2 ^ 31, 2 ^ 30, 2 ^ 28, 5, 4⟩ := by decide
  have h2 : arcInitSizes (2 ^ 14) ⟨0, 0, 0, 0, 0⟩ false =
      ⟨2 ^ 26, 2 ^ 24, 2 ^ 26, 2 ^ 25, 2 ^ 23, 5, 4⟩ := by decide
  refine ⟨h1, h2, fun h => ?_, fun h => ?_⟩
  · have := h.le_max
    rw [h1] at this
    exact absurd this (by decide)
  · have := h.le_max
    rw [h2] at this
    exact absurd this (by decide)

end ZfsOsx.Arc
