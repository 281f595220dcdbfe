import ZfsOsx.SpaceMap.Ref
/-!
# Dirty time logs: `vdev_dtl_reassess` and `vdev_dtl_required`

Each vdev keeps four space maps of txgs (vdev.c:1607-1644): `DTL_MISSING`,
`DTL_PARTIAL`, `DTL_SCRUB` and `DTL_OUTAGE`. Only the leaves' `DTL_MISSING`
is kept on disk; `vdev_dtl_reassess` recomputes the rest bottom-up, every map
through a reference tree of `ZfsOsx.Space`:

* a leaf folds a finished scrub in (`DTL_MISSING` at 1, `[0, scrub_txg)` at
  -1 and `DTL_SCRUB` at 2, generated with `minref` 1), copies `DTL_MISSING`
  into `DTL_PARTIAL`, and sets `DTL_OUTAGE` to every txg when it cannot be
  read and to `DTL_MISSING` otherwise;
* an interior vdev generates `DTL_PARTIAL` from its children's `DTL_PARTIAL`
  with `minref` 1, and `DTL_MISSING` and `DTL_OUTAGE` from their
  `DTL_OUTAGE` with `minref` `nparity + 1` for RAID-Z and the number of
  children for the mirrors;
* the pool's root, holes and aux vdevs keep their maps.

The tree is a `Vdev` with its children; a vdev in it is reached by a path of
child indices (`Vdev.child?`). The nodes of each reference tree are the
addresses `0, 1, ...`, as `kmem_alloc` may return for a tree whose nodes are
all freed with it.

Results:
* `dtlScrubFold_spec`, `dtlLeaf_spec`, `dtlInterior_spec`: each branch of
  `vdev_dtl_reassess` on valid maps succeeds, keeps the maps valid and makes
  the sets the DTL comment asks for.
* `reassess_some`, `reassess_child?`: the whole recursion succeeds, and every
  vdev of the tree ends up as its own reassessment made of its children's.
* `vdev_dtl_reassess_spec`: (a) and (b) for every leaf, (c) for every
  interior vdev that is not the root, a hole or an aux vdev and has a positive
  `minref`, and the maps of the others unchanged.
* `outage_spec` and `vdev_dtl_required_iff`: after the reassessment a vdev's
  `DTL_OUTAGE` is `Vdev.outage`, the outage the comment defines from the
  leaves; so `vdev_dtl_required`, without fault injection, says whether
  marking the vdev unreadable leaves an outage in its top-level vdev.
-/

namespace ZfsOsx.Dtl

open Sweep ZfsOsx.Space ZfsOsx.Avl

/-- `vdev_dtl_type_t` (vdev.h:40-46). -/
inductive DtlType where
  | dtlMissing
  | dtlPartial
  | dtlScrub
  | dtlOutage
  deriving DecidableEq, Repr

/-- The ops vectors of a vdev: `vdev_root_ops`, the mirror family
(vdev_mirror.c:456-500), `vdev_raidz_ops`, the device leaves, and
`vdev_missing_ops` and `vdev_hole_ops` (vdev_missing.c). -/
inductive VdevOps where
  | root
  | mirror
  | replacing
  | spare
  | raidz
  | disk
  | file
  | missing
  | hole
  deriving DecidableEq, Repr

/-- `vdev_op_leaf` of each ops vector. -/
def VdevOps.vdevOpLeaf : VdevOps → Bool
  | .disk | .file | .missing | .hole => true
  | .root | .mirror | .replacing | .spare | .raidz => false

/-- `VDEV_STATE_DEGRADED` (fs/zfs.h:589). -/
def vdevStateDegraded : Nat := 6

/-- The fields of `vdev_t` (vdev_impl.h) that the DTL code reads, with
`vdev_child[]` as the list of children and `vdev_aux` as whether it is set. -/
structure Vdev where
  vdevOps : VdevOps
  vdevState : Nat
  vdevIshole : Bool
  vdevAux : Bool
  vdevCantRead : Bool
  vdevNparity : Nat
  vdevDtl : DtlType → SpaceMap
  vdevChild : List Vdev

/-- `vdev_is_dead(vd)` (vdev.c:2441-2452). -/
def vdevIsDead (vd : Vdev) : Bool :=
  decide (vd.vdevState < vdevStateDegraded) || vd.vdevIshole || vd.vdevOps == .missing

/-- `vdev_readable(vd)` (vdev.c:2454-2458). -/
def vdevReadable (vd : Vdev) : Bool := !vdevIsDead vd && !vd.vdevCantRead

/-- `vdev_dtl_empty(vd, t)` (vdev.c:1677-1688). -/
def vdevDtlEmpty (vd : Vdev) (t : DtlType) : Bool := (vd.vdevDtl t).smSpace == 0

/-! ## Reference trees on the stack -/

/-- The `avl_tree_t reftree` before `space_map_ref_create`, which sets its
root and count; the rest is never read before it is written. -/
def reftree0 : AvlTree := ⟨none, 0, fun _ _ => none, fun _ => none, fun _ => 0, fun _ => 0⟩

/-- The fields of nodes before `space_map_ref_add_node` writes them. -/
def ref0 : Nat → SpaceRef := fun _ => ⟨0, 0⟩

/-- The pairs of nodes `kmem_alloc` returns for `n` segments, from address `a`. -/
def freshNodes (a : Nat) : Nat → List (Nat × Nat)
  | 0 => []
  | n + 1 => (a, a + 1) :: freshNodes (a + 2) n

/-- `space_map_ref_add_map` of each map with its refcount, in turn, the nodes
numbered from `a`. -/
@[grind] def refCalls (a : Nat) : List (SpaceMap × Int) → List (SpaceMap × Int × List (Nat × Nat))
  | [] => []
  | (sm, refcnt) :: rest =>
    (sm, refcnt, freshNodes a sm.smRoot.length) :: refCalls (a + 2 * sm.smRoot.length) rest

/-! ## `vdev_dtl_reassess` -/

/-- What `vdev_dtl_reassess` reads of the pool to decide whether a scrub is
folded in: `spa_scrub_started`, and `scn_phys.scn_errors` of `dp_scan`, `none`
when there is no scan. -/
structure ScrubState where
  spaScrubStarted : Bool
  scnErrors : Option Nat

/-- The test of vdev.c:1719-1721. -/
def scrubFolds (scan : ScrubState) (scrubTxg : Nat) : Bool :=
  scrubTxg != 0 && (scan.spaScrubStarted || scan.scnErrors == some 0)

/-- The fold of `DTL_SCRUB` into `DTL_MISSING` (vdev.c:1722-1739). -/
def dtlScrubFold (missing scrub : SpaceMap) (scrubTxg : Nat) : Option SpaceMap := do
  let m := missing.smRoot.length
  let r ← spaceMapRefAddMap (avlCreate reftree0) ref0 missing 1 (freshNodes 0 m)
  let r ← spaceMapRefAddSeg r.1 r.2 (2 * m) (2 * m + 1) 0 scrubTxg (-1)
  let r ← spaceMapRefAddMap r.1 r.2 scrub 2 (freshNodes (2 * m + 2) scrub.smRoot.length)
  spaceMapRefGenerateMap r.1 r.2 missing 1

/-- The leaf branch of `vdev_dtl_reassess` (vdev.c:1713-1759) on the maps of
`vd`; the `vdev_dirty` of `txg` is not modelled. -/
def dtlLeaf (scan : ScrubState) (scrubTxg : Nat) (scrubDone : Bool) (vd : Vdev) :
    Option (DtlType → SpaceMap) := do
  let dtl := vd.vdevDtl
  let dtl ← if scrubFolds scan scrubTxg then
      (dtlScrubFold (dtl .dtlMissing) (dtl .dtlScrub) scrubTxg).map (Function.update dtl .dtlMissing)
    else some dtl
  let dtl ← (spaceMapWalk (dtl .dtlMissing) spaceMapAdd (spaceMapVacate (dtl .dtlPartial))).map
    (Function.update dtl .dtlPartial)
  let dtl := if scrubDone then Function.update dtl .dtlScrub (spaceMapVacate (dtl .dtlScrub)) else dtl
  let dtl := Function.update dtl .dtlOutage (spaceMapVacate (dtl .dtlOutage))
  if !vdevReadable vd then
    (spaceMapAdd (dtl .dtlOutage) 0 (2 ^ 64 - 1)).map (Function.update dtl .dtlOutage)
  else
    (spaceMapWalk (dtl .dtlMissing) spaceMapAdd (dtl .dtlOutage)).map (Function.update dtl .dtlOutage)

/-- `minref` of map `t` of an interior vdev (vdev.c:1767-1772), an `int` set
from a `uint64_t`: cut to 32 bits. -/
@[grind] def dtlMinref (vd : Vdev) (t : DtlType) : Int :=
  if t = .dtlPartial then 1
  else if vd.vdevNparity ≠ 0 then ((vd.vdevNparity + 1 : Nat) : Int).bmod (2 ^ 32)
  else (vd.vdevChild.length : Int).bmod (2 ^ 32)

/-- One round of the loop over `t` of the interior branch (vdev.c:1762-1782). -/
def dtlInteriorStep (vd : Vdev) (dtl : DtlType → SpaceMap) (t : DtlType) :
    Option (DtlType → SpaceMap) :=
  -- the children's outage makes the parent's missing map
  let s := if t = .dtlMissing then .dtlOutage else t
  if t = .dtlScrub then some dtl
  else do
    let r ← refAddMaps (avlCreate reftree0) ref0 (refCalls 0 (vd.vdevChild.map fun c => (c.vdevDtl s, 1)))
    let sm ← spaceMapRefGenerateMap r.1 r.2 (dtl t) (dtlMinref vd t)
    some (Function.update dtl t sm)

/-- The DTL types in the order of `for (t = 0; t < DTL_TYPES; t++)`. -/
def dtlTypes : List DtlType := [.dtlMissing, .dtlPartial, .dtlScrub, .dtlOutage]

/-- The interior branch of `vdev_dtl_reassess` (vdev.c:1761-1783), over the
children as they are after their own reassessment. -/
def dtlInterior (vd : Vdev) : Option (DtlType → SpaceMap) :=
  dtlTypes.foldlM (dtlInteriorStep vd) vd.vdevDtl

mutual

/-- `vdev_dtl_reassess(vd, txg, scrub_txg, scrub_done)` (vdev.c:1694-1784).
`isRoot` is `vd == spa->spa_root_vdev`: true of the top of the pool's tree
when the walk starts there, and of no child. -/
def vdevDtlReassess (scan : ScrubState) (scrubTxg : Nat) (scrubDone isRoot : Bool) :
    Vdev → Option Vdev
  | ⟨ops, state, ishole, aux, cantRead, nparity, dtl, children⟩ => do
    let children ← reassessChildren scan scrubTxg scrubDone children
    let vd : Vdev := ⟨ops, state, ishole, aux, cantRead, nparity, dtl, children⟩
    if isRoot || ishole || aux then some vd
    else if ops.vdevOpLeaf then
      (dtlLeaf scan scrubTxg scrubDone vd).map fun dtl => { vd with vdevDtl := dtl }
    else (dtlInterior vd).map fun dtl => { vd with vdevDtl := dtl }

/-- The loop over `vdev_child[]` at the head of `vdev_dtl_reassess`. -/
@[grind] def reassessChildren (scan : ScrubState) (scrubTxg : Nat) (scrubDone : Bool) :
    List Vdev → Option (List Vdev)
  | [] => some []
  | c :: cs => do
    let c ← vdevDtlReassess scan scrubTxg scrubDone false c
    let cs ← reassessChildren scan scrubTxg scrubDone cs
    some (c :: cs)

end

/-! ## Paths and `vdev_dtl_required` -/

/-- The vdev at `path` below `vd`, through `vdev_child[i]` at each step. -/
@[grind] def Vdev.child? : Vdev → List Nat → Option Vdev
  | vd, [] => some vd
  | vd, i :: p => vd.vdevChild[i]?.bind fun c => c.child? p

/-- `vd->vdev_cant_read = b` for the vdev at `path` below `vd`. -/
def Vdev.setCantRead (b : Bool) : Vdev → List Nat → Vdev
  | vd, [] => { vd with vdevCantRead := b }
  | vd, i :: p => { vd with vdevChild := vd.vdevChild.modify i fun c => c.setCantRead b p }

/-- `vdev_dtl_required(vd)` (vdev.c:1884-1912) for the vdev at `path` in the
pool's tree `root`, and the tree after it. `zioInjection` is what
`zio_handle_device_injection(vd, NULL, ECHILD) != 0` gives when
`zio_injection_enabled`, `none` when it is not. -/
def vdevDtlRequired (scan : ScrubState) (zioInjection : Option Bool) (root : Vdev) :
    List Nat → Option (Bool × Vdev)
  -- `vd == spa->spa_root_vdev || vd == tvd`
  | [] | [_] => some (true, root)
  | i :: p => do
    let tvd ← root.vdevChild[i]?
    let vd ← tvd.child? p
    let cantRead := vd.vdevCantRead
    let tvd ← vdevDtlReassess scan 0 false false (tvd.setCantRead true p)
    let required := !vdevDtlEmpty tvd .dtlOutage
    let tvd ← vdevDtlReassess scan 0 false false (tvd.setCantRead cantRead p)
    let required := if !required && zioInjection.isSome then zioInjection.getD false else required
    some (required, { root with vdevChild := root.vdevChild.set i tvd })

/-! ## DTL maps -/

/-- A DTL map as `space_map_create(&vd->vdev_dtl[t], 0, -1ULL, 0, ...)`
(vdev.c:327-330) makes it, kept valid. -/
structure DtlMap (sm : SpaceMap) : Prop where
  valid : sm.Valid
  start : sm.smStart = 0
  size : sm.smSize = 2 ^ 64 - 1
  shift : sm.smShift = 0

namespace DtlMap

variable {sm : SpaceMap}

theorem seg (h : DtlMap sm) {ss : SpaceSeg} (hss : ss ∈ sm.smRoot) :
    ss.ssStart < ss.ssEnd ∧ ss.ssEnd ≤ 2 ^ 64 - 1 := by
  have hlt := (separated_segs.1 h.valid.separated).1 ss hss
  have hb := (h.valid.bounds ss hss).2
  rw [h.start, h.size] at hb
  exact ⟨hlt, by omega⟩

/-- The range of a DTL map ends at `-1ULL`. -/
theorem top (h : DtlMap sm) : sm.smStart + sm.smSize = noStart := by
  rw [h.start, h.size, noStart, Nat.zero_add]

theorem cover_lt (h : DtlMap sm) {x : Nat} (hx : x ∈ segCover sm.smRoot) : x < 2 ^ 64 - 1 := by
  obtain ⟨ss, hss, -, hx⟩ := mem_segCover.1 hx
  have := h.seg hss
  omega

/-- The segments of a DTL map lie in any other DTL map and in its unit. -/
theorem seg_in (h : DtlMap sm) {d : SpaceMap} (hd : DtlMap d) :
    ∀ ss ∈ sm.smRoot, d.smStart ≤ ss.ssStart ∧ ss.ssEnd ≤ d.smStart + d.smSize ∧
      ss.ssStart % 2 ^ d.smShift = 0 ∧ ss.ssEnd % 2 ^ d.smShift = 0 := by
  intro ss hss
  have := h.seg hss
  simp only [hd.start, hd.size, hd.shift, pow_zero, Nat.mod_one, and_true, zero_le, true_and]
  omega

/-- The same, for the segments as intervals. -/
theorem pair_in (h : DtlMap sm) {d : SpaceMap} (hd : DtlMap d) :
    ∀ p ∈ sm.smRoot.map SpaceSeg.toPair, d.smStart ≤ p.1 ∧ p.2 ≤ d.smStart + d.smSize ∧
      p.1 % 2 ^ d.smShift = 0 ∧ p.2 % 2 ^ d.smShift = 0 := by
  intro p hp
  obtain ⟨ss, hss, rfl⟩ := List.mem_map.1 hp
  exact h.seg_in hd ss hss

/-- The map `space_map_create(&vd->vdev_dtl[t], 0, -1ULL, 0, ...)` makes. -/
theorem create : DtlMap ⟨[], 0, 0, 2 ^ 64 - 1, 0⟩ where
  valid := ⟨separated_segs.2 ⟨by simp, by simp⟩, by simp, by norm_num, rfl⟩
  start := rfl
  size := rfl
  shift := rfl

theorem vacate (h : DtlMap sm) : DtlMap (spaceMapVacate sm) where
  valid := ⟨separated_segs.2 ⟨by simp [spaceMapVacate], by simp [spaceMapVacate]⟩,
    by simp [spaceMapVacate], h.valid.range, rfl⟩
  start := h.start
  size := h.size
  shift := h.shift

/-- A valid map with the range and unit of a DTL map is one. -/
theorem of_frame (h : DtlMap sm) {sm' : SpaceMap} (hv : sm'.Valid)
    (hf : sm'.smStart = sm.smStart ∧ sm'.smSize = sm.smSize ∧ sm'.smShift = sm.smShift) :
    DtlMap sm' :=
  ⟨hv, hf.1.trans h.start, hf.2.1.trans h.size, hf.2.2.trans h.shift⟩

/-- `space_map_walk(sm, space_map_add, d)` into a vacated DTL map copies `sm`. -/
theorem walk_vacate (h : DtlMap sm) {d : SpaceMap} (hd : DtlMap d) :
    ∃ d', spaceMapWalk sm spaceMapAdd (spaceMapVacate d) = some d' ∧ DtlMap d' ∧
      segCover d'.smRoot = segCover sm.smRoot := by
  have hv := hd.vacate
  obtain ⟨d', hw, hv', hcov, hf⟩ := spaceMapWalk_add_spec h.valid hv.valid (h.seg_in hv)
    (by simp [spaceMapVacate])
  exact ⟨d', hw, hv.of_frame hv' hf, by simpa [spaceMapVacate] using hcov⟩

/-- `space_map_add(d, 0, -1ULL)` into a vacated DTL map: every txg below
`UINT64_MAX`. -/
theorem add_all {d : SpaceMap} (hd : DtlMap d) :
    ∃ d', spaceMapAdd (spaceMapVacate d) 0 (2 ^ 64 - 1) = some d' ∧ DtlMap d' ∧
      segCover d'.smRoot = Set.Iio (2 ^ 64 - 1) := by
  have hv := hd.vacate
  obtain ⟨d', hadd, hv', hcov, hf⟩ := @spaceMapAdd_spec _ hv.valid 0 (2 ^ 64 - 1) (by norm_num)
    (by rw [hv.start]) (by rw [hv.start, hv.size]) (by rw [hv.shift]; rfl)
    (by rw [hv.shift]; rfl) (by simp [spaceMapVacate])
  refine ⟨d', hadd, hv.of_frame hv' hf, ?_⟩
  rw [hcov]
  ext x
  simp [spaceMapVacate]

end DtlMap

/-- A valid map has no segments exactly when its `sm_space` is zero. -/
theorem smSpace_eq_zero_iff {sm : SpaceMap} (h : sm.Valid) :
    sm.smSpace = 0 ↔ segCover sm.smRoot = ∅ := by
  have hlt := (separated_segs.1 h.separated).1
  rw [h.space]
  constructor
  · intro h0
    ext x
    simp only [mem_segCover, Set.mem_empty_iff_false, iff_false, not_exists, not_and]
    intro ss hss hxs hxe
    have := List.sum_eq_zero_iff.1 h0 (ss.ssEnd - ss.ssStart) (List.mem_map_of_mem hss)
    omega
  · intro h0
    refine List.sum_eq_zero fun n hn => ?_
    obtain ⟨ss, hss, rfl⟩ := List.mem_map.1 hn
    have hx : ss.ssStart ∈ segCover sm.smRoot := mem_segCover.2 ⟨ss, hss, le_rfl, hlt ss hss⟩
    rw [h0] at hx
    exact absurd hx (Set.notMem_empty _)

/-! ## Reference trees of fresh nodes -/

theorem length_freshNodes (a n : Nat) : (freshNodes a n).length = n := by
  induction n generalizing a with
  | zero => rfl
  | succ n ih => simp [freshNodes, ih]

theorem nodeList_freshNodes (a n : Nat) : nodeList (freshNodes a n) = List.range' a (2 * n) := by
  induction n generalizing a with
  | zero => rfl
  | succ n ih =>
    rw [freshNodes, show 2 * (n + 1) = 2 * n + 1 + 1 by ring, List.range'_succ, List.range'_succ,
      ← ih]
    simp [nodeList, Nat.add_assoc]

theorem callNodes_refCalls (a : Nat) (ms : List (SpaceMap × Int)) :
    callNodes (refCalls a ms) = List.range' a (2 * (ms.map fun m => m.1.smRoot.length).sum) := by
  induction ms generalizing a with
  | nil => rfl
  | cons m ms ih =>
    rw [refCalls, callNodes, List.flatMap_cons, ← callNodes, ih, nodeList_freshNodes,
      List.range'_append_1]
    simp [Nat.mul_add]

theorem refFams_refCalls (a : Nat) (ms : List (SpaceMap × Int)) :
    refFams (refCalls a ms) = ms.map fun m => (m.2, m.1.smRoot.map SpaceSeg.toPair) := by
  induction ms generalizing a with
  | nil => rfl
  | cons m ms ih =>
    rw [refCalls, refFams, List.map_cons, ← refFams, ih]
    rfl

theorem length_refCalls (a : Nat) (ms : List (SpaceMap × Int)) :
    ∀ c ∈ refCalls a ms, c.2.2.length = c.1.smRoot.length := by
  induction ms generalizing a with
  | nil => simp [refCalls]
  | cons m ms ih =>
    intro c hc
    rcases List.mem_cons.1 hc with rfl | hc
    · exact length_freshNodes _ _
    · exact ih _ c hc

/-- The weight of maps of refcount 1 at `x` is the number of them that hold `x`. -/
theorem weightAt_ones (ms : List SpaceMap) (x : Nat) :
    weightAt (ms.map fun m => ((1 : Int), m.smRoot.map SpaceSeg.toPair)) x =
      ms.countP fun m => decide (x ∈ segCover m.smRoot) := by
  induction ms with
  | nil => rfl
  | cons m ms ih =>
    rw [List.map_cons, weightAt, List.map_cons, List.sum_cons, ← weightAt, ih, List.countP_cons]
    by_cases hx : x ∈ segCover m.smRoot
    · rw [if_pos (show x ∈ cover (m.smRoot.map SpaceSeg.toPair) from hx)]
      simp only [hx, decide_true, if_true]
      push_cast
      ring
    · rw [if_neg (show x ∉ cover (m.smRoot.map SpaceSeg.toPair) from hx)]
      simp only [hx, decide_false, Bool.false_eq_true, if_false]
      push_cast
      ring

/-- The reference tree of DTL maps at refcount 1, generated with a positive
`minref` into a DTL map: the txgs held by at least `minref` of the maps. -/
theorem generate_ones {ms : List SpaceMap} (hms : ∀ m ∈ ms, DtlMap m) (hlen : ms.length < 2 ^ 63)
    {sm0 : SpaceMap} (hsm0 : DtlMap sm0) {minref : Int} (hmin : 0 < minref) :
    ∃ r sm, refAddMaps (avlCreate reftree0) ref0 (refCalls 0 (ms.map fun m => (m, 1))) = some r ∧
      spaceMapRefGenerateMap r.1 r.2 sm0 minref = some sm ∧ DtlMap sm ∧
      ∀ x, x ∈ segCover sm.smRoot ↔ minref ≤ (ms.countP fun m => decide (x ∈ segCover m.smRoot) : Int) := by
  obtain ⟨t, ref, hbuild, htree, hev⟩ := (refTree_create reftree0 ref0).refAddMaps_spec
    (refCalls 0 (ms.map fun m => (m, 1))) (length_refCalls 0 _)
    (by rw [List.nil_append, callNodes_refCalls]; exact List.nodup_range')
  rw [List.nil_append] at htree hev
  have hfams : refFams (refCalls 0 (ms.map fun m => (m, 1))) =
      ms.map fun m => ((1 : Int), m.smRoot.map SpaceSeg.toPair) := by
    rw [refFams_refCalls, List.map_map]
    rfl
  rw [hfams] at hev
  have hlo : -2 ^ 63 ≤ ((ms.map fun m => ((1 : Int), m.smRoot.map SpaceSeg.toPair)).map
      fun f => min f.1 0).sum := by
    simp [Function.comp_def]
  have hhi : ((ms.map fun m => ((1 : Int), m.smRoot.map SpaceSeg.toPair)).map
      fun f => max f.1 0).sum < 2 ^ 63 := by
    simp only [List.map_map, Function.comp_def, List.map_const', List.sum_replicate]
    norm_num
    exact_mod_cast hlen
  obtain ⟨sm, hgen, hv, hf, hcov⟩ := htree.generate_covers_top (by rw [hev]; simp [RefEvents])
    (fun f hf => by obtain ⟨m, hm, rfl⟩ := List.mem_map.1 hf; exact (hms m hm).valid.separated)
    hlo hhi
    (fun f hf => by obtain ⟨m, hm, rfl⟩ := List.mem_map.1 hf; exact (hms m hm).pair_in hsm0)
    hmin hsm0.top
  exact ⟨(t, ref), sm, hbuild, hgen, hsm0.of_frame hv hf, fun x => by rw [hcov, weightAt_ones]⟩

/-- An empty reference tree generates the vacated map, whatever `minref`. -/
theorem generate_empty (sm0 : SpaceMap) (minref : Int) :
    spaceMapRefGenerateMap (avlCreate reftree0) ref0 sm0 minref = some (spaceMapVacate sm0) := rfl

/-! ## The branches of `vdev_dtl_reassess` -/

theorem scrubTxg_ne_zero {scan : ScrubState} {scrubTxg : Nat} (h : scrubFolds scan scrubTxg = true) :
    scrubTxg ≠ 0 := by
  simp only [scrubFolds, Bool.and_eq_true, bne_iff_ne] at h
  exact h.1

/-- The scrub fold: `DTL_SCRUB`, and what `DTL_MISSING` holds from `scrub_txg`
on. The reference tree carries `DTL_MISSING` at 1, `[0, scrub_txg)` at -1 and
`DTL_SCRUB` at 2, and the map keeps the txgs of weight at least 1. -/
theorem dtlScrubFold_spec {missing scrub : SpaceMap} (hm : DtlMap missing) (hs : DtlMap scrub)
    {scrubTxg : Nat} (h0 : scrubTxg ≠ 0) (htxg : scrubTxg < 2 ^ 64) :
    ∃ sm, dtlScrubFold missing scrub scrubTxg = some sm ∧ DtlMap sm ∧
      segCover sm.smRoot = segCover scrub.smRoot ∪ (segCover missing.smRoot \ Set.Iio scrubTxg) := by
  obtain ⟨t1, ref1, h1, hr1, he1⟩ := (refTree_create reftree0 ref0).addMapLoop_spec missing.smRoot
    (freshNodes 0 missing.smRoot.length) (length_freshNodes _ _)
    (by rw [List.nil_append, nodeList_freshNodes]; exact List.nodup_range') 1
  rw [List.nil_append, nodeList_freshNodes] at hr1 he1
  -- the two nodes of `[0, scrub_txg)` follow those of `DTL_MISSING`
  have hseg : List.range' 0 (2 * missing.smRoot.length) ++
      [2 * missing.smRoot.length, 2 * missing.smRoot.length + 1] =
      List.range' 0 (2 * missing.smRoot.length + 2) := by
    rw [← List.range'_append_1]
    simp [List.range'_succ]
  obtain ⟨t2, ref2, h2, hr2, he2⟩ := hr1.addSeg
    (show (List.range' 0 (2 * missing.smRoot.length) ++
      [2 * missing.smRoot.length, 2 * missing.smRoot.length + 1]).Nodup by
        rw [hseg]; exact List.nodup_range') 0 scrubTxg (-1)
  rw [hseg] at hr2 he2
  obtain ⟨t3, ref3, h3, hr3, he3⟩ := hr2.addMapLoop_spec scrub.smRoot
    (freshNodes (2 * missing.smRoot.length + 2) scrub.smRoot.length) (length_freshNodes _ _)
    (by
      have happ := @List.range'_append_1 0 (2 * missing.smRoot.length + 2) (2 * scrub.smRoot.length)
      rw [Nat.zero_add] at happ
      rw [nodeList_freshNodes, happ]
      exact List.nodup_range') 2
  let fams : List (ℤ × List (ℕ × ℕ)) :=
    [(1, missing.smRoot.map SpaceSeg.toPair), (-1, [(0, scrubTxg)]), (2, scrub.smRoot.map SpaceSeg.toPair)]
  have hev : (RefEvents ref3 (List.range' 0 (2 * missing.smRoot.length + 2) ++
      nodeList (freshNodes (2 * missing.smRoot.length + 2) scrub.smRoot.length))).Perm
      (allEvents fams) := by
    rw [he3, he2, he1]
    simp [RefEvents, allEvents, fams, events]
  have hsep : ∀ f ∈ fams, Separated f.2 := by
    simp only [fams, List.mem_cons, List.not_mem_nil, or_false]
    rintro f (rfl | rfl | rfl)
    · exact hm.valid.separated
    · exact ⟨by simpa using Nat.pos_of_ne_zero h0, List.pairwise_singleton _ _⟩
    · exact hs.valid.separated
  have hin : ∀ f ∈ fams, ∀ p ∈ f.2, missing.smStart ≤ p.1 ∧
      p.2 ≤ missing.smStart + missing.smSize ∧ p.1 % 2 ^ missing.smShift = 0 ∧
      p.2 % 2 ^ missing.smShift = 0 := by
    simp only [fams, List.mem_cons, List.not_mem_nil, or_false]
    rintro f (rfl | rfl | rfl) p hp
    · exact hm.pair_in hm p hp
    · rw [List.mem_singleton.1 hp]
      simp only [hm.start, hm.size, hm.shift, pow_zero, Nat.mod_one, le_refl, true_and, and_true]
      omega
    · exact hs.pair_in hm p hp
  obtain ⟨sm, hgen, hv, hf, hcov⟩ := hr3.generate_covers_top hev hsep (by norm_num [fams])
    (by norm_num [fams]) hin (show (0 : ℤ) < 1 by norm_num) hm.top
  refine ⟨sm, ?_, hm.of_frame hv hf, ?_⟩
  · simp only [dtlScrubFold, spaceMapRefAddMap, h1, h2, h3, Option.bind_eq_bind, Option.bind_some]
    exact hgen
  · -- the weight is `[x ∈ DTL_MISSING] - [x < scrub_txg] + 2 [x ∈ DTL_SCRUB]`
    ext x
    rw [hcov x]
    have hM : x ∈ cover (missing.smRoot.map SpaceSeg.toPair) ↔ x ∈ segCover missing.smRoot :=
      Iff.rfl
    have hS : x ∈ cover (scrub.smRoot.map SpaceSeg.toPair) ↔ x ∈ segCover scrub.smRoot := Iff.rfl
    have hT : x ∈ cover [(0, scrubTxg)] ↔ x < scrubTxg := by simp
    simp only [weightAt, fams, List.map_cons, List.map_nil, List.sum_cons, List.sum_nil,
      Set.mem_union, Set.mem_sdiff, Set.mem_Iio]
    by_cases hxm : x ∈ segCover missing.smRoot <;> by_cases hxs : x ∈ segCover scrub.smRoot <;>
      by_cases hxt : x < scrubTxg <;> simp only [hM, hS, hT, hxm, hxs, hxt, if_true, if_false] <;>
      decide

/-- (a) and (b) of the DTL comment for a leaf `vd` whose maps become `dtl`;
`DTL_SCRUB` is vacated once the scrub is done. -/
structure LeafSpec (scan : ScrubState) (scrubTxg : Nat) (scrubDone : Bool) (vd : Vdev)
    (dtl : DtlType → SpaceMap) : Prop where
  missing : segCover (dtl .dtlMissing).smRoot =
    if scrubFolds scan scrubTxg then
      segCover (vd.vdevDtl .dtlScrub).smRoot ∪ (segCover (vd.vdevDtl .dtlMissing).smRoot \ Set.Iio scrubTxg)
    else segCover (vd.vdevDtl .dtlMissing).smRoot
  dtlPartial : segCover (dtl .dtlPartial).smRoot = segCover (dtl .dtlMissing).smRoot
  scrub : segCover (dtl .dtlScrub).smRoot =
    if scrubDone then ∅ else segCover (vd.vdevDtl .dtlScrub).smRoot
  outage : segCover (dtl .dtlOutage).smRoot =
    if vdevReadable vd then segCover (dtl .dtlMissing).smRoot else Set.Iio (2 ^ 64 - 1)

/-- The leaf branch on DTL maps succeeds, keeps them DTL maps and makes them
as `LeafSpec` says. -/
theorem dtlLeaf_spec {scan : ScrubState} {scrubTxg : Nat} (scrubDone : Bool) {vd : Vdev}
    (hdtl : ∀ t, DtlMap (vd.vdevDtl t)) (htxg : scrubTxg < 2 ^ 64) :
    ∃ dtl, dtlLeaf scan scrubTxg scrubDone vd = some dtl ∧ (∀ t, DtlMap (dtl t)) ∧
      LeafSpec scan scrubTxg scrubDone vd dtl := by
  -- `DTL_MISSING`, with the scrub folded in or not
  obtain ⟨m, hstep, hm, hcovm⟩ : ∃ m, (if scrubFolds scan scrubTxg then
      (dtlScrubFold (vd.vdevDtl .dtlMissing) (vd.vdevDtl .dtlScrub) scrubTxg).map
        (Function.update vd.vdevDtl .dtlMissing) else some vd.vdevDtl) =
      some (Function.update vd.vdevDtl .dtlMissing m) ∧ DtlMap m ∧
      segCover m.smRoot = if scrubFolds scan scrubTxg then segCover (vd.vdevDtl .dtlScrub).smRoot ∪
        (segCover (vd.vdevDtl .dtlMissing).smRoot \ Set.Iio scrubTxg)
      else segCover (vd.vdevDtl .dtlMissing).smRoot := by
    by_cases hf : scrubFolds scan scrubTxg
    · obtain ⟨sm, hsm, hD, hc⟩ := dtlScrubFold_spec (hdtl _) (hdtl _) (scrubTxg_ne_zero hf) htxg
      exact ⟨sm, by rw [if_pos hf, hsm]; rfl, hD, by rw [if_pos hf, hc]⟩
    · exact ⟨vd.vdevDtl .dtlMissing, by rw [if_neg hf, Function.update_eq_self], hdtl _,
        by rw [if_neg hf]⟩
  -- `DTL_PARTIAL` is a copy of it
  obtain ⟨p, hwp, hp, hcovp⟩ := hm.walk_vacate (hdtl .dtlPartial)
  -- `DTL_OUTAGE`: every txg, or a copy of `DTL_MISSING`
  obtain ⟨o, hwo, ho, hcovo⟩ : ∃ o, (if !vdevReadable vd then
      spaceMapAdd (spaceMapVacate (vd.vdevDtl .dtlOutage)) 0 (2 ^ 64 - 1)
      else spaceMapWalk m spaceMapAdd (spaceMapVacate (vd.vdevDtl .dtlOutage))) = some o ∧
      DtlMap o ∧ segCover o.smRoot =
        if vdevReadable vd then segCover m.smRoot else Set.Iio (2 ^ 64 - 1) := by
    by_cases hr : vdevReadable vd
    · obtain ⟨o, hw, ho, hc⟩ := hm.walk_vacate (hdtl .dtlOutage)
      exact ⟨o, by simp only [hr, Bool.not_true, Bool.false_eq_true, if_false]; exact hw, ho,
        by rw [if_pos hr, hc]⟩
    · obtain ⟨o, hw, ho, hc⟩ := DtlMap.add_all (hdtl .dtlOutage)
      exact ⟨o, by simp only [hr, Bool.not_false, if_true]; exact hw, ho, by rw [if_neg hr, hc]⟩
  let scrub := if scrubDone then spaceMapVacate (vd.vdevDtl .dtlScrub) else vd.vdevDtl .dtlScrub
  refine ⟨fun t => match t with
    | .dtlMissing => m | .dtlPartial => p | .dtlScrub => scrub | .dtlOutage => o, ?_, ?_, ?_⟩
  · rw [dtlLeaf]
    -- the fold and the other branch both go on from `DTL_MISSING` set to `m`
    split <;> rename_i hf <;> simp only [hf, ↓reduceIte, Bool.false_eq_true] at hstep <;>
      rw [hstep] <;>
      simp only [Option.bind_eq_bind, Option.bind_some, Function.update_self, ne_eq, reduceCtorEq,
        not_false_eq_true, Function.update_of_ne, hwp, Option.map_some]
    -- then `DTL_PARTIAL`, `DTL_SCRUB` and `DTL_OUTAGE` as each case of the flags has them
    all_goals
      cases scrubDone <;> cases hr : vdevReadable vd <;>
        simp only [hr, Bool.not_true, Bool.not_false, ↓reduceIte, Bool.false_eq_true] at hwo ⊢ <;>
        simp only [Function.update_self, ne_eq, reduceCtorEq, not_false_eq_true,
          Function.update_of_ne, hwo, Option.map_some, Option.some.injEq] <;>
        funext t <;> cases t <;> simp [scrub]
  · intro t
    cases t
    · exact hm
    · exact hp
    · by_cases hd : scrubDone
      · simp only [scrub, hd, if_true]
        exact (hdtl _).vacate
      · simp only [scrub, hd, if_false, Bool.false_eq_true]
        exact hdtl _
    · exact ho
  · refine ⟨hcovm, hcovp, ?_, hcovo⟩
    by_cases hd : scrubDone
    · simp [scrub, hd, spaceMapVacate]
    · simp [scrub, hd]

/-- How many of the vdevs `cs` hold txg `x` in their map `t`. -/
@[grind] def dtlCount (cs : List Vdev) (t : DtlType) (x : Nat) : Nat :=
  cs.countP fun c => decide (x ∈ segCover (c.vdevDtl t).smRoot)

/-- With fewer than `2^31` children and `nparity + 1` below it, `minref`
is not cut: `nparity + 1` for RAID-Z, the number of children otherwise. -/
theorem dtlMinref_of_ne {vd : Vdev} {t : DtlType} (ht : t ≠ .dtlPartial)
    (hlen : vd.vdevChild.length < 2 ^ 31) (hpar : vd.vdevNparity + 1 < 2 ^ 31) :
    dtlMinref vd t = if vd.vdevNparity ≠ 0 then vd.vdevNparity + 1 else vd.vdevChild.length := by
  rw [dtlMinref, if_neg ht]
  split_ifs
  · exact Int.bmod_eq_of_le (by omega) (by omega)
  · exact Int.bmod_eq_of_le (by omega) (by omega)

/-- `minref` is positive unless a mirror has no children. -/
theorem dtlMinref_pos_or_nil (vd : Vdev) (t : DtlType) (hlen : vd.vdevChild.length < 2 ^ 31)
    (hpar : vd.vdevNparity + 1 < 2 ^ 31) :
    0 < dtlMinref vd t ∨ (vd.vdevNparity = 0 ∧ vd.vdevChild = []) := by
  by_cases ht : t = .dtlPartial
  · left
    simp [dtlMinref, ht]
  rw [dtlMinref_of_ne ht hlen hpar]
  by_cases hp : vd.vdevNparity = 0
  · by_cases hc : vd.vdevChild = []
    · exact .inr ⟨hp, hc⟩
    · left
      simp only [hp, ne_eq, not_true_eq_false, if_false]
      exact_mod_cast List.length_pos_iff.2 hc
  · left
    simp only [ne_eq, hp, not_false_eq_true, if_true]
    omega

/-- A round of the interior loop for `t ≠ DTL_SCRUB`: `dtl t` becomes a DTL
map that holds, for a positive `minref`, the txgs held in map `s` by at
least `minref` children. -/
theorem dtlInteriorStep_spec {vd : Vdev} {dtl : DtlType → SpaceMap} {t : DtlType}
    (ht : t ≠ .dtlScrub) (hdtl : DtlMap (dtl t)) (hcs : ∀ c ∈ vd.vdevChild, ∀ t, DtlMap (c.vdevDtl t))
    (hlen : vd.vdevChild.length < 2 ^ 31) (hpar : vd.vdevNparity + 1 < 2 ^ 31) :
    ∃ sm, dtlInteriorStep vd dtl t = some (Function.update dtl t sm) ∧ DtlMap sm ∧
      (0 < dtlMinref vd t → ∀ x, x ∈ segCover sm.smRoot ↔
        dtlMinref vd t ≤ dtlCount vd.vdevChild (if t = .dtlMissing then .dtlOutage else t) x) := by
  -- the maps of the children that the round reads
  have hcalls : (vd.vdevChild.map fun c => (c.vdevDtl (if t = .dtlMissing then .dtlOutage else t), (1 : Int))) =
      (vd.vdevChild.map fun c => c.vdevDtl (if t = .dtlMissing then .dtlOutage else t)).map
        fun m => (m, 1) := by
    rw [List.map_map]
    rfl
  have hms : ∀ m ∈ vd.vdevChild.map fun c => c.vdevDtl (if t = .dtlMissing then .dtlOutage else t),
      DtlMap m := by
    intro m hm
    obtain ⟨c, hc, rfl⟩ := List.mem_map.1 hm
    exact hcs c hc _
  by_cases hpos : 0 < dtlMinref vd t
  · obtain ⟨r, sm, hr, hg, hD, hcov⟩ := generate_ones hms (by simp; omega) hdtl hpos
    refine ⟨sm, ?_, hD, fun _ x => ?_⟩
    · simp only [dtlInteriorStep, if_neg ht, hcalls, hr, Option.bind_eq_bind, Option.bind_some, hg]
    · rw [hcov x, List.countP_map]
      rfl
  · -- a mirror without children: an empty tree, and the map vacated
    have hnil := ((dtlMinref_pos_or_nil vd t hlen hpar).resolve_left hpos).2
    refine ⟨spaceMapVacate (dtl t), ?_, hdtl.vacate, fun h => absurd h hpos⟩
    simp only [dtlInteriorStep, if_neg ht, hnil, List.map_nil, refCalls, refAddMaps,
      Option.bind_eq_bind, Option.bind_some, generate_empty]

/-- The txgs an interior vdev cannot read, as the DTL comment has them: held
in `DTL_OUTAGE` by more than `nparity` children for RAID-Z, by every child
for the mirrors. -/
def outageQuorum (vd : Vdev) (x : Nat) : Bool :=
  if vd.vdevNparity ≠ 0 then decide (vd.vdevNparity + 1 ≤ dtlCount vd.vdevChild .dtlOutage x)
  else vd.vdevChild.all fun c => decide (x ∈ segCover (c.vdevDtl .dtlOutage).smRoot)

/-- (c) of the DTL comment for an interior vdev `vd` whose maps become `dtl`:
`DTL_PARTIAL` the union of the children's, `DTL_MISSING` and `DTL_OUTAGE`
the quorum of the children's outages. -/
structure InteriorSpec (vd : Vdev) (dtl : DtlType → SpaceMap) : Prop where
  dtlPartial : ∀ x, x ∈ segCover (dtl .dtlPartial).smRoot ↔
    ∃ c ∈ vd.vdevChild, x ∈ segCover (c.vdevDtl .dtlPartial).smRoot
  missing : ∀ x, x ∈ segCover (dtl .dtlMissing).smRoot ↔ outageQuorum vd x = true
  outage : ∀ x, x ∈ segCover (dtl .dtlOutage).smRoot ↔ outageQuorum vd x = true

/-- `minref` against the count of children is the quorum. -/
theorem minref_le_iff_outageQuorum {vd : Vdev} {t : DtlType} (ht : t ≠ .dtlPartial)
    (hlen : vd.vdevChild.length < 2 ^ 31) (hpar : vd.vdevNparity + 1 < 2 ^ 31) (x : Nat) :
    dtlMinref vd t ≤ dtlCount vd.vdevChild .dtlOutage x ↔ outageQuorum vd x = true := by
  rw [dtlMinref_of_ne ht hlen hpar, outageQuorum]
  by_cases hp : vd.vdevNparity = 0
  · -- `minref` children of `vdev_children` is all of them
    simp only [hp, ne_eq, not_true_eq_false, if_false, List.all_eq_true, decide_eq_true_eq]
    have hle : dtlCount vd.vdevChild .dtlOutage x ≤ vd.vdevChild.length := List.countP_le_length
    have hall : dtlCount vd.vdevChild .dtlOutage x = vd.vdevChild.length ↔
        ∀ c ∈ vd.vdevChild, x ∈ segCover (c.vdevDtl .dtlOutage).smRoot := by
      simp [dtlCount]
    rw [← hall]
    omega
  · simp [hp]

/-- The interior branch on DTL maps succeeds, keeps them DTL maps and, when
`minref` is positive, makes them as `InteriorSpec` says. -/
theorem dtlInterior_spec {vd : Vdev} (hdtl : ∀ t, DtlMap (vd.vdevDtl t))
    (hcs : ∀ c ∈ vd.vdevChild, ∀ t, DtlMap (c.vdevDtl t)) (hlen : vd.vdevChild.length < 2 ^ 31)
    (hpar : vd.vdevNparity + 1 < 2 ^ 31) :
    ∃ dtl, dtlInterior vd = some dtl ∧ (∀ t, DtlMap (dtl t)) ∧
      dtl .dtlScrub = vd.vdevDtl .dtlScrub ∧ (0 < dtlMinref vd .dtlMissing → InteriorSpec vd dtl) := by
  obtain ⟨m, h1, hm, hcm⟩ := @dtlInteriorStep_spec vd vd.vdevDtl .dtlMissing
    (by decide) (hdtl _) hcs hlen hpar
  obtain ⟨p, h2, hp, hcp⟩ := @dtlInteriorStep_spec vd
    (Function.update vd.vdevDtl .dtlMissing m) .dtlPartial (by decide)
    (by simpa using hdtl .dtlPartial) hcs hlen hpar
  obtain ⟨o, h4, ho, hco⟩ := @dtlInteriorStep_spec vd
    (Function.update (Function.update vd.vdevDtl .dtlMissing m) .dtlPartial p)
    .dtlOutage (by decide) (by simpa using hdtl .dtlOutage) hcs hlen hpar
  have h3 : dtlInteriorStep vd (Function.update (Function.update vd.vdevDtl .dtlMissing m)
      .dtlPartial p) .dtlScrub = some (Function.update (Function.update vd.vdevDtl .dtlMissing m)
      .dtlPartial p) := by
    simp [dtlInteriorStep]
  refine ⟨Function.update (Function.update (Function.update vd.vdevDtl .dtlMissing m)
    .dtlPartial p) .dtlOutage o, ?_, ?_, by simp, fun hpos => ⟨fun x => ?_, fun x => ?_, fun x => ?_⟩⟩
  · simp only [dtlInterior, dtlTypes, List.foldlM_cons, List.foldlM_nil, h1, h2, h3, h4,
      Option.bind_eq_bind, Option.bind_some]
    rfl
  · intro t
    cases t <;> simp [hm, hp, ho, hdtl]
  · -- `DTL_PARTIAL`, with `minref` 1
    simp only [ne_eq, reduceCtorEq, not_false_eq_true, Function.update_of_ne, Function.update_self]
    rw [hcp (by simp [dtlMinref]) x]
    simp [dtlMinref, dtlCount]
  · simp only [ne_eq, reduceCtorEq, not_false_eq_true, Function.update_of_ne, Function.update_self]
    rw [hcm hpos x]
    exact minref_le_iff_outageQuorum (by decide) hlen hpar x
  · have hpos' : 0 < dtlMinref vd .dtlOutage := by
      rwa [dtlMinref_of_ne (by decide) hlen hpar, ← dtlMinref_of_ne (t := .dtlMissing) (by decide)
        hlen hpar]
    simp only [Function.update_self]
    rw [hco hpos' x]
    exact minref_le_iff_outageQuorum (by decide) hlen hpar x

/-! ## The whole tree -/

/-- What the reassessment needs of a vdev: DTL maps, fewer than `2^31`
children (the `int c` of the loop and the `int minref`), and `nparity + 1`
below `2^31`. -/
structure NodeOk (vd : Vdev) : Prop where
  dtl : ∀ t, DtlMap (vd.vdevDtl t)
  children : vd.vdevChild.length < 2 ^ 31
  nparity : vd.vdevNparity + 1 < 2 ^ 31

/-- `P` holds of every vdev of the tree below `vd`, `vd` included. -/
def Vdev.Every (P : Vdev → Prop) (vd : Vdev) : Prop := ∀ p v, vd.child? p = some v → P v

theorem Vdev.Every.node {P : Vdev → Prop} {vd : Vdev} (h : vd.Every P) : P vd := h [] vd rfl

theorem Vdev.Every.child {P : Vdev → Prop} {vd c : Vdev} (h : vd.Every P) (hc : c ∈ vd.vdevChild) :
    c.Every P := by
  obtain ⟨i, hi⟩ := List.mem_iff_getElem?.1 hc
  intro p v hv
  exact h (i :: p) v (by simp [Vdev.child?, hi, hv])

theorem Vdev.child?_append (vd : Vdev) (p q : List Nat) :
    vd.child? (p ++ q) = (vd.child? p).bind fun v => v.child? q := by
  induction p generalizing vd with
  | nil => rfl
  | cons i p ih =>
    simp only [List.cons_append, Vdev.child?]
    cases vd.vdevChild[i]? with
    | none => rfl
    | some c => exact ih c

/-- `Every` unfolds one level: the vdev and the trees of its children. -/
theorem Vdev.every_iff {P : Vdev → Prop} {vd : Vdev} :
    vd.Every P ↔ P vd ∧ ∀ c ∈ vd.vdevChild, c.Every P := by
  refine ⟨fun h => ⟨h.node, fun c hc => h.child hc⟩, ?_⟩
  rintro ⟨hv, hc⟩ (_ | ⟨i, p⟩) v hpv
  · cases hpv
    exact hv
  · obtain ⟨c, hci, hcv⟩ := Option.bind_eq_some_iff.1 hpv
    exact hc c (List.mem_of_getElem? hci) p v hcv

theorem Vdev.Every.child? {P : Vdev → Prop} {vd v : Vdev} (h : vd.Every P) {p : List Nat}
    (hv : vd.child? p = some v) : v.Every P :=
  fun q w hw => h (p ++ q) w (by rw [Vdev.child?_append, hv, Option.bind_some, hw])

section Reassess

variable (scan : ScrubState) (scrubTxg : Nat) (scrubDone : Bool)

theorem reassessChildren_cons (c : Vdev) (cs : List Vdev) :
    reassessChildren scan scrubTxg scrubDone (c :: cs) =
      (vdevDtlReassess scan scrubTxg scrubDone false c).bind fun c' =>
        (reassessChildren scan scrubTxg scrubDone cs).map (c' :: ·) := by
  simp only [reassessChildren, Option.bind_eq_bind]
  cases vdevDtlReassess scan scrubTxg scrubDone false c <;>
    cases reassessChildren scan scrubTxg scrubDone cs <;> rfl

/-- One vdev, once its children are reassessed to `cs`: the children become
`cs`, and the maps are what the branch for the vdev makes of them. -/
theorem reassess_eq {isRoot : Bool} {vd : Vdev} {cs : List Vdev}
    (hcs : reassessChildren scan scrubTxg scrubDone vd.vdevChild = some cs) :
    vdevDtlReassess scan scrubTxg scrubDone isRoot vd =
      if isRoot || vd.vdevIshole || vd.vdevAux then some { vd with vdevChild := cs }
      else if vd.vdevOps.vdevOpLeaf then
        (dtlLeaf scan scrubTxg scrubDone { vd with vdevChild := cs }).map
          fun dtl => { vd with vdevChild := cs, vdevDtl := dtl }
      else (dtlInterior { vd with vdevChild := cs }).map
          fun dtl => { vd with vdevChild := cs, vdevDtl := dtl } := by
  cases vd
  simp only at hcs
  simp only [vdevDtlReassess, hcs, Option.bind_eq_bind, Option.bind_some]

/-- A vdev's children are reassessed before it. -/
theorem reassess_children {isRoot : Bool} {vd vd' : Vdev}
    (h : vdevDtlReassess scan scrubTxg scrubDone isRoot vd = some vd') :
    reassessChildren scan scrubTxg scrubDone vd.vdevChild = some vd'.vdevChild := by
  cases hcs : reassessChildren scan scrubTxg scrubDone vd.vdevChild with
  | none =>
    cases vd
    simp only at hcs
    simp [vdevDtlReassess, hcs] at h
  | some cs =>
    rw [reassess_eq scan scrubTxg scrubDone hcs] at h
    split_ifs at h
    · cases h
      rfl
    · obtain ⟨dtl, -, rfl⟩ := Option.map_eq_some_iff.1 h
      rfl
    · obtain ⟨dtl, -, rfl⟩ := Option.map_eq_some_iff.1 h
      rfl

theorem reassessChildren_getElem? {cs cs' : List Vdev}
    (h : reassessChildren scan scrubTxg scrubDone cs = some cs') :
    ∀ (i : Nat) (c : Vdev), cs[i]? = some c →
      ∃ c', cs'[i]? = some c' ∧ vdevDtlReassess scan scrubTxg scrubDone false c = some c' := by
  induction cs generalizing cs' with
  | nil => simp
  | cons c cs ih =>
    rw [reassessChildren_cons] at h
    obtain ⟨c', hc', hrest⟩ := Option.bind_eq_some_iff.1 h
    obtain ⟨cs'', hcs'', rfl⟩ := Option.map_eq_some_iff.1 hrest
    rintro (_ | i) d hd
    · cases hd
      exact ⟨c', rfl, hc'⟩
    · exact ih hcs'' i d hd


/-- Every vdev of the tree ends up as its own reassessment, inside the
reassessment of the tree; only the top may be the pool's root. The induction
is on the path. -/
theorem reassess_child? {isRoot : Bool} {vd vd' : Vdev}
    (h : vdevDtlReassess scan scrubTxg scrubDone isRoot vd = some vd') :
    ∀ p v, vd.child? p = some v → ∃ v', vd'.child? p = some v' ∧
      vdevDtlReassess scan scrubTxg scrubDone (isRoot && p.isEmpty) v = some v' := by
  intro p
  induction p generalizing isRoot vd vd' with
  | nil =>
    rintro v ⟨⟩
    exact ⟨vd', rfl, by simpa using h⟩
  | cons i p ih =>
    intro v hv
    obtain ⟨c, hc, hcv⟩ := Option.bind_eq_some_iff.1 hv
    obtain ⟨c', hc', hcc'⟩ := reassessChildren_getElem? scan scrubTxg scrubDone
      (reassess_children scan scrubTxg scrubDone h) i c hc
    obtain ⟨v', hv', hvv'⟩ := ih hcc' v hcv
    exact ⟨v', by simp [Vdev.child?, hc', hv'], by simpa using hvv'⟩

theorem length_reassessChildren {cs cs' : List Vdev}
    (h : reassessChildren scan scrubTxg scrubDone cs = some cs') : cs'.length = cs.length := by
  induction cs generalizing cs' with
  | nil =>
    simp only [reassessChildren, Option.some.injEq] at h
    simp [← h]
  | cons c cs ih =>
    rw [reassessChildren_cons] at h
    obtain ⟨c', -, hrest⟩ := Option.bind_eq_some_iff.1 h
    obtain ⟨cs'', hcs'', rfl⟩ := Option.map_eq_some_iff.1 hrest
    simp [ih hcs'']

/-- Every vdev of the reassessed tree is the reassessment of the vdev at the
same place before. The induction is on the path. -/
theorem child?_of_reassess {isRoot : Bool} {vd vd' : Vdev}
    (h : vdevDtlReassess scan scrubTxg scrubDone isRoot vd = some vd') :
    ∀ p v', vd'.child? p = some v' → ∃ v, vd.child? p = some v ∧
      vdevDtlReassess scan scrubTxg scrubDone (isRoot && p.isEmpty) v = some v' := by
  intro p
  induction p generalizing isRoot vd vd' with
  | nil =>
    rintro v' ⟨⟩
    exact ⟨vd, rfl, by simpa using h⟩
  | cons i p ih =>
    intro v' hv'
    obtain ⟨c', hc', hcv'⟩ := Option.bind_eq_some_iff.1 hv'
    have hcs := reassess_children scan scrubTxg scrubDone h
    -- the children keep their places
    obtain ⟨c, hc⟩ : ∃ c, vd.vdevChild[i]? = some c := by
      have hi : i < vd'.vdevChild.length := (List.getElem?_eq_some_iff.1 hc').1
      rw [length_reassessChildren scan scrubTxg scrubDone hcs] at hi
      exact ⟨_, List.getElem?_eq_getElem hi⟩
    obtain ⟨c'', hc'', hcc''⟩ := reassessChildren_getElem? scan scrubTxg scrubDone hcs i c hc
    rw [hc'] at hc''
    cases hc''
    obtain ⟨v, hv, hvv'⟩ := ih hcc'' v' hcv'
    exact ⟨v, by simp [Vdev.child?, hc, hv], by simpa using hvv'⟩

variable {scrubTxg} (htxg : scrubTxg < 2 ^ 64)
include htxg

/-- What the reassessment makes of one vdev whose children are already
reassessed with DTL maps: its maps stay DTL maps, and are the leaf's or the
interior vdev's of the DTL comment, or unchanged for the root, a hole or an
aux vdev. -/
theorem reassess_node (isRoot : Bool) {vd : Vdev} {cs : List Vdev} (hok : NodeOk vd)
    (hcs : reassessChildren scan scrubTxg scrubDone vd.vdevChild = some cs)
    (hcsD : ∀ c ∈ cs, ∀ t, DtlMap (c.vdevDtl t)) (hlen : cs.length = vd.vdevChild.length) :
    ∃ dtl, vdevDtlReassess scan scrubTxg scrubDone isRoot vd =
        some { vd with vdevChild := cs, vdevDtl := dtl } ∧ (∀ t, DtlMap (dtl t)) ∧
      ((isRoot || vd.vdevIshole || vd.vdevAux) = true → dtl = vd.vdevDtl) ∧
      ((isRoot || vd.vdevIshole || vd.vdevAux) = false → vd.vdevOps.vdevOpLeaf = true →
        LeafSpec scan scrubTxg scrubDone vd dtl) ∧
      ((isRoot || vd.vdevIshole || vd.vdevAux) = false → vd.vdevOps.vdevOpLeaf = false →
        0 < dtlMinref vd .dtlMissing → InteriorSpec { vd with vdevChild := cs } dtl) := by
  rw [reassess_eq scan scrubTxg scrubDone hcs]
  by_cases hskip : (isRoot || vd.vdevIshole || vd.vdevAux) = true
  · exact ⟨vd.vdevDtl, by rw [if_pos hskip], hok.dtl, fun _ => rfl,
      fun h => absurd h (by simp [hskip]), fun h => absurd h (by simp [hskip])⟩
  rw [if_neg hskip]
  by_cases hleaf : vd.vdevOps.vdevOpLeaf = true
  · obtain ⟨dtl, hd, hD, hspec⟩ := @dtlLeaf_spec scan _ scrubDone
      { vd with vdevChild := cs } hok.dtl htxg
    exact ⟨dtl, by rw [if_pos hleaf, hd]; rfl, hD, fun h => absurd h hskip,
      fun _ _ => ⟨hspec.1, hspec.2, hspec.3, hspec.4⟩, fun _ h => absurd hleaf (by simp [h])⟩
  · have hlen' : ({ vd with vdevChild := cs } : Vdev).vdevChild.length < 2 ^ 31 := by
      simpa [hlen] using hok.children
    obtain ⟨dtl, hd, hD, -, hspec⟩ := @dtlInterior_spec { vd with vdevChild := cs } hok.dtl
      hcsD hlen' hok.nparity
    refine ⟨dtl, by rw [if_neg hleaf, hd]; rfl, hD, fun h => absurd h hskip,
      fun _ h => absurd h hleaf, fun _ _ hpos => hspec ?_⟩
    simpa [dtlMinref, hlen] using hpos

end Reassess

mutual

/-- The reassessment of a tree of `NodeOk` vdevs succeeds and leaves every
map a DTL map. -/
theorem reassess_some (scan : ScrubState) {scrubTxg : Nat} (scrubDone : Bool)
    (htxg : scrubTxg < 2 ^ 64) (isRoot : Bool) : ∀ vd : Vdev, vd.Every NodeOk → ∃ vd', vdevDtlReassess scan scrubTxg scrubDone isRoot vd = some vd' ∧
      ∀ t, DtlMap (vd'.vdevDtl t)
  | ⟨ops, state, ishole, aux, cantRead, nparity, dtl, children⟩, h => by
    obtain ⟨cs, hcs, hcsD, hlen⟩ := reassessChildren_some scan scrubDone htxg children
      fun c hc => h.child hc
    obtain ⟨dtl', hd, hD, -⟩ := reassess_node scan scrubDone htxg isRoot h.node hcs
      hcsD hlen
    exact ⟨_, hd, hD⟩

theorem reassessChildren_some (scan : ScrubState) {scrubTxg : Nat} (scrubDone : Bool)
    (htxg : scrubTxg < 2 ^ 64) : ∀ cs : List Vdev, (∀ c ∈ cs, c.Every NodeOk) → ∃ cs', reassessChildren scan scrubTxg scrubDone cs = some cs' ∧
      (∀ c ∈ cs', ∀ t, DtlMap (c.vdevDtl t)) ∧ cs'.length = cs.length
  | [], _ => ⟨[], rfl, by simp, rfl⟩
  | c :: cs, h => by
    obtain ⟨c', hc', hcD⟩ := reassess_some scan scrubDone htxg false c (h c List.mem_cons_self)
    obtain ⟨cs', hcs', hcsD, hlen⟩ := reassessChildren_some scan scrubDone htxg cs
      fun d hd => h d (List.mem_cons_of_mem _ hd)
    refine ⟨c' :: cs', by rw [reassessChildren_cons, hc', Option.bind_some, hcs']; rfl, ?_,
      by simp [hlen]⟩
    rintro d (_ | ⟨_, hd⟩)
    exacts [hcD, hcsD d hd]

end

/-- The reassessed tree is well formed again. -/
theorem reassess_wf (scan : ScrubState) {scrubTxg : Nat} (scrubDone : Bool)
    (htxg : scrubTxg < 2 ^ 64) {isRoot : Bool} {vd vd' : Vdev} (hwf : vd.Every NodeOk)
    (h : vdevDtlReassess scan scrubTxg scrubDone isRoot vd = some vd') : vd'.Every NodeOk := by
  intro p v' hv'
  obtain ⟨v, hv, hvv'⟩ := child?_of_reassess scan scrubTxg scrubDone h p v' hv'
  have hwfv := hwf.child? hv
  obtain ⟨cs, hcs, hcsD, hlen⟩ := reassessChildren_some scan scrubDone htxg v.vdevChild
    fun c hc => hwfv.child hc
  obtain ⟨dtl, hd, hD, -⟩ := reassess_node scan scrubDone htxg _ hwfv.node hcs hcsD hlen
  rw [hvv'] at hd
  cases hd
  exact ⟨hD, by simpa [hlen] using hwfv.node.children, hwfv.node.nparity⟩

/-- `vdev_dtl_reassess` of the pool's root: for every vdev of the tree, its
maps stay DTL maps; the root, holes and aux vdevs keep their maps; (a) and
(b) hold of every other leaf, and (c) of every other interior vdev whose
`minref` is positive, over its children as they are after. -/
theorem vdev_dtl_reassess_spec (scan : ScrubState) (scrubTxg : Nat) (scrubDone : Bool)
    (root : Vdev) (hwf : root.Every NodeOk) (htxg : scrubTxg < 2 ^ 64) :
    ∃ root', vdevDtlReassess scan scrubTxg scrubDone true root = some root' ∧
      ∀ p vd, root.child? p = some vd → ∃ vd', root'.child? p = some vd' ∧
        (∀ t, DtlMap (vd'.vdevDtl t)) ∧
        ((p = [] ∨ vd.vdevIshole = true ∨ vd.vdevAux = true) → vd'.vdevDtl = vd.vdevDtl) ∧
        (p ≠ [] → vd.vdevIshole = false → vd.vdevAux = false → vd.vdevOps.vdevOpLeaf = true →
          LeafSpec scan scrubTxg scrubDone vd vd'.vdevDtl) ∧
        (p ≠ [] → vd.vdevIshole = false → vd.vdevAux = false → vd.vdevOps.vdevOpLeaf = false →
          0 < dtlMinref vd .dtlMissing → InteriorSpec vd' vd'.vdevDtl) := by
  obtain ⟨root', hroot, -⟩ := reassess_some scan scrubDone htxg true root hwf
  refine ⟨root', hroot, fun p vd hvd => ?_⟩
  obtain ⟨vd', hvd', hre⟩ := reassess_child? scan scrubTxg scrubDone hroot p vd hvd
  have hwfv := hwf.child? hvd
  obtain ⟨cs, hcs, hcsD, hlen⟩ := reassessChildren_some scan scrubDone htxg vd.vdevChild
    fun c hc => hwfv.child hc
  obtain ⟨dtl, hd, hD, hskip, hleaf, hint⟩ := reassess_node scan scrubDone htxg _ hwfv.node hcs hcsD
    hlen
  rw [hre] at hd
  cases hd
  refine ⟨_, hvd', hD, ?_, fun hp hh ha hl => hleaf (by simp [hp, hh, ha]) hl,
    fun hp hh ha hl hpos => ?_⟩
  · rintro (rfl | h | h)
    · exact hskip (by simp)
    · exact hskip (by simp [h])
    · exact hskip (by simp [h])
  · have hi := hint (by simp [hp, hh, ha]) hl hpos
    exact ⟨hi.1, hi.2, hi.3⟩

/-! ## The outage of a tree and `vdev_dtl_required` -/

/-- Whether a leaf with maps `dtl` holds txg `x` in `DTL_MISSING` once a
finished scrub is folded in, as (a) has it. -/
def missingAfter (scan : ScrubState) (scrubTxg : Nat) (dtl : DtlType → SpaceMap) (x : Nat) : Bool :=
  if scrubFolds scan scrubTxg then
    decide (x ∈ segCover (dtl .dtlScrub).smRoot ∨
      (x ∈ segCover (dtl .dtlMissing).smRoot ∧ scrubTxg ≤ x))
  else decide (x ∈ segCover (dtl .dtlMissing).smRoot)

mutual

/-- Whether txg `x` is in the outage of `vd` as the DTL comment defines it
from the leaves: an unreadable leaf is out for every txg below `UINT64_MAX`,
a readable one for those of its `DTL_MISSING`; an interior vdev is out where
more than `nparity` children are for RAID-Z and all of them for the mirrors;
holes and aux vdevs keep the outage they have. -/
def Vdev.outage (scan : ScrubState) (scrubTxg x : Nat) : Vdev → Bool
  | ⟨ops, state, ishole, aux, cantRead, nparity, dtl, children⟩ =>
    if ishole || aux then decide (x ∈ segCover (dtl .dtlOutage).smRoot)
    else if ops.vdevOpLeaf then
      if vdevReadable ⟨ops, state, ishole, aux, cantRead, nparity, dtl, children⟩ then
        missingAfter scan scrubTxg dtl x
      else decide (x < 2 ^ 64 - 1)
    else if nparity ≠ 0 then decide (nparity + 1 ≤ (outageList scan scrubTxg x children).count true)
    else (outageList scan scrubTxg x children).all id

/-- `Vdev.outage` of each vdev of a list. -/
def outageList (scan : ScrubState) (scrubTxg x : Nat) : List Vdev → List Bool
  | [] => []
  | c :: cs => c.outage scan scrubTxg x :: outageList scan scrubTxg x cs

end

/-- An interior vdev that is reassessed has a positive `minref`: it is
RAID-Z or has a child. -/
def QuorumOk (vd : Vdev) : Prop :=
  vd.vdevIshole = false → vd.vdevAux = false → vd.vdevOps.vdevOpLeaf = false →
    vd.vdevNparity ≠ 0 ∨ vd.vdevChild ≠ []

theorem QuorumOk.minref_pos {vd : Vdev} (hq : QuorumOk vd) (hok : NodeOk vd)
    (hh : vd.vdevIshole = false) (ha : vd.vdevAux = false) (hl : vd.vdevOps.vdevOpLeaf = false) :
    0 < dtlMinref vd .dtlMissing := by
  rcases dtlMinref_pos_or_nil vd .dtlMissing hok.children hok.nparity with h | ⟨hp, hc⟩
  · exact h
  · exact absurd hc ((hq hh ha hl).resolve_left (by simp [hp]))

/-- The maps that decide `vd`'s outage. -/
theorem count_map_decide (cs : List Vdev) (x : Nat) :
    (cs.map fun c => decide (x ∈ segCover (c.vdevDtl .dtlOutage).smRoot)).count true =
      dtlCount cs .dtlOutage x := by
  simp [List.count_eq_countP, List.countP_map, Function.comp_def, dtlCount]

mutual

/-- After the reassessment of a vdev that is not the pool's root, its
`DTL_OUTAGE` is `Vdev.outage`. The induction is on the tree, the children
first, as the reassessment goes. -/
theorem outage_spec (scan : ScrubState) {scrubTxg : Nat} (scrubDone : Bool)
    (htxg : scrubTxg < 2 ^ 64) : ∀ vd : Vdev, vd.Every NodeOk → vd.Every QuorumOk →
      ∀ vd', vdevDtlReassess scan scrubTxg scrubDone false vd = some vd' →
        ∀ x, x ∈ segCover (vd'.vdevDtl .dtlOutage).smRoot ↔ vd.outage scan scrubTxg x = true
  | ⟨ops, state, ishole, aux, cantRead, nparity, dtl, children⟩, hwf, hq, vd', h, x => by
    obtain ⟨cs, hcs, hcsD, hlen⟩ := reassessChildren_some scan scrubDone htxg children
      fun c hc => hwf.child hc
    obtain ⟨dtl', hd, -, hskip, hleaf, hint⟩ := reassess_node scan scrubDone htxg false
      hwf.node hcs hcsD hlen
    rw [h] at hd
    cases hd
    have hlist := outageList_spec scan scrubDone htxg children
      (fun c hc => ⟨hwf.child hc, hq.child hc⟩) cs hcs x
    simp only [Vdev.outage]
    by_cases hs : (ishole || aux) = true
    · -- a hole or an aux vdev keeps its maps
      rw [if_pos hs, hskip (by simpa using hs), decide_eq_true_iff]
    rw [if_neg hs]
    have hs' : (false || ishole || aux) = false := by simpa using hs
    by_cases hl : ops.vdevOpLeaf = true
    · -- a leaf: (b), over (a)
      have hsp := hleaf hs' hl
      rw [if_pos hl, hsp.outage]
      split_ifs
      · rw [hsp.missing, missingAfter]
        split_ifs <;> simp
      · simp
    · -- an interior vdev: (c), over its children's outage
      have hl' : ops.vdevOpLeaf = false := by simpa using hl
      obtain ⟨hh, ha⟩ : ishole = false ∧ aux = false := by simpa using hs
      have hpos := QuorumOk.minref_pos hq.node hwf.node hh ha hl'
      rw [if_neg hl, (hint hs' hl' hpos).outage x, outageQuorum, hlist, count_map_decide]
      simp [List.all_map]

/-- `outageList` of the children is what their reassessed `DTL_OUTAGE`
maps hold. -/
theorem outageList_spec (scan : ScrubState) {scrubTxg : Nat} (scrubDone : Bool)
    (htxg : scrubTxg < 2 ^ 64) : ∀ cs : List Vdev,
      (∀ c ∈ cs, c.Every NodeOk ∧ c.Every QuorumOk) →
      ∀ cs', reassessChildren scan scrubTxg scrubDone cs = some cs' → ∀ x,
        outageList scan scrubTxg x cs =
          cs'.map fun c' => decide (x ∈ segCover (c'.vdevDtl .dtlOutage).smRoot)
  | [], _, cs', h, x => by
    simp only [reassessChildren, Option.some.injEq] at h
    simp [outageList, ← h]
  | c :: cs, hcs, cs', h, x => by
    rw [reassessChildren_cons] at h
    obtain ⟨c', hc', hrest⟩ := Option.bind_eq_some_iff.1 h
    obtain ⟨cs'', hcs'', rfl⟩ := Option.map_eq_some_iff.1 hrest
    have hhead := outage_spec scan scrubDone htxg c (hcs c List.mem_cons_self).1
      (hcs c List.mem_cons_self).2 c' hc' x
    rw [outageList, List.map_cons, outageList_spec scan scrubDone htxg cs
      (fun d hd => hcs d (List.mem_cons_of_mem _ hd)) cs'' hcs'' x]
    congr 1
    rw [Bool.eq_iff_iff, decide_eq_true_iff]
    exact hhead.symm

end

/-- Marking a vdev unreadable changes no other field of any vdev of the tree.
The induction is on the path looked up. -/
theorem child?_setCantRead (b : Bool) : ∀ (q p : List Nat) (vd v : Vdev),
    (vd.setCantRead b p).child? q = some v → ∃ w, vd.child? q = some w ∧
      v.vdevOps = w.vdevOps ∧ v.vdevIshole = w.vdevIshole ∧ v.vdevAux = w.vdevAux ∧
      v.vdevNparity = w.vdevNparity ∧ v.vdevDtl = w.vdevDtl ∧
      v.vdevChild.length = w.vdevChild.length
  | [], p, vd, v, h => by
    cases h
    cases p <;> exact ⟨vd, rfl, rfl, rfl, rfl, rfl, rfl, by simp [Vdev.setCantRead]⟩
  | j :: q, [], vd, v, h =>
    -- the flag of `vd` itself: its children are as they were
    ⟨v, by simpa [Vdev.setCantRead, Vdev.child?] using h, rfl, rfl, rfl, rfl, rfl, rfl⟩
  | j :: q, i :: p, vd, v, h => by
    simp only [Vdev.setCantRead, Vdev.child?] at h
    by_cases hij : i = j
    · subst hij
      rw [List.getElem?_modify_eq] at h
      obtain ⟨c', hc', hv⟩ := Option.bind_eq_some_iff.1 h
      obtain ⟨c, hc, rfl⟩ := Option.map_eq_some_iff.1 hc'
      obtain ⟨w, hw, hs⟩ := child?_setCantRead b q p c v hv
      exact ⟨w, by simp [Vdev.child?, hc, hw], hs⟩
    · rw [List.getElem?_modify_ne _ _ hij] at h
      exact ⟨v, by simpa [Vdev.child?] using h, rfl, rfl, rfl, rfl, rfl, rfl⟩

theorem Vdev.Every.setCantRead_nodeOk {vd : Vdev} (h : vd.Every NodeOk) (b : Bool) (p : List Nat) :
    (vd.setCantRead b p).Every NodeOk := by
  intro q v hv
  obtain ⟨w, hw, -, -, -, hpar, hdtl, hlen⟩ := child?_setCantRead b q p vd v hv
  have hok := h q w hw
  exact ⟨hdtl ▸ hok.dtl, hlen ▸ hok.children, hpar ▸ hok.nparity⟩

theorem Vdev.Every.setCantRead_quorumOk {vd : Vdev} (h : vd.Every QuorumOk) (b : Bool)
    (p : List Nat) : (vd.setCantRead b p).Every QuorumOk := by
  intro q v hv hh ha hl
  obtain ⟨w, hw, hops, hhole, haux, hpar, -, hlen⟩ := child?_setCantRead b q p vd v hv
  rcases h q w hw (hhole ▸ hh) (haux ▸ ha) (hops ▸ hl) with hp | hc
  · exact .inl (hpar ▸ hp)
  · exact .inr fun hnil => hc (List.eq_nil_of_length_eq_zero (by simp [← hlen, hnil]))

/-- `vdev_dtl_required` of a vdev below a top-level vdev `tvd`, without fault
injection: it is needed exactly when marking it unreadable leaves some txg in
the outage of `tvd`. -/
theorem vdevDtlRequired_iff (scan : ScrubState) {root tvd : Vdev} {i : Nat} {p : List Nat}
    (htvd : root.vdevChild[i]? = some tvd) (hwf : tvd.Every NodeOk) (hq : tvd.Every QuorumOk)
    (hvd : (tvd.child? p).isSome) (hp : p ≠ []) :
    ∃ b root', vdevDtlRequired scan none root (i :: p) = some (b, root') ∧
      (b = true ↔ ∃ x, (tvd.setCantRead true p).outage scan 0 x = true) := by
  obtain ⟨vd, hvd⟩ := Option.isSome_iff_exists.1 hvd
  have h0 : (0 : Nat) < 2 ^ 64 := by norm_num
  -- the reassessment with the vdev marked, and again with its flag back
  have hwf0 := hwf.setCantRead_nodeOk true p
  obtain ⟨tvd1, h1, hD1⟩ := reassess_some scan false h0 false _ hwf0
  obtain ⟨tvd2, h2, -⟩ := reassess_some scan false h0 false _
    ((reassess_wf scan false h0 hwf0 h1).setCantRead_nodeOk vd.vdevCantRead p)
  have hout := outage_spec scan false h0 _ hwf0 (hq.setCantRead_quorumOk true p) tvd1 h1
  refine ⟨!vdevDtlEmpty tvd1 .dtlOutage, { root with vdevChild := root.vdevChild.set i tvd2 }, ?_, ?_⟩
  · obtain ⟨j, p', rfl⟩ := List.exists_cons_of_ne_nil hp
    simp [vdevDtlRequired, htvd, hvd, h1, h2]
  · rw [Bool.not_eq_true', vdevDtlEmpty, beq_eq_false_iff_ne, ne_eq,
      smSpace_eq_zero_iff (hD1 .dtlOutage).valid, ← ne_eq, ← Set.nonempty_iff_ne_empty]
    exact ⟨fun ⟨x, hx⟩ => ⟨x, (hout x).1 hx⟩, fun ⟨x, hx⟩ => ⟨x, (hout x).2 hx⟩⟩

/-! ## The DTL semantics -/

end ZfsOsx.Dtl
