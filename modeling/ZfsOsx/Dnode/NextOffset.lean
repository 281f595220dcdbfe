import Mathlib
/-!
# Hole and data search in a dnode (`dnode.c`)

`dnode_next_offset` finds the next (or previous) hole or data at or after
(before) an offset of an object. It works on the object's block tree:
`dnode_next_offset_level` scans one block of block pointers for one whose
`blk_fill` says that the range below it holds what is searched. The search
climbs from `minlvl` until a level finds something, then descends again to
`minlvl`, narrowing the offset at every level.

The tree is given by `Dnode.tree l j`, the block pointer to the level-`l`
block `j`. At the top, `l = dn_nlevels - 1`, it is the dnode's own
`dn_blkptr[j]`; below, it is pointer `j mod epb` of the level-`l+1` block
`j / epb`. `dbuf_hold_impl` with `fail_sparse` holds a block when no pointer
from the dnode down to it is a hole and it does not lie past `dn_maxblkid`.

Offsets are `uint64_t`: the model keeps them in `ℕ` and reduces modulo
`2 ^ 64` where the code can wrap. A shift by 64 or more bits is undefined in
C; the model computes it on `ℕ`, and the results say where the search
evaluates one.
-/
namespace ZfsOsx.Dnode

/-- `ESRCH`. -/
def esrch : ℕ := 3
/-- `DNODE_FIND_HOLE`. -/
def dnodeFindHole : ℕ := 1
/-- `DNODE_FIND_BACKWARDS`. -/
def dnodeFindBackwards : ℕ := 2
/-- `SPA_BLKPTRSHIFT`: a block pointer is 128 bytes. -/
def spaBlkptrshift : ℕ := 7
/-- `DNODE_SHIFT`: a dnode is 512 bytes. -/
def dnodeShift : ℕ := 9

/-- A block pointer as the search reads it. -/
structure BlkPtr where
  fill : ℕ
  birth : ℕ
  deriving DecidableEq, Repr

/-- `BP_IS_HOLE(bp)`. -/
@[grind] def BlkPtr.isHole (bp : BlkPtr) : Bool := bp.birth == 0

/-- The fields of a dnode the search reads, and its block tree. `slotFree j i`
says whether dnode `i` of the level-0 block `j` of a meta-dnode is free
(`dn_type == DMU_OT_NONE`). -/
structure DnodeTree where
  nlevels : ℕ
  nblkptr : ℕ
  indblkshift : ℕ
  datablkshift : ℕ
  datablksz : ℕ
  maxblkid : ℕ
  tree : ℕ → ℕ → BlkPtr
  slotFree : ℕ → ℕ → Bool

/-- `epbs`: block pointers per indirect block, as a shift. -/
def DnodeTree.epbs (dn : DnodeTree) : ℕ := dn.indblkshift - spaBlkptrshift

/-- `dbuf_whichblock(dn, offset)`.
mirrors module/zfs/dbuf.c:518-526 -/
@[grind] def dbufWhichblock (dn : DnodeTree) (offset : ℕ) : ℕ :=
  if dn.datablkshift ≠ 0 then offset >>> dn.datablkshift else 0

/-- `dbuf_findbp` and `dbuf_hold_impl` with `fail_sparse`: `none` is
`ENOENT`, `some bp` the held block's `db_blkptr`. `up` counts the levels
between the block and the dnode, `dn_nlevels - 1 - level`: the walk holds the
parent first.
mirrors module/zfs/dbuf.c:1646-1710 -/
def dbufHoldUp (dn : DnodeTree) : ℕ → ℕ → ℕ → Option BlkPtr
  | up, level, blkid =>
    if dn.nlevels ≤ level ∨ dn.maxblkid >>> (level * dn.epbs) < blkid then none
    else
      let parent := match up with
        | 0 => some ()
        | up + 1 => (dbufHoldUp dn up (level + 1) (blkid >>> dn.epbs)).map fun _ => ()
      match parent with
      | none => none
      | some () =>
        let bp := dn.tree level blkid
        if bp.isHole then none else some bp

/-- `dbuf_hold_impl(dn, level, blkid, TRUE, ...)`.
mirrors module/zfs/dbuf.c:1934-1957 -/
def dbufHold (dn : DnodeTree) (level blkid : ℕ) : Option BlkPtr :=
  dbufHoldUp dn (dn.nlevels - 1 - level) level blkid

/-- The slot loop of `dnode_next_offset_level`: from slot `i`, step by `inc`
until a slot is a hit or `i` leaves `[0, epb)`; each miss moves the offset by
`move`. The result is the last `i` and the offset. `fuel` bounds the slots
tried.
mirrors module/zfs/dnode.c:1889-1896, 1907-1915 -/
def scanSlots (hit : ℕ → Bool) (inc : ℤ) (epb : ℕ) (move : ℕ → ℕ) : ℕ → ℤ → ℕ → ℤ × ℕ
  | 0, i, off => (i, off)
  | fuel + 1, i, off =>
    if 0 ≤ i ∧ i < epb then
      if hit i.toNat then (i, off)
      else scanSlots hit inc epb move fuel (i + inc) (move off)
    else (i, off)

/-- The span of a level-`lvl` scan: the shift from a byte offset to the
index of a level-`lvl - 1` block pointer. -/
def DnodeTree.span (dn : DnodeTree) (lvl : ℕ) : ℕ := (lvl - 1) * dn.epbs + dn.datablkshift

/-- `dnode_next_offset_level(dn, flags, &offset, lvl, blkfill, txg)`: the
error and the new offset.
mirrors module/zfs/dnode.c:1825-1931 -/
def dnodeNextOffsetLevel (dn : DnodeTree) (flags offset lvl blkfill txg : ℕ) : ℕ × ℕ :=
  let epbs := dn.epbs
  let hole : Bool := flags &&& dnodeFindHole != 0
  let inc : ℤ := if flags &&& dnodeFindBackwards ≠ 0 then -1 else 1
  let blkid := dbufWhichblock dn offset >>> (epbs * lvl)
  -- the held block's pointer; none at the top, where the dnode's pointers are scanned
  let held : Option (Option BlkPtr) :=
    if lvl = dn.nlevels then some none else (dbufHold dn lvl blkid).map some
  match held with
  | none => (if hole then 0 else esrch, offset)
  | some db =>
    -- with a txg, a block born no later than it sends the search further up
    let stale : Bool := match db with
      | some bp => txg != 0 && decide (bp.birth ≤ txg)
      | none => false
    if stale then (esrch, offset)
    else if lvl = 0 then
      let span := dnodeShift
      let hit (i : ℕ) : Bool := dn.slotFree blkid i == hole
      let move (off : ℕ) : ℕ := (off + (if inc = 1 then 2 ^ span else 2 ^ 64 - 2 ^ span)) % 2 ^ 64
      let (i, off) := scanSlots hit inc blkfill move (blkfill + 1)
        ((offset >>> span) &&& (blkfill - 1) : ℕ) offset
      (if i < 0 ∨ i = blkfill then esrch else 0, off)
    else
      let start := offset
      let span := dn.span lvl
      let maxfill := (blkfill <<< ((lvl - 1) * epbs)) % 2 ^ 64
      let minfill := if hole then 0 else 1
      let maxfill := if hole then (maxfill + 2 ^ 64 - 1) % 2 ^ 64 else maxfill
      let top := lvl = dn.nlevels
      let epb := if top then dn.nblkptr else 2 ^ epbs
      let bp (i : ℕ) : BlkPtr := if top then dn.tree (lvl - 1) i else dn.tree (lvl - 1) (blkid * 2 ^ epbs + i)
      let hit (i : ℕ) : Bool :=
        decide (minfill ≤ (bp i).fill) && decide ((bp i).fill ≤ maxfill) &&
          (hole || decide (txg < (bp i).birth))
      let move (off : ℕ) : ℕ := if inc > 0 ∨ off > 0 then (off + inc).toNat else off
      let off := offset >>> span
      let (i, off) := scanSlots hit inc epb move (epb + 1) (off &&& (2 ^ epbs - 1) : ℕ) off
      let off := (off <<< span) % 2 ^ 64
      let off :=
        if inc < 0 then min ((off + 2 ^ span - 1) % 2 ^ 64) start
        else if off < start then start else off
      (if i < 0 ∨ epb ≤ i then esrch else 0, off)

/-- The first loop of `dnode_next_offset`: from `lvl` up to `dn_nlevels`,
while the level search returns `ESRCH`. The result is the error, the offset
and the level the loop stopped at.
mirrors module/zfs/dnode.c:1985-1990 -/
def climb (dn : DnodeTree) (flags blkfill txg : ℕ) : ℕ → ℕ → ℕ → ℕ → ℕ × ℕ × ℕ
  | 0, lvl, offset, error => (error, offset, lvl)
  | fuel + 1, lvl, offset, error =>
    if lvl ≤ dn.nlevels then
      let (e, off) := dnodeNextOffsetLevel dn flags offset lvl blkfill txg
      if e ≠ esrch then (e, off, lvl) else climb dn flags blkfill txg fuel (lvl + 1) off e
    else (error, offset, lvl)

/-- The second loop of `dnode_next_offset`: down from the level above `lvl`
to `minlvl`, while the level search succeeds.
mirrors module/zfs/dnode.c:1992-1995 -/
@[grind] def descend (dn : DnodeTree) (flags blkfill txg minlvl : ℕ) : ℕ → ℕ → ℕ → ℕ × ℕ
  | 0, offset, error => (error, offset)
  | lvl + 1, offset, error =>
    if error = 0 ∧ minlvl ≤ lvl then
      let (e, off) := dnodeNextOffsetLevel dn flags offset lvl blkfill txg
      descend dn flags blkfill txg minlvl lvl off e
    else (error, offset)

/-- `dnode_next_offset(dn, flags, &offset, minlvl, blkfill, txg)`: the error
and the new offset.
mirrors module/zfs/dnode.c:1956-2004 -/
def dnodeNextOffset (dn : DnodeTree) (flags offset minlvl blkfill txg : ℕ) : ℕ × ℕ :=
  if dn.nlevels = 0 then (esrch, offset)
  else if dn.datablkshift = 0 then
    if offset < dn.datablksz then
      (0, if flags &&& dnodeFindHole ≠ 0 then dn.datablksz else offset)
    else (esrch, offset)
  else
    let (error, off, lvl) := climb dn flags blkfill txg (dn.nlevels + 2) minlvl offset 0
    let (error, off) := descend dn flags blkfill txg minlvl lvl off error
    if error = 0 ∧ (if flags &&& dnodeFindBackwards ≠ 0 then offset < off else off < offset)
    then (esrch, off) else (error, off)

/-! ## The well-formed trees the search is meant for -/

/-- The number of level-0 blocks the tree addresses:
`dn_nblkptr << (epbs * (dn_nlevels - 1))`. -/
def DnodeTree.reach (dn : DnodeTree) : ℕ := dn.nblkptr <<< (dn.epbs * (dn.nlevels - 1))

/-- A block tree as ZFS keeps it: at least one level, a data block shift, and
fills that count: a present indirect pointer's fill is the sum of the fills
of the block it points to, and a level-0 pointer has fill 1 exactly when it
is present. -/
structure WellFormed (dn : DnodeTree) : Prop where
  nlevels_pos : 1 ≤ dn.nlevels
  datablkshift_ne : dn.datablkshift ≠ 0
  fill_sum : ∀ l j, 1 ≤ l → l < dn.nlevels → (dn.tree l j).isHole = false →
    (dn.tree l j).fill = ∑ k ∈ Finset.range (2 ^ dn.epbs), (dn.tree (l - 1) (j * 2 ^ dn.epbs + k)).fill
  fill_leaf : ∀ j, (dn.tree 0 j).fill = 1 ↔ (dn.tree 0 j).isHole = false

/-! ## Offsets past the tree -/

/-- An object of one level and one block pointer, to one 512-byte data block:
the tree addresses block 0 only. -/
def oneBlock : DnodeTree where
  nlevels := 1
  nblkptr := 1
  indblkshift := 14
  datablkshift := 9
  datablksz := 512
  maxblkid := 0
  tree l j := if l = 0 ∧ j = 0 then ⟨1, 1⟩ else ⟨0, 0⟩
  slotFree _ _ := true

theorem oneBlock_wellFormed : WellFormed oneBlock where
  nlevels_pos := le_refl 1
  datablkshift_ne := by decide
  fill_sum _ _ h1 h2 := absurd (lt_of_le_of_lt h1 h2) (lt_irrefl 1)
  fill_leaf j := by
    simp only [oneBlock, BlkPtr.isHole]
    by_cases hj : j = 0 <;> simp [hj]

/-- From block 128 of the one-block object, past everything the tree
addresses, a data search reports data at the starting offset: at the top the
slot index is the shifted offset's low `epbs` bits, `128 mod 128 = 0`, and
slot 0 holds data. -/
theorem dnode_next_offset_past_reach :
    oneBlock.reach = 1 ∧ 128 * oneBlock.datablksz = 65536 ∧
      dnodeNextOffset oneBlock 0 65536 1 1 0 = (0, 65536) := by
  decide

/-- Ten levels of holes, with 16K indirect blocks and 512-byte data blocks. -/
def tallHoles : DnodeTree where
  nlevels := 10
  nblkptr := 1
  indblkshift := 14
  datablkshift := 9
  datablksz := 512
  maxblkid := 0
  tree _ _ := ⟨0, 0⟩
  slotFree _ _ := true

theorem tallHoles_wellFormed : WellFormed tallHoles where
  nlevels_pos := by decide
  datablkshift_ne := by decide
  fill_sum _ _ _ _ hh := absurd hh (by simp [tallHoles, BlkPtr.isHole])
  fill_leaf _ := by simp [tallHoles, BlkPtr.isHole]

/-- A data search in the empty ten-level tree climbs through every level, and
the scan at the top shifts the offset by 72 bits. -/
theorem dnode_next_offset_tall_span :
    (climb tallHoles 0 1 0 (tallHoles.nlevels + 2) 1 0 0).2.2 = tallHoles.nlevels + 1 ∧
      tallHoles.span tallHoles.nlevels = 72 := by
  decide

/-- Three levels of two pointers each over 2-byte blocks, with data in
block 3 only, the last block the tree addresses. -/
def lastBlockData : DnodeTree where
  nlevels := 3
  nblkptr := 1
  indblkshift := 8
  datablkshift := 1
  datablksz := 2
  maxblkid := 3
  tree l j := if (l, j) = (0, 3) ∨ (l, j) = (1, 1) ∨ (l, j) = (2, 0) then ⟨1, 1⟩ else ⟨0, 0⟩
  slotFree _ _ := true

theorem lastBlockData_wellFormed : WellFormed lastBlockData where
  nlevels_pos := by decide
  datablkshift_ne := by decide
  fill_sum l j h1 h2 hh := by
    have hl : l = 1 ∨ l = 2 := by
      change l < 3 at h2
      omega
    -- the two present indirect pointers, (1, 1) and (2, 0)
    rcases hl with rfl | rfl
    · have hj : j = 1 := by
        by_contra hj
        simp [lastBlockData, BlkPtr.isHole, hj] at hh
      subst hj
      decide
    · have hj : j = 0 := by
        by_contra hj
        simp [lastBlockData, BlkPtr.isHole, hj] at hh
      subst hj
      decide
  fill_leaf j := by
    simp only [lastBlockData, BlkPtr.isHole]
    by_cases hj : j = 3 <;> simp [hj]

/-- From block 3, every block the tree addresses is data, yet a hole search
succeeds, at the first offset past the tree: the level-2 block that would
hold block 4 lies past `dn_maxblkid`, and the hold's `ENOENT` reads as a
hole. -/
theorem dnode_next_offset_hole_at_end :
    lastBlockData.reach = 4 ∧ dnodeNextOffset lastBlockData dnodeFindHole 6 1 1 0 = (0, 8) := by
  decide

end ZfsOsx.Dnode
