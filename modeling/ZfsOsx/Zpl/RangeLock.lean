import Mathlib

/-!
# Range locks (`module/zfs/zfs_rlock.c`)

The range locks of a znode sit in the AVL tree `z_range_avl`, ordered by
`r_off`. `zfs_range_lock` builds the `rl_t` of a request and clamps a length
whose end would pass `UINT64_MAX` so that it ends there. A writer
(`RL_WRITER`, or `RL_APPEND`, which becomes one) is then rewritten at the start
of every round of `zfs_range_lock_writer`: an append moves to `z_size`, and a
request that needs the block grown takes the whole file. The lock goes in when
neither the lock at its offset nor one of its two neighbours overlaps it.

Offsets and lengths are `UInt64`, as in the source, so every `off + len`
wraps as the C does. `NoWrap` says that a range's end, computed exactly, is at
most `UINT64_MAX`; then the C computes it exactly (`toNat_end`).

* `zfsRangeLockNew_noWrap`: the clamp makes the range of every request end by
  `UINT64_MAX`.
* `writerPlace_noWrap`, `writerPlace_append_noWrap`: a writer's placement
  keeps that, and so does the whole-file range; an append keeps it when
  `z_size + len` does not pass `UINT64_MAX`.
* `zfsRangeLockWriterRound_noWrap`: a writer round inserts a lock that ends by
  `UINT64_MAX`, and the ends its overlap tests compute are exact, on a tree of
  locks that end by `UINT64_MAX`, unless the request is an append.
* `zfs_range_lock_append_wraps`: an `RL_APPEND` request of length
  `UINT64_MAX` on a file of one byte is inserted as `[1, 1 + UINT64_MAX)`, and
  both its end and `end_size` wrap.
-/
namespace ZfsOsx.Zpl

/-- `UINT64_MAX`. -/
def uint64Max : UInt64 := 18446744073709551615

/-- `rl_type_t`. -/
inductive RlType
  | reader
  | writer
  | append
  deriving DecidableEq, Repr

/-- The fields of an `rl_t` that the writer path reads and writes. -/
structure RlT where
  rOff : UInt64
  rLen : UInt64
  rType : RlType
  deriving DecidableEq, Repr

/-- The fields of a znode that `zfs_range_lock_writer` reads; `zMaxBlksz` is
`z_zfsvfs->z_max_blksz`. -/
structure Znode where
  zSize : UInt64
  zBlksz : UInt64
  zMaxBlksz : UInt64
  zIsZvol : Bool
  deriving DecidableEq, Repr

/-- The `rl_t` that `zfs_range_lock` builds for a request; `none` is its panic
on a zero length.
mirrors module/zfs/zfs_rlock.c:422-440 -/
def zfsRangeLockNew (off len : UInt64) (type : RlType) : Option RlT :=
  if len = 0 then none
  else some ⟨off, if len + off < off then uint64Max - off else len, type⟩

/-- `ISP2(x)`. -/
def isP2 (x : UInt64) : Bool := x &&& (x - 1) == 0

/-- The head of a round of `zfs_range_lock_writer`, from the request as it
came in: an append moves to the end of the file, and a write past the block
size, when the block may still grow, locks the whole file.
mirrors module/zfs/zfs_rlock.c:117-145 -/
def writerPlace (zp : Znode) (new : RlT) : RlT :=
  if zp.zIsZvol then new
  else
    let new := if new.rType = .append then { new with rOff := zp.zSize } else new
    let endSize := max zp.zSize (new.rOff + new.rLen)
    if endSize > zp.zBlksz ∧ (!isP2 zp.zBlksz || zp.zBlksz < zp.zMaxBlksz) then
      { new with rOff := 0, rLen := uint64Max }
    else new

/-- How a round of `zfs_range_lock_writer` ends: the lock goes into the tree,
or the writer waits on the lock `rl` it overlaps. -/
inductive WriterRound
  | insert (new : RlT)
  | wait (rl : RlT)
  deriving DecidableEq, Repr

/-- One round of `zfs_range_lock_writer` against the tree, given as its locks
in order of `r_off`: `avl_find` looks for a lock at the same offset, and
`avl_nearest` gives the first lock after it and the last one before it.
mirrors module/zfs/zfs_rlock.c:117-176 -/
def zfsRangeLockWriterRound (zp : Znode) (tree : List RlT) (new : RlT) : WriterRound :=
  let new := writerPlace zp new
  if tree.length = 0 then .insert { new with rType := .writer }
  else
    match tree.find? (fun rl => rl.rOff = new.rOff) with
    | some rl => .wait rl
    | none =>
      match (tree.find? fun rl => new.rOff < rl.rOff).filter
          (fun rl => rl.rOff < new.rOff + new.rLen) with
      | some rl => .wait rl
      | none =>
        match ((tree.filter fun rl => rl.rOff < new.rOff).getLast?).filter
            (fun rl => rl.rOff + rl.rLen > new.rOff) with
        | some rl => .wait rl
        | none => .insert { new with rType := .writer }

/-! ## Ends that do not wrap -/

/-- The range's exact end is at most `UINT64_MAX`. -/
@[grind] def NoWrap (rl : RlT) : Prop := rl.rOff.toNat + rl.rLen.toNat ≤ uint64Max.toNat

theorem uint64Max_toNat : uint64Max.toNat = 2 ^ 64 - 1 := rfl

/-- A range that does not wrap has its end computed exactly. -/
theorem NoWrap.toNat_end {rl : RlT} (h : NoWrap rl) :
    (rl.rOff + rl.rLen).toNat = rl.rOff.toNat + rl.rLen.toNat := by
  rw [NoWrap, uint64Max_toNat] at h
  rw [UInt64.toNat_add]
  exact Nat.mod_eq_of_lt (by omega)

/-- The clamp of `zfs_range_lock`: a request whose end wraps is cut to end at
`UINT64_MAX`. -/
theorem zfsRangeLockNew_noWrap {off len : UInt64} {type : RlType} {new : RlT}
    (h : zfsRangeLockNew off len type = some new) : NoWrap new ∧ new.rType = type := by
  unfold zfsRangeLockNew at h
  split at h
  · cases h
  cases h
  refine ⟨?_, rfl⟩
  have hoff := UInt64.toNat_lt off
  have hlen := UInt64.toNat_lt len
  simp only [NoWrap, uint64Max_toNat]
  split
  · next hw =>
    -- the sum wrapped: the length becomes `UINT64_MAX - off`
    have hle : off ≤ uint64Max := UInt64.le_iff_toNat_le.2 (by rw [uint64Max_toNat]; omega)
    rw [UInt64.toNat_sub_of_le _ _ hle, uint64Max_toNat]
    omega
  · next hw =>
    rw [UInt64.lt_iff_toNat_lt, UInt64.toNat_add] at hw
    by_contra hc
    rw [Nat.mod_eq_sub_mod (by omega), Nat.mod_eq_of_lt (by omega)] at hw
    omega

/-- The whole-file range of a growing block ends at `UINT64_MAX`. -/
theorem noWrap_whole (new : RlT) : NoWrap { new with rOff := 0, rLen := uint64Max } := by
  simp [NoWrap]

/-- A reader or writer request keeps its range, or takes the whole file. -/
theorem writerPlace_noWrap (zp : Znode) {new : RlT} (h : NoWrap new)
    (hne : new.rType ≠ .append) : NoWrap (writerPlace zp new) := by
  unfold writerPlace
  split
  · exact h
  dsimp only
  split
  · exact noWrap_whole _
  · exact h

/-- An append is placed at `z_size` with the request's length, which does not
wrap as long as `z_size + len` does not. -/
theorem writerPlace_append_noWrap (zp : Znode) {new : RlT} (h : NoWrap new)
    (happ : new.rType = .append)
    (hsize : zp.zSize.toNat + new.rLen.toNat ≤ uint64Max.toNat) :
    NoWrap (writerPlace zp new) := by
  unfold writerPlace
  split
  · exact h
  dsimp only
  split
  · exact noWrap_whole _
  · exact hsize

/-- The lock a writer round inserts is the placed request. -/
theorem zfsRangeLockWriterRound_insert {zp : Znode} {tree : List RlT} {new r : RlT}
    (h : zfsRangeLockWriterRound zp tree new = .insert r) :
    r = { writerPlace zp new with rType := .writer } := by
  unfold zfsRangeLockWriterRound at h
  dsimp only at h
  split at h
  · cases h
    rfl
  split at h
  · cases h
  split at h
  · cases h
  split at h
  · cases h
  · cases h
    rfl

/-- On a tree whose locks all end by `UINT64_MAX`, a round for a request that
ends by `UINT64_MAX` and is no append inserts a lock that ends by
`UINT64_MAX`, and every end it compares is computed exactly: the request's,
and that of each lock in the tree. -/
theorem zfsRangeLockWriterRound_noWrap (zp : Znode) {tree : List RlT} {new : RlT}
    (htree : ∀ rl ∈ tree, NoWrap rl) (h : NoWrap new) (hne : new.rType ≠ .append) :
    (∀ r, zfsRangeLockWriterRound zp tree new = .insert r → NoWrap r) ∧
      (writerPlace zp new).rOff.toNat + (writerPlace zp new).rLen.toNat ≤ uint64Max.toNat ∧
      ∀ rl ∈ tree, (rl.rOff + rl.rLen).toNat = rl.rOff.toNat + rl.rLen.toNat := by
  have hplace := writerPlace_noWrap zp h hne
  refine ⟨fun r hr => ?_, hplace, fun rl hrl => (htree rl hrl).toNat_end⟩
  rw [zfsRangeLockWriterRound_insert hr]
  exact hplace

/-- An `RL_APPEND` request for `UINT64_MAX` bytes from offset 0, which the
clamp keeps, on a file of one byte with 512-byte blocks. The append moves it
to offset 1; `end_size` wraps to `MAX(1, 0) = 1`, so the block does not grow,
and the lock `[1, 1 + UINT64_MAX)` goes into the empty tree with an end that
wraps to 0. -/
theorem zfs_range_lock_append_wraps :
    zfsRangeLockNew 0 uint64Max .append = some ⟨0, uint64Max, .append⟩ ∧
      zfsRangeLockWriterRound ⟨1, 512, 131072, false⟩ [] ⟨0, uint64Max, .append⟩ =
        .insert ⟨1, uint64Max, .writer⟩ ∧
      ¬NoWrap ⟨1, uint64Max, .writer⟩ ∧ (1 : UInt64) + uint64Max = 0 := by
  refine ⟨by decide, by decide, ?_, by decide⟩
  simp [NoWrap, uint64Max_toNat]

end ZfsOsx.Zpl
