import ZfsOsx.Dnode.NextOffset
import ZfsOsx.Lib.Ordered
/-!
# Pending frees of a dnode (`dnode.c`)

`dnode_free_range(dn, off, len, tx)` frees the bytes `[off, off + len)` of an
object in open context. It zeroes the partial blocks at the two ends of the
range in place, and records the whole blocks in between as a `free_range_t`
in the tree `dn_ranges[txg & TXG_MASK]`, which syncing context frees later.
`len = -1ULL` truncates: every block from the first whole one on is freed and
`dn_maxblkid` drops below it. Before the new range is inserted,
`dnode_clear_range` trims, splits or removes every recorded range that
overlaps it, scanning from the range at or nearest before its first block.
`dnode_block_freed` asks whether a block is pending free in any txg.

The tree is kept as its in-order list: `free_range_compar` orders by
`fr_blkid` alone, `avl_find` is the range with that first block, and
`avl_nearest` before and after are the neighbours of the position where it
would go (`Avl.Neighbours` proves these of the tree code).

Offsets and lengths are `uint64_t`; the model keeps them in `ℕ` and reduces
modulo `2 ^ 64` where the code can wrap.

Results:
* `dnodeClearRange_spec`, `rangeInsert_spec`: on a tree of nonempty ranges
  ordered by `fr_blkid`, each ending before the next starts
  (`RangeInv`), clearing removes exactly the blocks of the new range and
  inserting adds them back as one range.
* `freeRun_spec`: over every sequence of calls in one txg, whatever their
  arguments, the tree keeps `RangeInv` and holds exactly the blocks the
  calls recorded.
* `dnodeFreePlan_range_bound`: every range a call records is nonempty and
  ends inside `uint64_t`, so `blkid + nblks` does not wrap.
* `dnodeFreePlan_p2_range`, `dnodeFreePlan_nonP2`, `dnodeFreePlan_zeroed`:
  when `off + len` does not pass `2 ^ 64` (or the call truncates), a call
  records exactly the blocks wholly inside what it frees (`WholeIn`), if one
  of them is at most `dn_maxblkid`, and zeroes only bytes of the range outside
  them.
* `dnode_free_range_tail_wrap`: when `off + len` passes `2 ^ 64`, the tail
  zeroing wraps and clears the start of block 0.
* `dnodeBlockFreed_iff`: for an ordinary block, `dnode_block_freed` is
  true exactly when `dn_free_txg` is set or some txg's tree holds the block.
-/
namespace ZfsOsx.Dnode

/-- `2 ^ 64`: block numbers, offsets and lengths are `uint64_t`. -/
def u64 : ℕ := 2 ^ 64

/-! ## The range tree -/

/-- `free_range_t`: the blocks `[fr_blkid, fr_blkid + fr_nblks)`. -/
structure FreeRange where
  blkid : ℕ
  nblks : ℕ
  deriving DecidableEq, Repr

/-- `fr_blkid + fr_nblks`, the first block after the range. -/
@[grind] def FreeRange.endblk (r : FreeRange) : ℕ := r.blkid + r.nblks

/-- The blocks of the ranges of a tree. -/
def rangeBlocks (rs : List FreeRange) : Set ℕ := {b | ∃ r ∈ rs, r.blkid ≤ b ∧ b < r.endblk}

instance (rs : List FreeRange) : DecidablePred (· ∈ rangeBlocks rs) := fun b =>
  inferInstanceAs (Decidable (∃ r ∈ rs, r.blkid ≤ b ∧ b < r.endblk))

/-- One round of the loop of `dnode_clear_range` on the range `rp` it reaches:
the ranges that stand in the tree where `rp` stood.
mirrors module/zfs/dnode.c:1486-1510 -/
def clearOne (blkid endblk : ℕ) (rp : FreeRange) : List FreeRange :=
  let frEndblk := rp.endblk
  if blkid ≤ rp.blkid ∧ frEndblk ≤ endblk then
    -- clear this entire range
    []
  else if blkid ≤ rp.blkid ∧ rp.blkid < endblk ∧ endblk < frEndblk then
    -- clear the beginning of this range
    [⟨endblk, frEndblk - endblk⟩]
  else if rp.blkid < blkid ∧ blkid < frEndblk ∧ frEndblk ≤ endblk then
    -- clear the end of this range
    [⟨rp.blkid, blkid - rp.blkid⟩]
  else if rp.blkid < blkid ∧ endblk < frEndblk then
    -- clear a chunk out of this range: `avl_insert_here` puts the new
    -- range after `rp`, and the scan goes on from `rp`'s old successor
    [⟨rp.blkid, blkid - rp.blkid⟩, ⟨endblk, frEndblk - endblk⟩]
  else [rp]

/-- The loop of `dnode_clear_range`, from the range it starts at, while a
range starts at or before `endblk`.
mirrors module/zfs/dnode.c:1484-1512 -/
def clearLoop (blkid endblk : ℕ) : List FreeRange → List FreeRange
  | [] => []
  | rp :: rest =>
    if rp.blkid ≤ endblk then clearOne blkid endblk rp ++ clearLoop blkid endblk rest
    else rp :: rest

/-- Where the scan of `dnode_clear_range` starts, as an index of the in-order
list: the range `avl_find` finds at `blkid`, else `avl_nearest` before, else
after. The ranges starting below `blkid` are the first `k`: the found range
is at `k`, the nearest before at `k - 1`, and with none before, the nearest
after at `0`.
mirrors module/zfs/dnode.c:1477-1482 -/
def clearStart (tree : List FreeRange) (blkid : ℕ) : ℕ :=
  let k := (tree.takeWhile fun r => r.blkid < blkid).length
  if (tree.drop k).head?.map FreeRange.blkid = some blkid then k else k - 1

/-- `dnode_clear_range(dn, blkid, nblks, tx)` on the tree of `tx`'s txg.
mirrors module/zfs/dnode.c:1463-1514 -/
def dnodeClearRange (tree : List FreeRange) (blkid nblks : ℕ) : List FreeRange :=
  let start := clearStart tree blkid
  tree.take start ++ clearLoop blkid (blkid + nblks) (tree.drop start)

/-- `avl_find` then `avl_insert` of a new range: it goes after the ranges that
start below it.
mirrors module/zfs/dnode.c:1666-1678 -/
def rangeInsert (tree : List FreeRange) (rp : FreeRange) : List FreeRange :=
  tree.takeWhile (fun r => r.blkid < rp.blkid) ++ rp :: tree.dropWhile (fun r => r.blkid < rp.blkid)

/-! ### Clearing and inserting keep the tree ordered -/

/-- `a` ends at or before `b` starts: the tree's order, with its ranges
disjoint. -/
def FreeRange.Before (a b : FreeRange) : Prop := a.endblk ≤ b.blkid

/-- `a` lies inside `b`. -/
def FreeRange.Within (a b : FreeRange) : Prop := b.blkid ≤ a.blkid ∧ a.endblk ≤ b.endblk

/-- A tree as `dnode_free_range` keeps it: nonempty ranges, each ending at or
before the next starts, with `fr_blkid + fr_nblks` inside `uint64_t`. -/
structure RangeInv (rs : List FreeRange) : Prop where
  pos : ∀ r ∈ rs, 0 < r.nblks
  sorted : rs.Pairwise FreeRange.Before
  no_wrap : ∀ r ∈ rs, r.endblk < u64

@[simp] theorem mem_rangeBlocks {rs : List FreeRange} {b : ℕ} :
    b ∈ rangeBlocks rs ↔ ∃ r ∈ rs, r.blkid ≤ b ∧ b < r.endblk := Iff.rfl

theorem mem_rangeBlocks_append {A B : List FreeRange} {b : ℕ} :
    b ∈ rangeBlocks (A ++ B) ↔ b ∈ rangeBlocks A ∨ b ∈ rangeBlocks B := by
  simp only [mem_rangeBlocks, List.mem_append, or_and_right, exists_or]

theorem mem_rangeBlocks_cons {r : FreeRange} {rs : List FreeRange} {b : ℕ} :
    b ∈ rangeBlocks (r :: rs) ↔ (r.blkid ≤ b ∧ b < r.endblk) ∨ b ∈ rangeBlocks rs := by
  simp only [mem_rangeBlocks, List.exists_mem_cons_iff]

theorem FreeRange.Before.within {a b a' b' : FreeRange} (h : a.Before b)
    (ha : a'.Within a) (hb : b'.Within b) : a'.Before b' := by
  unfold FreeRange.Before FreeRange.Within at *
  omega

theorem FreeRange.within_refl (a : FreeRange) : a.Within a := ⟨le_rfl, le_rfl⟩

theorem rangeInv_nil : RangeInv [] := ⟨by simp, .nil, by simp⟩

theorem rangeInv_append {A B : List FreeRange} :
    RangeInv (A ++ B) ↔ RangeInv A ∧ RangeInv B ∧ ∀ a ∈ A, ∀ b ∈ B, a.Before b := by
  constructor
  · rintro ⟨hpos, hsorted, hwrap⟩
    obtain ⟨hA, hB, hAB⟩ := List.pairwise_append.1 hsorted
    refine ⟨⟨fun r hr => hpos r (List.mem_append_left _ hr), hA,
        fun r hr => hwrap r (List.mem_append_left _ hr)⟩,
      ⟨fun r hr => hpos r (List.mem_append_right _ hr), hB,
        fun r hr => hwrap r (List.mem_append_right _ hr)⟩, hAB⟩
  · rintro ⟨hA, hB, hAB⟩
    refine ⟨?_, List.pairwise_append.2 ⟨hA.sorted, hB.sorted, hAB⟩, ?_⟩
    · intro r hr
      rcases List.mem_append.1 hr with hr | hr
      exacts [hA.pos r hr, hB.pos r hr]
    · intro r hr
      rcases List.mem_append.1 hr with hr | hr
      exacts [hA.no_wrap r hr, hB.no_wrap r hr]

theorem rangeInv_singleton {r : FreeRange} : RangeInv [r] ↔ 0 < r.nblks ∧ r.endblk < u64 := by
  constructor
  · intro h
    exact ⟨h.pos r List.mem_cons_self, h.no_wrap r List.mem_cons_self⟩
  · rintro ⟨hpos, hwrap⟩
    exact ⟨by simpa using hpos, List.pairwise_singleton _ _, by simpa using hwrap⟩

theorem rangeInv_cons {r : FreeRange} {rs : List FreeRange} :
    RangeInv (r :: rs) ↔ (0 < r.nblks ∧ r.endblk < u64) ∧ RangeInv rs ∧ ∀ s ∈ rs, r.Before s := by
  rw [← List.singleton_append, rangeInv_append, rangeInv_singleton]
  simp

/-- Ranges inside the ranges of a tree, and nonempty, are nonempty and do not
wrap. -/
theorem RangeInv.of_within {A B : List FreeRange} (hB : RangeInv B)
    (hpos : ∀ a ∈ A, 0 < a.nblks) (hin : ∀ a ∈ A, ∃ b ∈ B, a.Within b)
    (hsorted : A.Pairwise FreeRange.Before) : RangeInv A := by
  refine ⟨hpos, hsorted, fun a ha => ?_⟩
  obtain ⟨b, hb, -, hend⟩ := hin a ha
  exact lt_of_le_of_lt hend (hB.no_wrap b hb)

/-- In the tree the first blocks strictly increase. -/
theorem RangeInv.blkid_lt {rs : List FreeRange} (h : RangeInv rs) :
    rs.Pairwise fun a b => a.blkid < b.blkid :=
  h.sorted.imp_of_mem fun ha _ hab => by
    have := h.pos _ ha
    unfold FreeRange.Before FreeRange.endblk at hab
    omega

/-- One round of the clearing loop leaves, in `rp`'s place, nonempty ordered
pieces of `rp` that hold exactly its blocks outside `[blkid, endblk)`. -/
theorem clearOne_spec {blkid endblk : ℕ} {rp : FreeRange} (hle : blkid ≤ endblk)
    (hpos : 0 < rp.nblks) :
    (∀ r ∈ clearOne blkid endblk rp, 0 < r.nblks ∧ r.Within rp) ∧
    (clearOne blkid endblk rp).Pairwise FreeRange.Before ∧
    ∀ b, b ∈ rangeBlocks (clearOne blkid endblk rp) ↔
      (rp.blkid ≤ b ∧ b < rp.endblk) ∧ ¬(blkid ≤ b ∧ b < endblk) := by
  unfold clearOne FreeRange.Within FreeRange.Before
  dsimp only
  unfold FreeRange.endblk at *
  split_ifs with hall hbeg hend hmid
  · -- the whole range goes
    refine ⟨by simp, .nil, fun b => ?_⟩
    simp only [mem_rangeBlocks, List.not_mem_nil, false_and, exists_false, false_iff]
    omega
  · -- its beginning goes
    refine ⟨by simp; omega, List.pairwise_singleton _ _, fun b => ?_⟩
    simp only [mem_rangeBlocks, List.mem_singleton, exists_eq_left, FreeRange.endblk]
    omega
  · -- its end goes
    refine ⟨by simp; omega, List.pairwise_singleton _ _, fun b => ?_⟩
    simp only [mem_rangeBlocks, List.mem_singleton, exists_eq_left, FreeRange.endblk]
    omega
  · -- a chunk in the middle goes
    refine ⟨by simp; omega, by simp; omega, fun b => ?_⟩
    simp only [mem_rangeBlocks, List.mem_cons, List.not_mem_nil, or_false, exists_eq_or_imp,
      exists_eq_left, FreeRange.endblk]
    omega
  · -- no overlap
    refine ⟨by simp; omega, List.pairwise_singleton _ _, fun b => ?_⟩
    simp only [mem_rangeBlocks, List.mem_singleton, exists_eq_left, FreeRange.endblk]
    omega

/-- The clearing loop, from any point of an ordered tree, keeps it ordered
with pieces of its ranges, and removes exactly the blocks of
`[blkid, endblk)`: the loop stops at the first range past `endblk`, and every
later one is past it too. -/
theorem clearLoop_spec {blkid endblk : ℕ} (hle : blkid ≤ endblk) :
    ∀ {l : List FreeRange}, RangeInv l →
      RangeInv (clearLoop blkid endblk l) ∧
      (∀ r ∈ clearLoop blkid endblk l, ∃ s ∈ l, r.Within s) ∧
      ∀ b, b ∈ rangeBlocks (clearLoop blkid endblk l) ↔
        b ∈ rangeBlocks l ∧ ¬(blkid ≤ b ∧ b < endblk)
  | [], _ => ⟨rangeInv_nil, by simp [clearLoop], by simp [clearLoop]⟩
  | rp :: rest, h => by
    obtain ⟨⟨hpos, -⟩, hrest, hbefore⟩ := rangeInv_cons.1 h
    rw [clearLoop]
    split_ifs with hreach
    · obtain ⟨hpieces, hsorted, hblocks⟩ := clearOne_spec hle hpos
      obtain ⟨ih, ihin, ihblocks⟩ := clearLoop_spec hle hrest
      have hin : ∀ r ∈ clearOne blkid endblk rp ++ clearLoop blkid endblk rest,
          ∃ s ∈ rp :: rest, r.Within s := by
        intro r hr
        rcases List.mem_append.1 hr with hr | hr
        · exact ⟨rp, List.mem_cons_self, (hpieces r hr).2⟩
        · obtain ⟨s, hs, hw⟩ := ihin r hr
          exact ⟨s, List.mem_cons_of_mem _ hs, hw⟩
      refine ⟨?_, hin, fun b => ?_⟩
      · refine rangeInv_append.2 ⟨RangeInv.of_within h (fun r hr => (hpieces r hr).1)
          (fun r hr => ⟨rp, List.mem_cons_self, (hpieces r hr).2⟩) hsorted, ih, ?_⟩
        intro a ha c hc
        obtain ⟨s, hs, hw⟩ := ihin c hc
        exact (hbefore s hs).within (hpieces a ha).2 hw
      · rw [mem_rangeBlocks_append, hblocks, ihblocks, mem_rangeBlocks_cons]
        tauto
    · -- every range from `rp` on starts past `endblk`
      refine ⟨h, fun r hr => ⟨r, hr, FreeRange.within_refl r⟩, fun b => ?_⟩
      have hpast : ∀ s ∈ rp :: rest, endblk < s.blkid := by
        intro s hs
        rcases List.mem_cons.1 hs with rfl | hs
        · exact not_le.1 hreach
        · have := hbefore s hs
          unfold FreeRange.Before FreeRange.endblk at this
          omega
      constructor
      · rintro ⟨s, hs, hlo, hhi⟩
        exact ⟨⟨s, hs, hlo, hhi⟩, fun ⟨_, hb⟩ => by have := hpast s hs; omega⟩
      · exact fun h => h.1

/-- The ranges before the scan's start end at or before `blkid`: they all
come before a range that starts at or below it. -/
theorem take_clearStart_before {tree : List FreeRange} (h : RangeInv tree) (blkid : ℕ) :
    ∀ r ∈ tree.take (clearStart tree blkid), r.endblk ≤ blkid := by
  unfold clearStart
  dsimp only
  set A := tree.takeWhile fun r => r.blkid < blkid
  set B := tree.dropWhile fun r => r.blkid < blkid
  have hsplit : tree = A ++ B := List.takeWhile_append_dropWhile.symm
  have hsorted : (A ++ B).Pairwise FreeRange.Before := hsplit ▸ h.sorted
  have hdrop : tree.drop A.length = B := by rw [hsplit, List.drop_left]
  rw [hdrop]
  split_ifs with hfound
  · -- `avl_find` found a range starting at `blkid`: the ranges before it end there
    obtain ⟨c, hc, hcb⟩ := Option.map_eq_some_iff.1 hfound
    have hcB : c ∈ B := List.mem_of_mem_head? hc
    intro r hr
    rw [hsplit, List.take_left] at hr
    have := (List.pairwise_append.1 hsorted).2.2 r hr c hcB
    unfold FreeRange.Before at this
    omega
  · -- the nearest range before `blkid`, the last of `A`, comes after them
    intro r hr
    rw [hsplit, List.take_append_of_le_length (Nat.sub_le _ _)] at hr
    have hne : A.length - 1 < A.length := by
      have := List.length_pos_of_mem (List.mem_of_mem_take hr)
      omega
    obtain ⟨y, hy⟩ : ∃ y, y ∈ A.drop (A.length - 1) :=
      List.exists_mem_of_ne_nil _ (by simpa using hne)
    have hsortedA : (A.take (A.length - 1) ++ A.drop (A.length - 1)).Pairwise FreeRange.Before := by
      rw [List.take_append_drop]
      exact (List.pairwise_append.1 hsorted).1
    have hry := (List.pairwise_append.1 hsortedA).2.2 r hr y hy
    have hyb : y.blkid < blkid := by
      simpa using List.mem_takeWhile_imp (List.mem_of_mem_drop hy)
    unfold FreeRange.Before at hry
    omega

/-- `dnode_clear_range` keeps the tree ordered and removes from it exactly the
blocks `[blkid, blkid + nblks)`. -/
theorem dnodeClearRange_spec {tree : List FreeRange} (h : RangeInv tree) (blkid nblks : ℕ) :
    RangeInv (dnodeClearRange tree blkid nblks) ∧
    ∀ b, b ∈ rangeBlocks (dnodeClearRange tree blkid nblks) ↔
      b ∈ rangeBlocks tree ∧ ¬(blkid ≤ b ∧ b < blkid + nblks) := by
  unfold dnodeClearRange
  dsimp only
  set s := clearStart tree blkid
  have hsplit : RangeInv (tree.take s ++ tree.drop s) := by rwa [List.take_append_drop]
  obtain ⟨htake, hdrop, hcross⟩ := rangeInv_append.1 hsplit
  obtain ⟨hloop, hin, hblocks⟩ := clearLoop_spec (Nat.le_add_right blkid nblks) hdrop
  have hbelow := take_clearStart_before h blkid
  refine ⟨rangeInv_append.2 ⟨htake, hloop, fun a ha c hc => ?_⟩, fun b => ?_⟩
  · obtain ⟨r, hr, hw⟩ := hin c hc
    exact (hcross a ha r hr).within (FreeRange.within_refl a) hw
  · conv_rhs => rw [← List.take_append_drop s tree]
    rw [mem_rangeBlocks_append, mem_rangeBlocks_append, hblocks]
    constructor
    · rintro (⟨r, hr, hlo, hhi⟩ | ⟨hb, hout⟩)
      · exact ⟨.inl ⟨r, hr, hlo, hhi⟩, fun ⟨hb, _⟩ => by have := hbelow r hr; omega⟩
      · exact ⟨.inr hb, hout⟩
    · rintro ⟨hb | hb, hout⟩
      exacts [.inl hb, .inr ⟨hb, hout⟩]

/-- Inserting a nonempty range none of whose blocks the tree holds keeps the
tree ordered and adds exactly its blocks. -/
theorem rangeInsert_spec {tree : List FreeRange} {rp : FreeRange} (h : RangeInv tree)
    (hpos : 0 < rp.nblks) (hwrap : rp.endblk < u64)
    (hfree : ∀ b ∈ rangeBlocks tree, ¬(rp.blkid ≤ b ∧ b < rp.endblk)) :
    RangeInv (rangeInsert tree rp) ∧
    ∀ b, b ∈ rangeBlocks (rangeInsert tree rp) ↔
      b ∈ rangeBlocks tree ∨ (rp.blkid ≤ b ∧ b < rp.endblk) := by
  unfold rangeInsert
  set A := tree.takeWhile fun r => r.blkid < rp.blkid
  set B := tree.dropWhile fun r => r.blkid < rp.blkid
  have hsplit : tree = A ++ B := List.takeWhile_append_dropWhile.symm
  obtain ⟨hA, hB, hAB⟩ := rangeInv_append.1 (hsplit ▸ h)
  have hmem : ∀ r ∈ tree, r.blkid ≤ r.blkid ∧ r.blkid < r.endblk := fun r hr => by
    have := h.pos r hr
    unfold FreeRange.endblk
    omega
  -- a range below `rp` ends before it, a range at or above it starts after it
  have hArp : ∀ a ∈ A, a.Before rp := by
    intro a ha
    have hlt : a.blkid < rp.blkid := by simpa using List.mem_takeWhile_imp ha
    have hat : a ∈ tree := hsplit ▸ List.mem_append_left _ ha
    by_contra hno
    unfold FreeRange.Before at hno
    exact hfree rp.blkid ⟨a, hat, hlt.le, by omega⟩ ⟨le_rfl, by unfold FreeRange.endblk; omega⟩
  have hrpB : ∀ c ∈ B, rp.Before c := by
    intro c hc
    have hge : rp.blkid ≤ c.blkid := by
      rw [show B = _ from List.dropWhile_lt_eq_filter FreeRange.blkid h.blkid_lt rp.blkid] at hc
      simpa using (List.mem_filter.1 hc).2
    have hct : c ∈ tree := hsplit ▸ List.mem_append_right _ hc
    by_contra hno
    unfold FreeRange.Before at hno
    exact hfree c.blkid ⟨c, hct, hmem c hct⟩ ⟨hge, by omega⟩
  refine ⟨rangeInv_append.2 ⟨hA, rangeInv_cons.2 ⟨⟨hpos, hwrap⟩, hB, hrpB⟩, ?_⟩, fun b => ?_⟩
  · intro a ha c hc
    rcases List.mem_cons.1 hc with rfl | hc
    exacts [hArp a ha, hAB a ha c hc]
  · conv_rhs => rw [hsplit]
    rw [mem_rangeBlocks_append, mem_rangeBlocks_cons, mem_rangeBlocks_append]
    tauto

/-! ## Freeing a byte range -/

/-- `ISP2(x)`. -/
def isP2 (x : ℕ) : Bool := x &&& (x - 1) == 0

/-- `P2PHASE(x, align)`: `x & (align - 1)`. -/
@[grind] def p2phase (x align : ℕ) : ℕ := x &&& (align - 1)

/-- `P2NPHASE(x, align)`: `-x & (align - 1)` in 64-bit arithmetic. -/
def p2nphase (x align : ℕ) : ℕ := (u64 - x) % u64 &&& (align - 1)

/-- A `bzero` of `count` bytes from byte `start` of the level-0 block `blkid`. -/
structure ZeroWrite where
  blkid : ℕ
  start : ℕ
  count : ℕ
  deriving DecidableEq, Repr

/-- The bytes of the object a zero write clears, for blocks of `blksz` bytes. -/
def ZeroWrite.bytes (z : ZeroWrite) (blksz : ℕ) : Set ℕ :=
  {x | z.blkid * blksz + z.start ≤ x ∧ x < z.blkid * blksz + z.start + z.count}

/-- The zeroing of a partial block: `dbuf_hold_impl` of level-0 block `blk`
with `fail_sparse`, then the `bzero` when the block is dirty or on disk.
`dirty blk` is `db_last_dirty` of a cached dbuf; a block that is neither is
left alone.
mirrors module/zfs/dnode.c:1562-1576 -/
def zeroPartial (dn : DnodeTree) (dirty : ℕ → Bool) (blk start count : ℕ) : List ZeroWrite :=
  if dirty blk || (dbufHold dn 0 blk).isSome then [⟨blk, start, count⟩] else []

/-- What the byte phases of `dnode_free_range` decide: the blocks to record,
the zeroing done, and `off` as the `out:` label reads it. -/
structure FreePlan where
  range : Option FreeRange
  zeroed : List ZeroWrite
  off : ℕ
  deriving DecidableEq, Repr

/-- `dnode_free_range` from "if the range was less than one block" to the
computation of `blkid` and `nblks`, with `off` advanced past the head: the
blocks to record and the zeroing of the tail.
mirrors module/zfs/dnode.c:1583-1632 -/
def freeTail (dn : DnodeTree) (dirty : ℕ → Bool) (trunc : Bool) (off len : ℕ) :
    Option FreeRange × List ZeroWrite :=
  -- if the range was less than one block, or is past the end, we're done
  if len = 0 then (none, [])
  else if dn.maxblkid < off >>> dn.datablkshift then (none, [])
  else
    let tail := if trunc then 0 else p2phase len dn.datablksz
    let tail' := min len tail
    -- the tail block is found at `off + len`, which can wrap
    let zt := if tail ≠ 0 then
      zeroPartial dn dirty (dbufWhichblock dn ((off + len) % u64)) 0 tail' else []
    let len := if tail ≠ 0 then len - tail' else len
    if len = 0 then (none, zt)
    else (some ⟨off >>> dn.datablkshift, (len >>> dn.datablkshift) + if trunc then 1 else 0⟩, zt)

/-- `dnode_free_range` from "zero out any partial block data at the start of
the range" on, entered with `head` and `blkoff` from the alignment of `off`.
mirrors module/zfs/dnode.c:1560-1632 -/
def freeAligned (dn : DnodeTree) (dirty : ℕ → Bool) (trunc : Bool)
    (off len head blkoff : ℕ) : FreePlan :=
  let head' := min len head
  let zh := if head ≠ 0 then zeroPartial dn dirty (dbufWhichblock dn off) blkoff head' else []
  let off := if head ≠ 0 then (off + head') % u64 else off
  let len := if head ≠ 0 then len - head' else len
  let t := freeTail dn dirty trunc off len
  ⟨t.1, zh ++ t.2, off⟩

/-- The byte phases of `dnode_free_range(dn, off, len, tx)`: the
truncation, the alignment of the region, and `freeAligned`. A block size
that is not a power of two belongs to an object of one block.
mirrors module/zfs/dnode.c:1530-1558 -/
def dnodeFreePlan (dn : DnodeTree) (dirty : ℕ → Bool) (off len : ℕ) : FreePlan :=
  let trunc := len == u64 - 1
  let len := if trunc then u64 - 1 - off else len
  if isP2 dn.datablksz then
    if dn.maxblkid < off >>> dn.datablkshift then ⟨none, [], off⟩
    else freeAligned dn dirty trunc off len (p2nphase off dn.datablksz) (p2phase off dn.datablksz)
  else if off = 0 ∧ dn.datablksz ≤ len then
    -- freeing the whole block; fast-track this request
    ⟨some ⟨0, 1⟩, [], off⟩
  else if dn.datablksz ≤ off then
    -- freeing past end-of-data
    ⟨none, [], off⟩
  else freeAligned dn dirty trunc off len (dn.datablksz - off) off

/-- What a call leaves: the dnode, the tree of its txg and the zeroing done. -/
structure FreeOut where
  dn : DnodeTree
  ranges : List FreeRange
  zeroed : List ZeroWrite

/-- `dnode_free_range(dn, off, len, tx)` on the tree `ranges` of `tx`'s txg.
The level-1 indirects it dirties and `dbuf_free_range` change no field that
is modelled here.
mirrors module/zfs/dnode.c:1516-1700 -/
def dnodeFreeRange (dn : DnodeTree) (dirty : ℕ → Bool) (ranges : List FreeRange)
    (off len : ℕ) : FreeOut :=
  let plan := dnodeFreePlan dn dirty off len
  let ranges := match plan.range with
    | some rp => rangeInsert (dnodeClearRange ranges rp.blkid rp.nblks) rp
    | none => ranges
  let blk := plan.off >>> dn.datablkshift
  -- `out:` a truncation drops `dn_maxblkid` below the first freed block
  let maxblkid := if len = u64 - 1 ∧ blk ≤ dn.maxblkid then (if blk ≠ 0 then blk - 1 else 0)
    else dn.maxblkid
  ⟨{ dn with maxblkid := maxblkid }, ranges, plan.zeroed⟩

/-! ### Every call keeps the tree -/

/-- The block size of a dnode as `dnode_setdblksz` sets it: a power of two
`2 ^ dn_datablkshift` of at least `SPA_MINBLOCKSIZE`, or else a single block
with shift 0. -/
structure BlockShape (dn : DnodeTree) : Prop where
  p2 : isP2 dn.datablksz = true →
    dn.datablksz = 2 ^ dn.datablkshift ∧ 9 ≤ dn.datablkshift ∧ dn.datablkshift < 64
  nonP2 : isP2 dn.datablksz = false →
    dn.datablkshift = 0 ∧ dn.maxblkid = 0 ∧ 0 < dn.datablksz ∧ dn.datablksz < u64

theorem p2phase_eq_mod (x s : ℕ) : p2phase x (2 ^ s) = x % 2 ^ s :=
  Nat.and_two_pow_sub_one_eq_mod x s

theorem u64_eq : u64 = 18446744073709551616 := rfl

/-- The range that `freeAligned` records starts at the block of the advanced
`off` and counts the whole blocks of what is left of `len`, plus one on a
truncation. -/
theorem freeTail_range {dn : DnodeTree} {dirty : ℕ → Bool} {trunc : Bool} {off len : ℕ}
    {rp : FreeRange} (hB : dn.datablksz = 2 ^ dn.datablkshift)
    (h : (freeTail dn dirty trunc off len).1 = some rp) :
    ∃ len', len' ≤ len ∧ 0 < len' ∧ (trunc = false → len' % dn.datablksz = 0) ∧
      rp = ⟨off >>> dn.datablkshift, (len' >>> dn.datablkshift) + if trunc then 1 else 0⟩ := by
  unfold freeTail at h
  simp only [apply_ite Prod.fst] at h
  cases trunc with
  | false =>
    simp only [Bool.false_eq_true, if_false, add_zero, p2phase, hB,
      Nat.and_two_pow_sub_one_eq_mod] at h ⊢
    rw [← hB] at h ⊢
    split_ifs at h with h0 hmax ht h1
    · -- a tail was zeroed: what is left is a whole number of blocks
      obtain rfl := Option.some_inj.1 h.symm
      have hmod : len % dn.datablksz ≤ len := Nat.mod_le _ _
      refine ⟨len - min len (len % dn.datablksz), by omega, by omega, fun _ => ?_, rfl⟩
      rw [min_eq_right hmod, Nat.sub_mod_eq_zero_of_mod_eq (Nat.mod_mod _ _).symm]
    · -- no tail: `len` is already whole blocks
      obtain rfl := Option.some_inj.1 h.symm
      exact ⟨len, le_rfl, Nat.pos_of_ne_zero h0, fun _ => not_not.1 ht, rfl⟩
  | true =>
    simp only [if_true, ne_eq, not_true_eq_false, if_false] at h
    split_ifs at h with h0 hmax
    obtain rfl := Option.some_inj.1 h.symm
    exact ⟨len, le_rfl, Nat.pos_of_ne_zero h0, (absurd · (by decide)), rfl⟩

/-- The range that `freeAligned` records starts at the block of the advanced
`off` and counts the whole blocks of what is left of `len`, plus one on a
truncation. -/
theorem freeAligned_range {dn : DnodeTree} {dirty : ℕ → Bool} {trunc : Bool}
    {off len head blkoff : ℕ} {rp : FreeRange} (hB : dn.datablksz = 2 ^ dn.datablkshift)
    (hoff : off < u64) (h : (freeAligned dn dirty trunc off len head blkoff).range = some rp) :
    ∃ off' len', off' < u64 ∧ len' ≤ len ∧ 0 < len' ∧
      (trunc = false → len' % dn.datablksz = 0) ∧
      rp = ⟨off' >>> dn.datablkshift, (len' >>> dn.datablkshift) + if trunc then 1 else 0⟩ := by
  unfold freeAligned at h
  dsimp only at h
  obtain ⟨len', hle, hpos, hmod, rfl⟩ := freeTail_range hB h
  refine ⟨_, len', ?_, le_trans hle ?_, hpos, hmod, rfl⟩
  · split_ifs
    exacts [Nat.mod_lt _ (by rw [u64_eq]; omega), hoff]
  · split_ifs <;> omega

/-- Every range a call records is nonempty and ends inside `uint64_t`: its
blocks are below `2 ^ 64 / 512`, twice over at worst. -/
theorem dnodeFreePlan_range_bound {dn : DnodeTree} {dirty : ℕ → Bool} {off len : ℕ}
    {rp : FreeRange} (hdn : BlockShape dn) (hoff : off < u64) (hlen : len < u64)
    (h : (dnodeFreePlan dn dirty off len).range = some rp) :
    0 < rp.nblks ∧ rp.endblk < u64 := by
  unfold dnodeFreePlan at h
  simp only [apply_ite FreePlan.range] at h
  set len₀ := if (len == u64 - 1) = true then u64 - 1 - off else len with hlen₀
  have hlen₀_lt : len₀ < u64 := by rw [hlen₀]; split_ifs <;> omega
  split_ifs at h with hp2 hmax hwhole hpast
  · -- a power of two: the range's blocks come from offsets below `2 ^ 64`
    obtain ⟨hB, hs, -⟩ := hdn.p2 hp2
    obtain ⟨off', len', hoff', hle, hpos, hmod, rfl⟩ := freeAligned_range hB hoff h
    have h9 : 2 ^ 9 ≤ 2 ^ dn.datablkshift := Nat.pow_le_pow_right (by norm_num) hs
    have hB9 : 512 ≤ dn.datablksz := by rw [hB]; exact le_trans (by norm_num) h9
    -- without a truncation, what is left is a whole number of blocks, at least one
    have hnb : 0 < len' / dn.datablksz ∨ (len == u64 - 1) = true := by
      by_cases htr : (len == u64 - 1) = true
      · exact .inr htr
      · have := Nat.le_of_dvd hpos (Nat.dvd_of_mod_eq_zero (hmod (by simpa using htr)))
        exact .inl (Nat.div_pos this (by omega))
    have h1 : off' / dn.datablksz ≤ off' / 512 := Nat.div_le_div_left hB9 (by omega)
    have h2 : len' / dn.datablksz ≤ len' / 512 := Nat.div_le_div_left hB9 (by omega)
    have hu := u64_eq
    simp only [Nat.shiftRight_eq_div_pow, ← hB, FreeRange.endblk]
    constructor
    · rcases hnb with hnb | htr
      · split <;> omega
      · rw [if_pos htr]
        exact Nat.succ_pos _
    · split <;> omega
  · -- the whole single block
    cases h
    exact ⟨by decide, by rw [u64_eq]; decide⟩
  · -- part of a single block of another size: past the head, `off` is the
    -- block size, which is past `dn_maxblkid = 0`
    exfalso
    obtain ⟨hshift, hmax0, hpos, hlt⟩ := hdn.nonP2 (by simpa using hp2)
    unfold freeAligned freeTail at h
    simp only [apply_ite Prod.fst] at h
    rw [hshift, hmax0, Nat.shiftRight_zero] at h
    have hhead : dn.datablksz - off ≠ 0 := by omega
    simp only [hhead, ne_eq, not_false_eq_true, if_true] at h
    split_ifs at h with h0 hm
    all_goals
      apply hm
      rw [min_eq_right (by omega), show off + (dn.datablksz - off) = dn.datablksz by omega,
        Nat.mod_eq_of_lt hlt]
      exact hpos

/-- A call keeps the tree ordered, and adds to it exactly the blocks it
records. -/
theorem dnodeFreeRange_ranges {dn : DnodeTree} (dirty : ℕ → Bool) {ranges : List FreeRange}
    {off len : ℕ} (hdn : BlockShape dn) (hoff : off < u64) (hlen : len < u64)
    (h : RangeInv ranges) :
    RangeInv (dnodeFreeRange dn dirty ranges off len).ranges ∧
    ∀ b, b ∈ rangeBlocks (dnodeFreeRange dn dirty ranges off len).ranges ↔
      b ∈ rangeBlocks ranges ∨ b ∈ rangeBlocks (dnodeFreePlan dn dirty off len).range.toList := by
  unfold dnodeFreeRange
  dsimp only
  cases hr : (dnodeFreePlan dn dirty off len).range with
  | none => exact ⟨h, fun b => by simp⟩
  | some rp =>
    obtain ⟨hpos, hwrap⟩ := dnodeFreePlan_range_bound hdn hoff hlen hr
    obtain ⟨hclear, hcleared⟩ := dnodeClearRange_spec h rp.blkid rp.nblks
    have hfree : ∀ b ∈ rangeBlocks (dnodeClearRange ranges rp.blkid rp.nblks),
        ¬(rp.blkid ≤ b ∧ b < rp.endblk) := fun b hb => ((hcleared b).1 hb).2
    obtain ⟨hins, hinserted⟩ := rangeInsert_spec hclear hpos hwrap hfree
    refine ⟨hins, fun b => ?_⟩
    rw [hinserted, hcleared, Option.toList_some, mem_rangeBlocks_cons]
    have hnil : b ∉ rangeBlocks [] := by simp
    unfold FreeRange.endblk
    constructor
    · rintro (⟨hb, -⟩ | hb)
      exacts [.inl hb, .inr (.inl hb)]
    · rintro (hb | hb | hb)
      · by_cases hin : rp.blkid ≤ b ∧ b < rp.blkid + rp.nblks
        exacts [.inr hin, .inl ⟨hb, hin⟩]
      · exact .inr hb
      · exact absurd hb hnil

/-- A call changes only `dn_maxblkid`, and an object of one block keeps it
at 0. -/
theorem BlockShape.free {dn : DnodeTree} (hdn : BlockShape dn) (dirty : ℕ → Bool)
    (ranges : List FreeRange) (off len : ℕ) :
    BlockShape (dnodeFreeRange dn dirty ranges off len).dn := by
  refine ⟨hdn.p2, fun hp2 => ?_⟩
  obtain ⟨hshift, hmax, hpos, hlt⟩ := hdn.nonP2 hp2
  refine ⟨hshift, ?_, hpos, hlt⟩
  unfold dnodeFreeRange
  dsimp only
  split_ifs <;> omega

/-- A call `dnode_free_range(dn, off, len, tx)` of a sequence, with the dbufs
it finds dirty. -/
structure FreeCall where
  dirty : ℕ → Bool
  off : ℕ
  len : ℕ
  off_lt : off < u64
  len_lt : len < u64

/-- A sequence of calls in one txg: the dnode and its tree after them. -/
def freeRun (dn : DnodeTree) (ranges : List FreeRange) : List FreeCall → DnodeTree × List FreeRange
  | [] => (dn, ranges)
  | c :: cs =>
    let o := dnodeFreeRange dn c.dirty ranges c.off c.len
    freeRun o.dn o.ranges cs

/-- The ranges the calls of a sequence record, in order. -/
def freeRunRecorded (dn : DnodeTree) (ranges : List FreeRange) : List FreeCall → List FreeRange
  | [] => []
  | c :: cs =>
    let o := dnodeFreeRange dn c.dirty ranges c.off c.len
    (dnodeFreePlan dn c.dirty c.off c.len).range.toList ++ freeRunRecorded o.dn o.ranges cs

/-- Over every sequence of calls in one txg the tree stays ordered, with
nonempty disjoint ranges, and holds exactly the blocks it held and those the
calls recorded. -/
theorem freeRun_spec (cs : List FreeCall) :
    ∀ {dn : DnodeTree} {ranges : List FreeRange}, BlockShape dn → RangeInv ranges →
      RangeInv (freeRun dn ranges cs).2 ∧
      ∀ b, b ∈ rangeBlocks (freeRun dn ranges cs).2 ↔
        b ∈ rangeBlocks ranges ∨ b ∈ rangeBlocks (freeRunRecorded dn ranges cs) := by
  induction cs with
  | nil => exact fun _ h => ⟨h, fun b => by simp [freeRun, freeRunRecorded]⟩
  | cons c cs ih =>
    intro dn ranges hdn h
    obtain ⟨hstep, hblocks⟩ := dnodeFreeRange_ranges c.dirty hdn c.off_lt c.len_lt h
    obtain ⟨hrun, hrunBlocks⟩ := ih (hdn.free c.dirty ranges c.off c.len) hstep
    refine ⟨hrun, fun b => ?_⟩
    simp only [freeRun, freeRunRecorded]
    rw [hrunBlocks, hblocks, mem_rangeBlocks_append]
    tauto

/-! ### Calls inside `uint64_t` -/

/-- The end of the bytes a call frees: `off + len`, or on a truncation the end
of what `uint64_t` offsets address. -/
@[grind] def freeEnd (off len : ℕ) : ℕ := if len = u64 - 1 then u64 else off + len

/-- Block `j` of `blksz` bytes lies wholly inside what a call frees. -/
def WholeIn (blksz off len j : ℕ) : Prop := off ≤ j * blksz ∧ (j + 1) * blksz ≤ freeEnd off len

instance (blksz off len j : ℕ) : Decidable (WholeIn blksz off len j) :=
  inferInstanceAs (Decidable (_ ∧ _))

/-- `P2NPHASE` of an offset is the distance to the next block boundary. -/
theorem p2nphase_eq {off s : ℕ} (hoff : off < u64) (hs : s ≤ 64) :
    p2nphase off (2 ^ s) = (2 ^ s - off % 2 ^ s) % 2 ^ s := by
  have hBpos : 0 < 2 ^ s := Nat.two_pow_pos s
  have hdvd : 2 ^ s ∣ u64 := pow_dvd_pow 2 hs
  unfold p2nphase
  rw [Nat.and_two_pow_sub_one_eq_mod]
  rcases Nat.eq_zero_or_pos off with rfl | hpos
  · simp
  rw [Nat.mod_eq_of_lt (by omega : u64 - off < u64)]
  -- both sides added to `off` give a multiple of the block size
  apply Nat.ModEq.add_right_cancel' off
  show (u64 - off + off) % 2 ^ s = (2 ^ s - off % 2 ^ s + off) % 2 ^ s
  rw [Nat.sub_add_cancel hoff.le, Nat.mod_eq_zero_of_dvd hdvd, Nat.add_mod]
  rcases Nat.eq_zero_or_pos (off % 2 ^ s) with h0 | h0
  · rw [h0]
    simp
  · rw [Nat.mod_eq_of_lt (by omega : 2 ^ s - off % 2 ^ s < 2 ^ s),
      Nat.sub_add_cancel (Nat.mod_lt _ hBpos).le, Nat.mod_self]

theorem freeTail_len_zero (dn : DnodeTree) (dirty : ℕ → Bool) (trunc : Bool) (off : ℕ) :
    freeTail dn dirty trunc off 0 = (none, []) := by
  simp [freeTail]

theorem freeTail_past {dn : DnodeTree} (dirty : ℕ → Bool) (trunc : Bool) {off : ℕ} (len : ℕ)
    (h : dn.maxblkid < off >>> dn.datablkshift) : freeTail dn dirty trunc off len = (none, []) := by
  unfold freeTail
  split_ifs <;> rfl

/-- From the start of block `a`, the tail phase records the blocks up to the
last whole one, or on a truncation one more. -/
theorem freeTail_p2 {dn : DnodeTree} {dirty : ℕ → Bool} {trunc : Bool} (a len : ℕ)
    (hB : dn.datablksz = 2 ^ dn.datablkshift) :
    (freeTail dn dirty trunc (dn.datablksz * a) len).1 =
      if len = 0 ∨ dn.maxblkid < a then none
      else if trunc = false ∧ len / dn.datablksz = 0 then none
      else some ⟨a, len / dn.datablksz + if trunc then 1 else 0⟩ := by
  have hBpos : 0 < dn.datablksz := hB ▸ Nat.two_pow_pos _
  have hshift : ∀ x, x >>> dn.datablkshift = x / dn.datablksz := fun x => by
    rw [Nat.shiftRight_eq_div_pow, hB]
  have hdm := Nat.mod_add_div len dn.datablksz
  unfold freeTail
  simp only [apply_ite Prod.fst, hshift, Nat.mul_div_cancel_left a hBpos]
  by_cases h0 : len = 0
  · simp [h0]
  by_cases hmax : dn.maxblkid < a
  · simp [hmax]
  simp only [h0, hmax, or_self, if_false]
  cases trunc with
  | true => simp [h0]
  | false =>
    simp only [Bool.false_eq_true, if_false, add_zero, p2phase, hB,
      Nat.and_two_pow_sub_one_eq_mod, true_and]
    rw [← hB]
    by_cases ht : len % dn.datablksz = 0
    · -- no tail: `len` is whole blocks, at least one
      have hq : len / dn.datablksz ≠ 0 := by
        intro hq
        rw [hq, ht] at hdm
        omega
      simp [ht, hq, h0]
    · -- what is left past the tail is `B * (len / B)`
      have hrest : len - min len (len % dn.datablksz) = dn.datablksz * (len / dn.datablksz) := by
        rw [min_eq_right (Nat.mod_le _ _)]
        omega
      simp only [ne_eq, ht, not_false_eq_true, if_true, hrest, Nat.mul_div_cancel_left _ hBpos,
        mul_eq_zero, hBpos.ne', false_or]

/-- The first block boundary at or after `off` is `B * ⌈off / B⌉`, less than a
block past `off`, and the head `(B - off % B) % B` is the distance to it. -/
theorem ceil_block (B off : ℕ) (hB : 0 < B) :
    off ≤ B * ((off + B - 1) / B) ∧ B * ((off + B - 1) / B) < off + B ∧
      (B - off % B) % B = B * ((off + B - 1) / B) - off := by
  have hqr := Nat.mod_add_div off B
  have hr := Nat.mod_lt off hB
  rcases Nat.eq_zero_or_pos (off % B) with h0 | h0
  · -- `off` is on a boundary
    have hc : (off + B - 1) / B = off / B := by
      rw [show off + B - 1 = B * (off / B) + (B - 1) by omega, Nat.mul_add_div hB,
        Nat.div_eq_of_lt (show B - 1 < B by omega), add_zero]
    rw [hc, h0, Nat.sub_zero, Nat.mod_self]
    omega
  · have hc : (off + B - 1) / B = off / B + 1 := by
      rw [show off + B - 1 = B * (off / B + 1) + (off % B - 1) by rw [Nat.mul_succ]; omega,
        Nat.mul_add_div hB, Nat.div_eq_of_lt (show off % B - 1 < B by omega), add_zero]
    rw [hc, Nat.mod_eq_of_lt (by omega : B - off % B < B), Nat.mul_succ]
    omega

/-- Past the head, the tail phase starts at the first block boundary, with
what is left of the range; a range that does not reach that boundary records
nothing. -/
theorem freeAligned_p2 {dn : DnodeTree} {dirty : ℕ → Bool} {trunc : Bool} {off len blkoff : ℕ}
    (hB : dn.datablksz = 2 ^ dn.datablkshift) (hfit : off + len ≤ u64) :
    (freeAligned dn dirty trunc off len ((dn.datablksz - off % dn.datablksz) % dn.datablksz)
        blkoff).range =
      if off + len ≤ dn.datablksz * ((off + dn.datablksz - 1) / dn.datablksz) then none
      else (freeTail dn dirty trunc (dn.datablksz * ((off + dn.datablksz - 1) / dn.datablksz))
        (off + len - dn.datablksz * ((off + dn.datablksz - 1) / dn.datablksz))).1 := by
  have hBpos : 0 < dn.datablksz := hB ▸ Nat.two_pow_pos _
  obtain ⟨hc1, hc2, hhead⟩ := ceil_block dn.datablksz off hBpos
  set c := (off + dn.datablksz - 1) / dn.datablksz
  unfold freeAligned
  dsimp only
  rw [hhead]
  by_cases h0 : dn.datablksz * c - off = 0
  · -- no head: `off` is the boundary
    have hoffc : dn.datablksz * c = off := by omega
    rw [hoffc, Nat.sub_self]
    simp only [ne_eq, not_true_eq_false, if_false, Nat.add_sub_cancel_left]
    split_ifs with hlen
    · rw [show len = 0 by omega, freeTail_len_zero]
    · rfl
  · simp only [ne_eq, h0, not_false_eq_true, if_true]
    split_ifs with hlen
    · -- the range ends inside the head block
      rw [show len - min len (dn.datablksz * c - off) = 0 by omega, freeTail_len_zero]
    · -- the head is zeroed and `off` moves to the boundary, below `2 ^ 64`
      rw [min_eq_right (by omega), show off + (dn.datablksz * c - off) = dn.datablksz * c by omega,
        Nat.mod_eq_of_lt (by omega), show len - (dn.datablksz * c - off) =
          off + len - dn.datablksz * c by omega]

/-- For a power-of-two block size and a call inside `uint64_t`, the range a
call records runs from the first whole block `j0 = ⌈off / B⌉` up to the block
where the freed bytes end, when there is such a block and `j0 ≤ dn_maxblkid`. -/
theorem dnodeFreePlan_p2_eq {dn : DnodeTree} {dirty : ℕ → Bool} {off len : ℕ}
    (hdn : BlockShape dn) (hp2 : isP2 dn.datablksz = true) (hoff : off < u64)
    (hfit : len = u64 - 1 ∨ off + len ≤ u64) :
    (dnodeFreePlan dn dirty off len).range =
      if (off + dn.datablksz - 1) / dn.datablksz < freeEnd off len / dn.datablksz ∧
          (off + dn.datablksz - 1) / dn.datablksz ≤ dn.maxblkid
      then some ⟨(off + dn.datablksz - 1) / dn.datablksz,
        freeEnd off len / dn.datablksz - (off + dn.datablksz - 1) / dn.datablksz⟩
      else none := by
  obtain ⟨hB, hs9, hs64⟩ := hdn.p2 hp2
  have hBpos : 0 < dn.datablksz := hB ▸ Nat.two_pow_pos _
  have hB2 : 2 ≤ dn.datablksz := by
    rw [hB]
    exact le_trans (by norm_num) (Nat.pow_le_pow_right (by norm_num) hs9)
  have hhead : p2nphase off dn.datablksz = (dn.datablksz - off % dn.datablksz) % dn.datablksz := by
    rw [hB]
    exact p2nphase_eq hoff hs64.le
  obtain ⟨hc1, hc2, -⟩ := ceil_block dn.datablksz off hBpos
  obtain ⟨Q, hQ⟩ : dn.datablksz ∣ u64 := hB ▸ pow_dvd_pow 2 hs64.le
  have hoffc : off / dn.datablksz ≤ (off + dn.datablksz - 1) / dn.datablksz :=
    Nat.div_le_of_le_mul hc1
  unfold dnodeFreePlan
  simp only [hp2, if_true, apply_ite FreePlan.range, hhead, Nat.shiftRight_eq_div_pow, ← hB]
  by_cases htr : len = u64 - 1
  · -- a truncation frees every block from `c` to the end, `Q` blocks in all
    subst htr
    simp only [beq_self_eq_true, if_true]
    rw [freeAligned_p2 hB (by omega), freeTail_p2 _ _ hB]
    have hend : freeEnd off (u64 - 1) / dn.datablksz = Q := by
      rw [freeEnd, if_pos rfl, hQ, Nat.mul_div_cancel_left Q hBpos]
    rw [hend]
    generalize (off + dn.datablksz - 1) / dn.datablksz = c at *
    have hcQ : c ≤ Q := by
      have : dn.datablksz * c < dn.datablksz * (Q + 1) := by rw [Nat.mul_succ, ← hQ]; omega
      exact Nat.lt_succ_iff.1 (Nat.lt_of_mul_lt_mul_left this)
    rcases Nat.lt_or_ge c Q with hlt | hge
    · -- block `c` is below the end, and the tail leaves `Q - c - 1` whole blocks
      have hsplit : dn.datablksz * Q = dn.datablksz * (Q - c - 1) + dn.datablksz * c + dn.datablksz := by
        rw [← Nat.mul_add, ← Nat.mul_succ]
        congr 1
        omega
      have hrest : (off + (u64 - 1 - off) - dn.datablksz * c) / dn.datablksz = Q - c - 1 := by
        rw [show off + (u64 - 1 - off) - dn.datablksz * c =
            dn.datablksz * (Q - c - 1) + (dn.datablksz - 1) by omega,
          Nat.mul_add_div hBpos, Nat.div_eq_of_lt (show dn.datablksz - 1 < dn.datablksz by omega),
          add_zero]
      simp only [hrest, Bool.true_eq_false, false_and, if_false, if_true, hlt, true_and,
        show Q - c - 1 + 1 = Q - c by omega]
      split_ifs <;> first | rfl | omega
    · -- block `c` is the end itself: nothing is recorded
      obtain rfl : c = Q := le_antisymm hcQ hge
      simp only [lt_irrefl, false_and, if_false]
      split_ifs <;> first | rfl | omega
  · -- inside `uint64_t`: every whole block up to `(off + len) / B`
    have hfit' : off + len ≤ u64 := hfit.resolve_left htr
    simp only [show (len == u64 - 1) = false by simpa using htr, Bool.false_eq_true, if_false]
    rw [freeAligned_p2 hB hfit', freeTail_p2 _ _ hB]
    have hend : freeEnd off len = off + len := if_neg htr
    rw [hend]
    generalize (off + dn.datablksz - 1) / dn.datablksz = c at *
    by_cases hshort : off + len ≤ dn.datablksz * c
    · have : (off + len) / dn.datablksz ≤ c := Nat.div_le_of_le_mul hshort
      simp only [hshort, if_true]
      split_ifs <;> first | rfl | omega
    · have hrest : (off + len - dn.datablksz * c) / dn.datablksz = (off + len) / dn.datablksz - c :=
        Nat.sub_mul_div _ _ _
      simp only [hshort, if_false, hrest, true_and, Bool.false_eq_true, add_zero]
      split_ifs <;> first | rfl | omega

/-- Block `j` is whole inside the freed bytes exactly when it lies from the
first block boundary at or after `off` up to the block where the bytes end. -/
theorem wholeIn_iff {B off len j : ℕ} (hB : 0 < B) :
    WholeIn B off len j ↔ (off + B - 1) / B ≤ j ∧ j < freeEnd off len / B := by
  obtain ⟨hc1, hc2, -⟩ := ceil_block B off hB
  unfold WholeIn
  rw [Nat.lt_iff_add_one_le, Nat.le_div_iff_mul_le hB]
  constructor
  · rintro ⟨hlo, hhi⟩
    refine ⟨Nat.lt_succ_iff.1 (Nat.lt_of_mul_lt_mul_left (a := B) ?_), hhi⟩
    rw [Nat.mul_succ, Nat.mul_comm B j]
    omega
  · rintro ⟨hlo, hhi⟩
    refine ⟨le_trans hc1 ?_, hhi⟩
    rw [Nat.mul_comm j B]
    exact Nat.mul_le_mul_left B hlo

/-- For a power-of-two block size and a call inside `uint64_t`, the call
records exactly the blocks that lie wholly inside the bytes it frees, when
one of them is at most `dn_maxblkid`, and nothing otherwise. -/
theorem dnodeFreePlan_p2_range {dn : DnodeTree} {dirty : ℕ → Bool} {off len : ℕ}
    (hdn : BlockShape dn) (hp2 : isP2 dn.datablksz = true) (hoff : off < u64)
    (hfit : len = u64 - 1 ∨ off + len ≤ u64) (j : ℕ) :
    j ∈ rangeBlocks (dnodeFreePlan dn dirty off len).range.toList ↔
      WholeIn dn.datablksz off len j ∧ ∃ j' ≤ dn.maxblkid, WholeIn dn.datablksz off len j' := by
  have hBpos : 0 < dn.datablksz := (hdn.p2 hp2).1 ▸ Nat.two_pow_pos _
  rw [dnodeFreePlan_p2_eq hdn hp2 hoff hfit]
  simp only [wholeIn_iff hBpos]
  generalize (off + dn.datablksz - 1) / dn.datablksz = c
  generalize freeEnd off len / dn.datablksz = e
  split_ifs with h
  · simp only [Option.toList_some, mem_rangeBlocks, List.mem_singleton, exists_eq_left,
      FreeRange.endblk]
    constructor
    · intro hj
      exact ⟨by omega, c, h.2, le_rfl, h.1⟩
    · rintro ⟨hj, -⟩
      omega
  · simp only [Option.toList_none, mem_rangeBlocks, List.not_mem_nil, false_and, exists_false,
      false_iff, not_and, not_exists]
    intro _ j' hj' hc he
    exact h ⟨by omega, by omega⟩

@[simp] theorem ZeroWrite.mem_bytes {z : ZeroWrite} {blksz x : ℕ} :
    x ∈ z.bytes blksz ↔ z.blkid * blksz + z.start ≤ x ∧ x < z.blkid * blksz + z.start + z.count :=
  Iff.rfl

theorem zeroPartial_mem {dn : DnodeTree} {dirty : ℕ → Bool} {blk start count : ℕ} {z : ZeroWrite}
    (h : z ∈ zeroPartial dn dirty blk start count) : z = ⟨blk, start, count⟩ := by
  unfold zeroPartial at h
  split_ifs at h
  · exact List.mem_singleton.1 h
  · cases h

/-- From the start of block `a` and inside `uint64_t`, the tail phase zeroes
at most the bytes of the last, partial block before `a * B + len`. -/
theorem freeTail_zeroed_p2 {dn : DnodeTree} {dirty : ℕ → Bool} {trunc : Bool} {a len : ℕ}
    (hB : dn.datablksz = 2 ^ dn.datablkshift) (hs : dn.datablkshift ≠ 0)
    (hdvd : dn.datablksz ∣ u64) (hfit : dn.datablksz * a + len ≤ u64) :
    ∀ z ∈ (freeTail dn dirty trunc (dn.datablksz * a) len).2,
      trunc = false ∧ len % dn.datablksz ≠ 0 ∧
        z = ⟨(dn.datablksz * a + len) / dn.datablksz, 0, len % dn.datablksz⟩ := by
  have hBpos : 0 < dn.datablksz := hB ▸ Nat.two_pow_pos _
  intro z hz
  unfold freeTail at hz
  simp only [apply_ite Prod.snd] at hz
  cases trunc with
  | true =>
    -- a truncation zeroes no tail
    simp at hz
  | false =>
    simp only [Bool.false_eq_true, if_false, p2phase, hB, Nat.and_two_pow_sub_one_eq_mod] at hz
    rw [← hB] at hz
    split_ifs at hz with h0 hmax ht <;> try exact absurd hz List.not_mem_nil
    all_goals
      -- the tail is not at `2 ^ 64`, a multiple of the block size
      have hlt : dn.datablksz * a + len < u64 := by
        refine lt_of_le_of_ne hfit fun heq => ht ?_
        have : (dn.datablksz * a + len) % dn.datablksz = 0 := heq ▸ Nat.mod_eq_zero_of_dvd hdvd
        rwa [Nat.mul_add_mod] at this
      rw [min_eq_right (Nat.mod_le _ _), Nat.mod_eq_of_lt hlt] at hz
      refine ⟨rfl, ht, ?_⟩
      rw [zeroPartial_mem hz, dbufWhichblock, if_pos hs, Nat.shiftRight_eq_div_pow, ← hB]

/-- The zeroing of `freeAligned` for a power-of-two block size: the head
block's partial bytes, then the tail phase's from the first boundary. -/
theorem freeAligned_zeroed_p2 {dn : DnodeTree} {dirty : ℕ → Bool} {trunc : Bool} {off len : ℕ}
    (hB : dn.datablksz = 2 ^ dn.datablkshift) (hfit : off + len ≤ u64) :
    (freeAligned dn dirty trunc off len ((dn.datablksz - off % dn.datablksz) % dn.datablksz)
        (off % dn.datablksz)).zeroed =
      (if (dn.datablksz - off % dn.datablksz) % dn.datablksz ≠ 0 then
        zeroPartial dn dirty (dbufWhichblock dn off) (off % dn.datablksz)
          (min len ((dn.datablksz - off % dn.datablksz) % dn.datablksz)) else []) ++
      if off + len ≤ dn.datablksz * ((off + dn.datablksz - 1) / dn.datablksz) then []
      else (freeTail dn dirty trunc (dn.datablksz * ((off + dn.datablksz - 1) / dn.datablksz))
        (off + len - dn.datablksz * ((off + dn.datablksz - 1) / dn.datablksz))).2 := by
  have hBpos : 0 < dn.datablksz := hB ▸ Nat.two_pow_pos _
  obtain ⟨hc1, hc2, hhead⟩ := ceil_block dn.datablksz off hBpos
  unfold freeAligned
  dsimp only
  congr 1
  rw [hhead]
  generalize (off + dn.datablksz - 1) / dn.datablksz = c at *
  by_cases h0 : dn.datablksz * c - off = 0
  · -- no head: `off` is the boundary
    have hoffc : dn.datablksz * c = off := by omega
    rw [hoffc, Nat.sub_self]
    simp only [ne_eq, not_true_eq_false, if_false, Nat.add_sub_cancel_left]
    split_ifs with hlen
    · rw [show len = 0 by omega, freeTail_len_zero]
    · rfl
  · simp only [ne_eq, h0, not_false_eq_true, if_true]
    split_ifs with hlen
    · rw [show len - min len (dn.datablksz * c - off) = 0 by omega, freeTail_len_zero]
    · rw [min_eq_right (by omega), show off + (dn.datablksz * c - off) = dn.datablksz * c by omega,
        Nat.mod_eq_of_lt (by omega), show len - (dn.datablksz * c - off) =
          off + len - dn.datablksz * c by omega]

/-- For a power-of-two block size and a call inside `uint64_t`, every byte a
call zeroes lies in the freed bytes, in a block that is not wholly inside
them: the partial head and tail. -/
theorem dnodeFreePlan_p2_zeroed {dn : DnodeTree} {dirty : ℕ → Bool} {off len : ℕ}
    (hdn : BlockShape dn) (hp2 : isP2 dn.datablksz = true) (hoff : off < u64)
    (hfit : len = u64 - 1 ∨ off + len ≤ u64) :
    ∀ z ∈ (dnodeFreePlan dn dirty off len).zeroed, ∀ x ∈ z.bytes dn.datablksz,
      off ≤ x ∧ x < freeEnd off len ∧ ¬WholeIn dn.datablksz off len (x / dn.datablksz) := by
  obtain ⟨hB, hs9, hs64⟩ := hdn.p2 hp2
  have hBpos : 0 < dn.datablksz := hB ▸ Nat.two_pow_pos _
  have hs0 : dn.datablkshift ≠ 0 := by omega
  have hdvd : dn.datablksz ∣ u64 := hB ▸ pow_dvd_pow 2 hs64.le
  have hhead : p2nphase off dn.datablksz = (dn.datablksz - off % dn.datablksz) % dn.datablksz := by
    rw [hB]
    exact p2nphase_eq hoff hs64.le
  have hphase : p2phase off dn.datablksz = off % dn.datablksz := by
    rw [hB]
    exact p2phase_eq_mod off _
  have hdm := Nat.mod_add_div off dn.datablksz
  obtain ⟨hc1, hc2, hceil⟩ := ceil_block dn.datablksz off hBpos
  unfold dnodeFreePlan
  simp only [hp2, if_true, apply_ite FreePlan.zeroed, hhead, hphase]
  -- what the call frees: `len`, or to `2 ^ 64 - 1` on a truncation
  set len₀ := if (len == u64 - 1) = true then u64 - 1 - off else len with hlen₀
  have hend : off + len₀ ≤ freeEnd off len := by
    rw [hlen₀, freeEnd]
    by_cases h1 : len = u64 - 1
    · simp only [h1, beq_self_eq_true, if_true]
      omega
    · simp only [show (len == u64 - 1) = false by simpa using h1, Bool.false_eq_true, if_false,
        if_neg h1, le_refl]
  have hfit₀ : off + len₀ ≤ u64 := by
    rw [hlen₀]
    split_ifs with h1
    · omega
    · exact hfit.resolve_left (by simpa using h1)
  split_ifs with hmax
  · simp
  rw [freeAligned_zeroed_p2 hB hfit₀]
  intro z hz x hx
  rw [ZeroWrite.mem_bytes] at hx
  rcases List.mem_append.1 hz with hz | hz
  · -- the head: the bytes of `off`'s block from `off` on, which starts before `off`
    split_ifs at hz with hh
    · obtain rfl := zeroPartial_mem hz
      simp only [dbufWhichblock, if_pos hs0, Nat.shiftRight_eq_div_pow, ← hB] at hx
      have hdm' : off / dn.datablksz * dn.datablksz + off % dn.datablksz = off :=
        Nat.div_add_mod' off _
      have hr : off % dn.datablksz ≠ 0 := by
        intro hr
        rw [hr, Nat.sub_zero, Nat.mod_self] at hh
        exact hh rfl
      have hheq : (dn.datablksz - off % dn.datablksz) % dn.datablksz =
          dn.datablksz - off % dn.datablksz := Nat.mod_eq_of_lt (by omega)
      rw [hheq] at hx
      have hq : x / dn.datablksz = off / dn.datablksz := by
        apply Nat.div_eq_of_lt_le
        · omega
        · rw [Nat.succ_mul]
          omega
      refine ⟨by omega, by omega, fun hw => hr ?_⟩
      have := hw.1
      rw [hq] at this
      omega
    · exact absurd hz List.not_mem_nil
  · -- the tail: the bytes of the block where the freed bytes end, up to them
    split_ifs at hz with hshort
    · cases hz
    generalize (off + dn.datablksz - 1) / dn.datablksz = c at hz hc1 hc2 hceil hshort
    obtain ⟨htr, ht, rfl⟩ := freeTail_zeroed_p2 hB hs0 hdvd (by omega) z hz
    -- no truncation: the freed bytes end at `off + len`, inside block `j1`
    have hlen : len ≠ u64 - 1 := by simpa using htr
    have hl : len₀ = len := by
      rw [hlen₀, htr]
      simp
    rw [hl] at hx hshort
    have hfe : freeEnd off len = off + len := if_neg hlen
    rw [show dn.datablksz * c + (off + len - dn.datablksz * c) = off + len by omega,
      Nat.sub_mul_mod (by omega)] at hx
    dsimp only at hx
    generalize hj : (off + len) / dn.datablksz = j1 at hx
    have hdm1 : (off + len) % dn.datablksz + dn.datablksz * j1 = off + len := hj ▸ Nat.mod_add_div _ _
    have htl : (off + len) % dn.datablksz < dn.datablksz := Nat.mod_lt _ hBpos
    rw [Nat.mul_comm j1] at hx
    have hcj : c ≤ j1 := by
      have : dn.datablksz * c < dn.datablksz * (j1 + 1) := by rw [Nat.mul_succ]; omega
      exact Nat.lt_succ_iff.1 (Nat.lt_of_mul_lt_mul_left this)
    have hcj' : dn.datablksz * c ≤ dn.datablksz * j1 := Nat.mul_le_mul_left _ hcj
    have hq : x / dn.datablksz = j1 := by
      apply Nat.div_eq_of_lt_le
      · rw [Nat.mul_comm]
        omega
      · rw [Nat.succ_mul, Nat.mul_comm j1]
        omega
    refine ⟨by omega, by omega, fun hw => ?_⟩
    have := hw.2
    rw [hq, hfe, Nat.succ_mul, Nat.mul_comm j1] at this
    omega

/-- For a block size that is not a power of two, an object of one block, a
call records block 0 when it frees it whole and nothing otherwise, and
zeroes only bytes of the range inside that block when it does not. -/
theorem dnodeFreePlan_nonP2 {dn : DnodeTree} {dirty : ℕ → Bool} {off len : ℕ}
    (hdn : BlockShape dn) (hp2 : isP2 dn.datablksz = false) (hoff : off < u64) :
    (dnodeFreePlan dn dirty off len).range =
        (if WholeIn dn.datablksz off len 0 then some ⟨0, 1⟩ else none) ∧
      ∀ z ∈ (dnodeFreePlan dn dirty off len).zeroed, ∀ x ∈ z.bytes dn.datablksz,
        off ≤ x ∧ x < freeEnd off len ∧ ¬WholeIn dn.datablksz off len (x / dn.datablksz) := by
  obtain ⟨hshift, hmax, hpos, hlt⟩ := hdn.nonP2 hp2
  unfold dnodeFreePlan
  simp only [hp2, Bool.false_eq_true, if_false]
  set len₀ := if (len == u64 - 1) = true then u64 - 1 - off else len with hlen₀
  -- the block is whole in the range exactly on the fast path's test
  have hend : freeEnd off len = off + len₀ + if len = u64 - 1 then 1 else 0 := by
    rw [freeEnd, hlen₀]
    by_cases h : len = u64 - 1
    · simp only [h, beq_self_eq_true, if_true]
      omega
    · simp only [show (len == u64 - 1) = false by simpa using h, Bool.false_eq_true, if_false,
        if_neg h, add_zero]
  have hwhole : WholeIn dn.datablksz off len 0 ↔ off = 0 ∧ dn.datablksz ≤ len₀ := by
    unfold WholeIn
    rw [hend, hlen₀]
    by_cases h : len = u64 - 1
    · simp only [h, beq_self_eq_true, if_true]
      omega
    · simp only [show (len == u64 - 1) = false by simpa using h, Bool.false_eq_true, if_false,
        if_neg h]
      omega
  by_cases hw : off = 0 ∧ dn.datablksz ≤ len₀
  · -- freeing the whole block
    rw [if_pos hw]
    exact ⟨(if_pos (hwhole.2 hw)).symm, by simp⟩
  rw [if_neg hw]
  by_cases hpast : dn.datablksz ≤ off
  · -- freeing past end-of-data
    rw [if_pos hpast]
    exact ⟨(if_neg (mt hwhole.1 hw)).symm, by simp⟩
  rw [if_neg hpast]
  -- freeing part of the block: its head, then `off` is past `dn_maxblkid = 0`
  have hhead : dn.datablksz - off ≠ 0 := by omega
  have htail : freeTail dn dirty (len == u64 - 1)
      ((off + min len₀ (dn.datablksz - off)) % u64) (len₀ - min len₀ (dn.datablksz - off)) =
        (none, []) := by
    by_cases h0 : len₀ - min len₀ (dn.datablksz - off) = 0
    · rw [h0, freeTail_len_zero]
    · apply freeTail_past
      rw [hshift, hmax, Nat.shiftRight_zero, min_eq_right (by omega),
        show off + (dn.datablksz - off) = dn.datablksz by omega, Nat.mod_eq_of_lt hlt]
      exact hpos
  unfold freeAligned
  simp only [hhead, ne_eq, not_false_eq_true, if_true, htail, List.append_nil]
  refine ⟨(if_neg (mt hwhole.1 hw)).symm, fun z hz x hx => ?_⟩
  obtain rfl := zeroPartial_mem hz
  simp only [dbufWhichblock, hshift, ne_eq, not_true_eq_false, if_false, zero_mul, zero_add,
    ZeroWrite.mem_bytes] at hx
  have hq : x / dn.datablksz = 0 := Nat.div_eq_of_lt (by omega)
  have hfe : off + len₀ ≤ freeEnd off len := by
    rw [hend]
    exact Nat.le_add_right _ _
  refine ⟨hx.1, by omega, fun h => hw ?_⟩
  rw [hq] at h
  exact hwhole.1 h

/-- Every call inside `uint64_t` zeroes only bytes of the range that lie
outside the blocks wholly inside it. -/
theorem dnodeFreePlan_zeroed {dn : DnodeTree} {dirty : ℕ → Bool} {off len : ℕ}
    (hdn : BlockShape dn) (hoff : off < u64) (hfit : len = u64 - 1 ∨ off + len ≤ u64) :
    ∀ z ∈ (dnodeFreePlan dn dirty off len).zeroed, ∀ x ∈ z.bytes dn.datablksz,
      off ≤ x ∧ x < freeEnd off len ∧ ¬WholeIn dn.datablksz off len (x / dn.datablksz) := by
  cases hp2 : isP2 dn.datablksz
  · exact (dnodeFreePlan_nonP2 hdn hp2 hoff).2
  · exact dnodeFreePlan_p2_zeroed hdn hp2 hoff hfit

/-! ### What `dnode_block_freed` finds -/

/-- `TXG_SIZE`. -/
def txgSize : ℕ := 4

/-- `DMU_BONUS_BLKID`. -/
def dmuBonusBlkid : ℕ := u64 - 1

/-- `DMU_SPILL_BLKID`. -/
def dmuSpillBlkid : ℕ := u64 - 2

/-- The pending frees of a dnode that `dnode_block_freed` reads:
`dn_free_txg`, the trees `dn_ranges[i]`, and whether `dn_rm_spillblk[i]` is
`DN_KILL_SPILLBLK`. -/
structure PendingFrees where
  freeTxg : ℕ
  ranges : Fin txgSize → List FreeRange
  killSpill : Fin txgSize → Bool

/-- The search of one txg's tree in `dnode_block_freed`: a range that starts
at `blkid`, else the nearest range before it if it reaches past `blkid`.
mirrors module/zfs/dnode.c:1743-1754 -/
def rangeFinds (tree : List FreeRange) (blkid : ℕ) : Bool :=
  match tree.find? (fun r => r.blkid = blkid) with
  | some _ => true
  | none =>
    match (tree.takeWhile fun r => r.blkid < blkid).getLast? with
    | some r => blkid < r.endblk
    | none => false

/-- `dnode_spill_freed(dn)`.
mirrors module/zfs/dnode.c:1702-1714 -/
def dnodeSpillFreed (p : PendingFrees) : Bool := (List.finRange txgSize).any p.killSpill

/-- `dnode_block_freed(dn, blkid)`; `dp` says whether the pool's
`dsl_pool_t` is set.
mirrors module/zfs/dnode.c:1716-1758 -/
def dnodeBlockFreed (dp : Bool) (p : PendingFrees) (blkid : ℕ) : Bool :=
  if blkid = dmuBonusBlkid then false
  else if !dp then false
  else if p.freeTxg ≠ 0 then true
  else if blkid = dmuSpillBlkid then dnodeSpillFreed p
  else (List.finRange txgSize).any fun i => rangeFinds (p.ranges i) blkid

/-- On an ordered tree the search finds exactly the blocks the tree holds: a
range before the nearest one ends before it, so cannot reach `blkid`. -/
theorem rangeFinds_iff {tree : List FreeRange} (h : RangeInv tree) (blkid : ℕ) :
    rangeFinds tree blkid = true ↔ blkid ∈ rangeBlocks tree := by
  unfold rangeFinds
  split
  · -- `avl_find`: a range starts at `blkid`
    rename_i r hr
    have hrb : r.blkid = blkid := by simpa using List.find?_some hr
    have hrt : r ∈ tree := List.mem_of_find?_eq_some hr
    have := h.pos r hrt
    simp only [true_iff, mem_rangeBlocks, FreeRange.endblk]
    exact ⟨r, hrt, by omega, by omega⟩
  · rename_i hnone
    have hne : ∀ r ∈ tree, r.blkid ≠ blkid := by simpa using List.find?_eq_none.1 hnone
    have hA : tree.takeWhile (fun r => r.blkid < blkid) = tree.filter (fun r => r.blkid < blkid) :=
      List.takeWhile_lt_eq_filter FreeRange.blkid h.blkid_lt blkid
    split
    · -- `avl_nearest` before: the last range starting below `blkid`
      rename_i y hy
      obtain ⟨A', hA'⟩ := List.getLast?_eq_some_iff.1 hy
      have hyt : y ∈ tree := by
        have : y ∈ tree.takeWhile (fun r => r.blkid < blkid) := by simp [hA']
        exact (List.takeWhile_sublist _).subset this
      have hsortedA : (A' ++ [y]).Pairwise FreeRange.Before := by
        rw [← hA']
        exact h.sorted.sublist (List.takeWhile_sublist _)
      simp only [decide_eq_true_eq, mem_rangeBlocks]
      constructor
      · intro hlt
        have : y.blkid < blkid := by
          have : y ∈ tree.takeWhile (fun r => r.blkid < blkid) := by simp [hA']
          simpa using List.mem_takeWhile_imp this
        exact ⟨y, hyt, this.le, hlt⟩
      · rintro ⟨r, hr, hlo, hhi⟩
        have hrA : r ∈ A' ++ [y] := by
          rw [← hA', hA]
          exact List.mem_filter.2 ⟨hr, by simpa using lt_of_le_of_ne hlo (hne r hr)⟩
        rcases List.mem_append.1 hrA with hrA | hry
        · have := (List.pairwise_append.1 hsortedA).2.2 r hrA y List.mem_cons_self
          unfold FreeRange.Before at this
          have : y.blkid < blkid := by
            have : y ∈ tree.takeWhile (fun r => r.blkid < blkid) := by simp [hA']
            simpa using List.mem_takeWhile_imp this
          omega
        · rw [List.mem_singleton.1 hry] at hhi
          exact hhi
    · -- nothing starts below `blkid`, and nothing at it
      rename_i hy
      simp only [Bool.false_eq_true, false_iff, mem_rangeBlocks, not_exists, not_and]
      intro r hr hlo hhi
      have : r ∈ tree.takeWhile (fun r => r.blkid < blkid) := by
        rw [hA]
        exact List.mem_filter.2 ⟨hr, by simpa using lt_of_le_of_ne hlo (hne r hr)⟩
      rw [List.getLast?_eq_none_iff.1 hy] at this
      exact List.not_mem_nil this

/-- For an ordinary block of an open pool whose trees are ordered,
`dnode_block_freed` is true exactly when the whole dnode is being freed or
some txg's tree holds the block. -/
theorem dnodeBlockFreed_iff {p : PendingFrees} (h : ∀ i, RangeInv (p.ranges i)) {blkid : ℕ}
    (hbonus : blkid ≠ dmuBonusBlkid) (hspill : blkid ≠ dmuSpillBlkid) :
    dnodeBlockFreed true p blkid = true ↔
      p.freeTxg ≠ 0 ∨ ∃ i, blkid ∈ rangeBlocks (p.ranges i) := by
  unfold dnodeBlockFreed
  simp only [hbonus, hspill, if_false, Bool.not_true, Bool.false_eq_true]
  by_cases hfree : p.freeTxg = 0
  · simp only [hfree, ne_eq, not_true_eq_false, if_false, false_or, List.any_eq_true,
      List.mem_finRange, true_and]
    exact exists_congr fun i => rangeFinds_iff (h i) blkid
  · simp [hfree]

/-! ### A tail that wraps -/

/-- A one-level object of 512-byte blocks `0..3`, all on disk. -/
def fourBlocks : DnodeTree where
  nlevels := 1
  nblkptr := 3
  indblkshift := 14
  datablkshift := 9
  datablksz := 512
  maxblkid := 3
  tree := fun _ _ => ⟨1, 1⟩
  slotFree := fun _ _ => false

/-- Freeing from byte `1536` (block 3) with a length that takes `off + len`
past `2 ^ 64` by `100`: `tail` is `100`, and the tail block is looked up at
the wrapped offset `100`, so the first hundred bytes of block 0, which lie
before the range, are zeroed. -/
theorem dnode_free_range_tail_wrap :
    (dnodeFreeRange fourBlocks (fun _ => false) [] 1536 (2 ^ 64 - 1436)).zeroed =
      [⟨0, 0, 100⟩] ∧
    (dnodeFreeRange fourBlocks (fun _ => false) [] 1536 (2 ^ 64 - 1436)).ranges =
      [⟨3, 2 ^ 55 - 3⟩] := by
  decide

end ZfsOsx.Dnode
