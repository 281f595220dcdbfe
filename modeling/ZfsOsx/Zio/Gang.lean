import ZfsOsx.Checksum.Zio

/-!
# Gang blocks (`module/zfs/zio.c`)

When no allocation of a block's size can be found, `zio_write_gang_block`
allocates a 512-byte gang header instead and splits the data into members, the
`g`-th of `lsize = P2ROUNDUP(resid / (SPA_GBH_NBLKPTRS - g), SPA_MINBLOCKSIZE)`
bytes, until nothing is left. Each member is written with an allocation of its
own, which may fail in turn and make it a gang block. A read assembles the
tree of headers (`zio_gang_tree_assemble`) and issues it
(`zio_gang_tree_issue`): a read for each member that is not a hole, the data
pointer moving on by the member's `BP_GET_PSIZE`.

An `AllocPattern` says which allocations fail. The write builds the tree of
block pointers as it lies on disk, the slots of a gang header being its
`zg_blkptr[]`; each data block keeps, as a ghost, the offset of the write's
data it was written from. `zio_gang_tree_assemble` reads each gang header back
into `gn_gbh` (its I/O is not modelled), so the read issues over that tree.

Results:
* `gangSizes_spec`: for a size that is a positive multiple of 512, the split
  ends within `SPA_GBH_NBLKPTRS` members, each a positive multiple of 512 and
  not above what is left (the loop's `ASSERT`), adding up to the size.
* `writeGang_spec`: for every pattern of failed allocations the write builds a
  tree in which each header has its members in its first one to three slots
  and holes after them, and the members tile the header's data.
* `gangTreeIssue_spec`: the read issues a read for every data block, in order,
  into the offset it was written from, and ends at `io_data + io_size`.
-/

namespace ZfsOsx.Zio

open ZfsOsx.Compress (spaMinblocksize p2roundup)
open ZfsOsx.Checksum (spaGangblocksize p2roundupTyped64)

/-- `SPA_GBH_NBLKPTRS`: the 128-byte block pointers that fit in a gang header
beside its 40-byte `zio_eck_t` tail.
mirrors include/sys/zio.h:59-60 -/
def spaGbhNblkptrs : ℕ := (spaGangblocksize - 40) / 128

theorem spaGbhNblkptrs_eq : spaGbhNblkptrs = 3 := rfl

theorem spaMinblocksize_eq : spaMinblocksize = 512 := rfl

/-- Which allocations of a write fail: `alloc` when the block gets its
allocation, `gang member` when it does not and becomes a gang block whose
member `g` follows `member g`. A gang header's own allocation succeeds: when
it fails the write fails with its error. -/
inductive AllocPattern
  | alloc
  | gang (member : ℕ → AllocPattern)

/-- A block pointer as the write leaves it: a hole (a slot of a gang header
that `bzero` left), a data block of `psize` bytes written from offset `src`
of the write's data (`src` is a ghost), or a gang block of `psize` bytes
whose header holds `slot g` in `zg_blkptr[g]`. -/
inductive Bp
  | hole
  | data (psize src : ℕ)
  | gang (psize : ℕ) (slot : ℕ → Bp)

namespace Bp

/-- `BP_IS_HOLE` -/
@[grind] def isHole : Bp → Bool
  | hole => true
  | _ => false

/-- `BP_GET_PSIZE`: a gang block pointer keeps the size of the data it stands
for, set before its allocation failed. -/
def psize : Bp → ℕ
  | hole => 0
  | data p _ => p
  | gang p _ => p

/-- The data blocks under a block pointer, in slot order, each as the offset
it was written from and its size. -/
@[grind] def leaves : Bp → List (ℕ × ℕ)
  | hole => []
  | data p s => [(s, p)]
  | gang _ slot => ((List.range spaGbhNblkptrs).map fun g => (slot g).leaves).flatten

end Bp

/-! ## The write -/

/-- The member sizes of the loop of `zio_write_gang_block`, `n` slots before
the end of `zg_blkptr[]` with `resid` bytes left: `P2ROUNDUP` and
`resid -= lsize` are in `uint64_t`. `none` when a member would go past the
last slot, where the source also divides by 0.
mirrors module/zfs/zio.c:1918-1941 -/
def gangSizes : ℕ → ℕ → Option (List ℕ)
  | _, 0 => some []
  | 0, _ + 1 => none
  | n + 1, r + 1 =>
    let lsize := p2roundupTyped64 ((r + 1) / (n + 1)) spaMinblocksize
    (gangSizes n ((r + 1 + 2 ^ 64 - lsize) % 2 ^ 64)).map (lsize :: ·)

/-- The write of `size` bytes from offset `off` of the data, when the
allocations follow `pat`: a data block, or the gang header of
`zio_write_gang_block` with a write of each member from offset
`pio->io_size - resid` of its parent's data.
mirrors module/zfs/zio.c:1869-1947 -/
def writeGang : AllocPattern → ℕ → ℕ → Option Bp
  | .alloc, off, size => some (.data size off)
  | .gang member, off, size =>
    (gangSizes spaGbhNblkptrs size).bind fun sizes =>
      ((List.range sizes.length).mapM fun g =>
          writeGang (member g) (off + (sizes.take g).sum) (sizes.getD g 0)).map
        fun kids => .gang size fun g => kids.getD g .hole

/-! ## The read -/

/-- `zio_gang_tree_issue(pio, gn, bp, data)` for a read: the reads it issues
for data blocks, each as the data offset it reads into, the size and the
offset the block was written from, and where `data` ends. A hole is skipped;
any other member of a header is issued at `data`, which then moves on by the
member's `BP_GET_PSIZE`.
mirrors module/zfs/zio.c:1766-1800 -/
def gangTreeIssue : Bp → ℕ → List (ℕ × ℕ × ℕ) × ℕ
  | .hole, data => ([], data)
  | .data psize src, data => ([(data, psize, src)], data)
  | .gang _ slot, data =>
    (List.range spaGbhNblkptrs).foldl (fun acc g =>
      if (slot g).isHole then acc
      else (acc.1 ++ (gangTreeIssue (slot g) acc.2).1, acc.2 + (slot g).psize)) ([], data)

/-- One round of the loop of `zio_gang_tree_issue` over a header's slots. -/
def issueStep (slot : ℕ → Bp) (acc : List (ℕ × ℕ × ℕ) × ℕ) (g : ℕ) : List (ℕ × ℕ × ℕ) × ℕ :=
  if (slot g).isHole then acc else (acc.1 ++ (gangTreeIssue (slot g) acc.2).1, acc.2 + (slot g).psize)

theorem gangTreeIssue_gang (p : ℕ) (slot : ℕ → Bp) (data : ℕ) :
    gangTreeIssue (.gang p slot) data = (List.range spaGbhNblkptrs).foldl (issueStep slot) ([], data) := by
  rw [gangTreeIssue]
  rfl

/-- The offset of member `g` in its header's data: the sizes of the members
before it. -/
def slotOffset (slot : ℕ → Bp) (g : ℕ) : ℕ := ((List.range g).map fun j => (slot j).psize).sum

/-- A block pointer of the write of the data from `off` is well formed: a data
block is written from `off` and is a positive multiple of 512 bytes; a gang
header has its members in its first `k` slots, `1 ≤ k ≤ SPA_GBH_NBLKPTRS`, and
holes after them, member `g` is well formed from `off + slotOffset slot g`,
and the members' sizes add up to the header's. -/
def Bp.Tiles : Bp → ℕ → Prop
  | hole, _ => False
  | data p s, off => s = off ∧ 0 < p ∧ p % spaMinblocksize = 0
  | gang p slot, off =>
    ∃ k, 0 < k ∧ k ≤ spaGbhNblkptrs ∧ (∀ g, k ≤ g → slot g = hole) ∧
      (∀ g < k, (slot g).Tiles (off + slotOffset slot g)) ∧ slotOffset slot k = p

/-! ## The split -/

section Split

variable {resid k : ℕ}

/-- One member of the split, for a positive multiple of 512 and at most three
slots left: a positive multiple of 512, not above what is left, and all of it
in the last slot; it does not wrap. -/
theorem lsize_bounds (hr0 : 0 < resid) (hr : resid % spaMinblocksize = 0) (hr64 : resid < 2 ^ 64)
    (hk0 : 0 < k) (hk : k ≤ spaGbhNblkptrs) :
    spaMinblocksize ≤ p2roundupTyped64 (resid / k) spaMinblocksize ∧
      p2roundupTyped64 (resid / k) spaMinblocksize ≤ resid ∧
      p2roundupTyped64 (resid / k) spaMinblocksize % spaMinblocksize = 0 ∧
      (k = 1 → p2roundupTyped64 (resid / k) spaMinblocksize = resid) := by
  rw [spaMinblocksize_eq] at hr ⊢
  rw [spaGbhNblkptrs_eq] at hk
  have hx : resid / k ≤ resid := Nat.div_le_self resid k
  have hx1 : 1 ≤ resid / k := (Nat.le_div_iff_mul_le hk0).mpr (by omega)
  have hk1 : k = 1 → resid / k = resid := fun h => by rw [h, Nat.div_one]
  simp only [p2roundupTyped64, p2roundup]
  omega

/-- The split of a multiple of 512 into at most `n ≤ SPA_GBH_NBLKPTRS`
members, each a positive multiple of 512, that add up to it. -/
theorem gangSizes_spec :
    ∀ (n resid : ℕ), n ≤ spaGbhNblkptrs → resid % spaMinblocksize = 0 → resid < 2 ^ 64 →
      (0 < resid → 0 < n) →
      ∃ sizes, gangSizes n resid = some sizes ∧ sizes.length ≤ n ∧
        (∀ l ∈ sizes, 0 < l ∧ l % spaMinblocksize = 0) ∧ sizes.sum = resid
  | _, 0, _, _, _, _ => ⟨[], by cases ‹ℕ› <;> rfl, Nat.zero_le _, by simp, rfl⟩
  | 0, r + 1, _, _, _, hn => absurd (hn (Nat.succ_pos r)) (Nat.lt_irrefl 0)
  | n + 1, r + 1, hn, hr, hr64, _ => by
    obtain ⟨hlo, hhi, hmod, hlast⟩ :=
      lsize_bounds (Nat.succ_pos r) hr hr64 (Nat.succ_pos n) hn
    have hm : spaMinblocksize = 512 := spaMinblocksize_eq
    have hgs : gangSizes (n + 1) (r + 1) =
        (gangSizes n ((r + 1 + 2 ^ 64 - p2roundupTyped64 ((r + 1) / (n + 1)) spaMinblocksize) %
          2 ^ 64)).map (p2roundupTyped64 ((r + 1) / (n + 1)) spaMinblocksize :: ·) := rfl
    rw [hgs]
    generalize p2roundupTyped64 ((r + 1) / (n + 1)) spaMinblocksize = l at hlo hhi hmod hlast ⊢
    rw [hm] at hr hmod hlo
    have hsub : (r + 1 + 2 ^ 64 - l) % 2 ^ 64 = r + 1 - l := by omega
    obtain ⟨sizes, hs, hlen, hall, hsum⟩ :=
      gangSizes_spec n (r + 1 - l) (by omega) (by rw [hm]; omega) (by omega) fun hpos => by
        rcases n with _ | n
        · have := hlast rfl
          omega
        · exact Nat.succ_pos n
    refine ⟨l :: sizes, ?_, by simp only [List.length_cons]; omega, ?_, ?_⟩
    · rw [hsub, hs, Option.map_some]
    · intro x hx
      rcases List.mem_cons.mp hx with rfl | hx
      · exact ⟨by omega, by rw [hm]; exact hmod⟩
      · exact hall x hx
    · rw [List.sum_cons, hsum]
      omega

end Split

/-! ## Every write -/

/-- `mapM` over `0, ..., n - 1` in `Option` succeeds when every call does,
with their results in order. -/
theorem mapM_range_some {α : Type*} (f : ℕ → Option α) :
    ∀ n, (∀ g < n, (f g).isSome) →
      ∃ l : List α, (List.range n).mapM f = some l ∧ l.length = n ∧ ∀ g < n, f g = l[g]?
  | 0, _ => ⟨[], rfl, rfl, fun _ h => absurd h (Nat.not_lt_zero _)⟩
  | n + 1, hf => by
    obtain ⟨l, hl, hlen, hget⟩ := mapM_range_some f n fun g hg => hf g (by omega)
    obtain ⟨x, hx⟩ := Option.isSome_iff_exists.mp (hf n (Nat.lt_succ_self n))
    refine ⟨l ++ [x], ?_, by simp [hlen], fun g hg => ?_⟩
    · rw [List.range_succ, List.mapM_append, hl]
      simp [hx]
    · rcases Nat.lt_succ_iff_lt_or_eq.mp hg with hg | rfl
      · rw [List.getElem?_append_left (by omega), hget g hg]
      · rw [List.getElem?_append_right (by omega), hlen, Nat.sub_self]
        simpa using hx

theorem slotOffset_succ (slot : ℕ → Bp) (g : ℕ) :
    slotOffset slot (g + 1) = slotOffset slot g + (slot g).psize := by
  simp [slotOffset, List.range_succ]

/-- The offsets of the members are the sums of the sizes the split chose
before them. -/
theorem slotOffset_eq_sum_take {slot : ℕ → Bp} {sizes : List ℕ}
    (hp : ∀ g < sizes.length, (slot g).psize = sizes.getD g 0) :
    ∀ g ≤ sizes.length, slotOffset slot g = (sizes.take g).sum
  | 0, _ => rfl
  | g + 1, hg => by
    rw [slotOffset_succ, slotOffset_eq_sum_take hp g (by omega), List.sum_take_succ _ _ (by omega),
      hp g (by omega), List.getD_eq_getElem _ _ (by omega)]

theorem Bp.Tiles.isHole {bp : Bp} {off : ℕ} (h : bp.Tiles off) : bp.isHole = false := by
  cases bp with
  | hole => exact h.elim
  | data => rfl
  | gang => rfl

/-- For every pattern of failed allocations, the write of a positive multiple
of 512 bytes succeeds and builds a well-formed tree of that size. -/
theorem writeGang_spec :
    ∀ (pat : AllocPattern) (off size : ℕ), 0 < size → size % spaMinblocksize = 0 → size < 2 ^ 64 →
      ∃ bp, writeGang pat off size = some bp ∧ bp.psize = size ∧ bp.Tiles off
  | .alloc, _, _, h0, hm, _ => ⟨_, rfl, rfl, rfl, h0, hm⟩
  | .gang member, off, size, h0, hm, h64 => by
    obtain ⟨sizes, hs, hlen, hall, hsum⟩ :=
      gangSizes_spec spaGbhNblkptrs size le_rfl hm h64 fun _ => by decide
    have hget : ∀ g < sizes.length, sizes.getD g 0 ∈ sizes := fun g hg => by
      rw [List.getD_eq_getElem _ _ hg]
      exact List.getElem_mem hg
    -- each member's write succeeds, by the induction on the pattern
    have hmem : ∀ g < sizes.length, ∃ bp,
        writeGang (member g) (off + (sizes.take g).sum) (sizes.getD g 0) = some bp ∧
          bp.psize = sizes.getD g 0 ∧ bp.Tiles (off + (sizes.take g).sum) := fun g hg =>
      have hl := hall _ (hget g hg)
      have hle : sizes.getD g 0 ≤ size := hsum ▸ List.le_sum_of_mem (hget g hg)
      writeGang_spec (member g) _ _ hl.1 hl.2 (by omega)
    obtain ⟨kids, hk, hklen, hkget⟩ := mapM_range_some
        (fun g => writeGang (member g) (off + (sizes.take g).sum) (sizes.getD g 0)) sizes.length
        fun g hg => by
      obtain ⟨bp, h, -⟩ := hmem g hg
      rw [h]
      rfl
    have hslot : ∀ g < sizes.length, (kids.getD g .hole).psize = sizes.getD g 0 ∧
        (kids.getD g .hole).Tiles (off + (sizes.take g).sum) := fun g hg => by
      obtain ⟨bp, h, hp, ht⟩ := hmem g hg
      have hkid : kids.getD g .hole = bp := by
        have := hkget g hg
        rw [h, List.getElem?_eq_getElem (by omega)] at this
        rw [List.getD_eq_getElem _ _ (by omega)]
        exact (Option.some.inj this).symm
      rw [hkid]
      exact ⟨hp, ht⟩
    have hoff := @slotOffset_eq_sum_take (fun g => kids.getD g .hole) sizes fun g hg => (hslot g hg).1
    refine ⟨.gang size fun g => kids.getD g .hole, ?_, rfl, ?_⟩
    · simp only [writeGang, hs, Option.bind_some, hk, Option.map_some]
    · refine ⟨sizes.length, ?_, hlen, fun g hg => ?_, fun g hg => ?_, ?_⟩
      · rcases sizes with _ | ⟨l, sizes⟩
        · simp at hsum
          omega
        · exact Nat.succ_pos _
      · exact List.getD_eq_default _ _ (by omega)
      · rw [hoff g hg.le]
        exact (hslot g hg).2
      · rw [hoff _ le_rfl, List.take_length, hsum]

/-- A write that gangs builds a gang header of the write's size. -/
theorem writeGang_gang {member : ℕ → AllocPattern} {off size : ℕ} {bp : Bp}
    (hw : writeGang (.gang member) off size = some bp) : ∃ slot, bp = .gang size slot := by
  obtain ⟨sizes, -, hw⟩ := Option.bind_eq_some_iff.mp hw
  obtain ⟨kids, -, rfl⟩ := Option.map_eq_some_iff.mp hw
  exact ⟨_, rfl⟩

/-! ## Every read -/

section Read

variable {slot : ℕ → Bp} {k : ℕ}

/-- The loop of `zio_gang_tree_issue` over a header whose first `k` slots are
members and whose others are holes: the members' reads, each at the data
pointer moved on by the members before it. -/
theorem foldl_issueStep (hhole : ∀ g, k ≤ g → slot g = .hole)
    (hnh : ∀ g < k, (slot g).isHole = false) (data : ℕ) :
    ∀ n, (List.range n).foldl (issueStep slot) ([], data) =
      (((List.range (min n k)).map fun g => (gangTreeIssue (slot g) (data + slotOffset slot g)).1).flatten,
        data + slotOffset slot (min n k))
  | 0 => by simp [slotOffset]
  | n + 1 => by
    rw [List.range_succ, List.foldl_append, foldl_issueStep hhole hnh data n, List.foldl_cons,
      List.foldl_nil]
    by_cases hn : n < k
    · have hmin : min (n + 1) k = min n k + 1 := by omega
      have hmin' : min n k = n := by omega
      rw [issueStep, if_neg (by rw [hnh n hn]; decide), hmin, List.range_succ, List.map_append,
        List.flatten_append, slotOffset_succ, hmin']
      simp [Nat.add_assoc]
    · have hmin : min (n + 1) k = min n k := by omega
      rw [issueStep, if_pos (by rw [hhole n (by omega)]; rfl), hmin]

/-- The data blocks under a header are those under its first `k` slots, the
others being holes. -/
theorem leaves_flatten (hhole : ∀ g, k ≤ g → slot g = .hole) :
    ∀ n, ((List.range n).map fun g => (slot g).leaves).flatten =
      ((List.range (min n k)).map fun g => (slot g).leaves).flatten
  | 0 => by simp
  | n + 1 => by
    rw [List.range_succ, List.map_append, List.flatten_append, leaves_flatten hhole n]
    by_cases hn : n < k
    · rw [show min (n + 1) k = min n k + 1 by omega, List.range_succ, List.map_append,
        List.flatten_append, show min n k = n by omega]
    · rw [show min (n + 1) k = min n k by omega]
      simp [hhole n (by omega), Bp.leaves]

end Read

/-- The read of a well-formed tree issues a read for every data block under
it, in order, into the offset it was written from. -/
theorem gangTreeIssue_reads :
    ∀ (bp : Bp) (off : ℕ), bp.Tiles off →
      (gangTreeIssue bp off).1 = bp.leaves.map fun x => (x.1, x.2, x.1)
  | .hole, _, h => h.elim
  | .data _ _, _, ⟨rfl, _, _⟩ => rfl
  | .gang p slot, off, ⟨k, _, hk, hhole, hkids, _⟩ => by
    have hnh : ∀ g < k, (slot g).isHole = false := fun g hg => (hkids g hg).isHole
    rw [gangTreeIssue_gang, foldl_issueStep hhole hnh off, Bp.leaves, leaves_flatten hhole,
      min_eq_right hk, List.map_flatten, List.map_map]
    dsimp only
    congr 1
    apply List.map_congr_left
    intro g hg
    exact gangTreeIssue_reads (slot g) _ (hkids g (List.mem_range.mp hg))

/-- The read of a well-formed gang header ends its data pointer at the end of
the header's data: the `ASSERT3P` of `zio_gang_tree_issue`. -/
theorem gangTreeIssue_end {p : ℕ} {slot : ℕ → Bp} {off : ℕ} (h : (Bp.gang p slot).Tiles off) :
    (gangTreeIssue (.gang p slot) off).2 = off + p := by
  obtain ⟨k, _, hk, hhole, hkids, hsum⟩ := h
  rw [gangTreeIssue_gang, foldl_issueStep hhole (fun g hg => (hkids g hg).isHole) off,
    min_eq_right hk, hsum]

/-- Blocks, each as an offset and a size, that lie one after the other from
`off` and cover `size` bytes. -/
def Consecutive : List (ℕ × ℕ) → ℕ → ℕ → Prop
  | [], _, size => size = 0
  | (s, p) :: ls, off, size => s = off ∧ p ≤ size ∧ Consecutive ls (off + p) (size - p)

theorem Consecutive.append :
    ∀ {l₁ : List (ℕ × ℕ)} {off a b : ℕ} {l₂ : List (ℕ × ℕ)},
      Consecutive l₁ off a → Consecutive l₂ (off + a) b → Consecutive (l₁ ++ l₂) off (a + b)
  | [], off, a, b, l₂, h₁, h₂ => by
    cases h₁
    simpa using h₂
  | (s, p) :: l₁, off, a, b, l₂, ⟨hs, hp, h₁⟩, h₂ => by
    refine ⟨hs, by omega, ?_⟩
    have := Consecutive.append h₁ (by rwa [show off + p + (a - p) = off + a by omega])
    rwa [show a - p + b = a + b - p by omega] at this

/-- The data blocks under a well-formed tree lie one after the other and
cover its data. -/
theorem Bp.Tiles.consecutive : ∀ {bp : Bp} {off : ℕ}, bp.Tiles off → Consecutive bp.leaves off bp.psize
  | .hole, _, h => h.elim
  | .data _ _, _, ⟨rfl, _, _⟩ => ⟨rfl, le_rfl, Nat.sub_self _⟩
  | .gang p slot, off, ⟨k, _, hk, hhole, hkids, hsum⟩ => by
    rw [Bp.leaves, leaves_flatten hhole, min_eq_right hk]
    show Consecutive _ off p
    rw [← hsum]
    -- the members one after the other, each from its slot's offset
    have hrun : ∀ n ≤ k, Consecutive ((List.range n).map fun g => (slot g).leaves).flatten off
        (slotOffset slot n) := by
      intro n
      induction n with
      | zero => intro _; rfl
      | succ n ih =>
        intro hn
        rw [List.range_succ, List.map_append, List.flatten_append, slotOffset_succ]
        simpa using (ih (by omega)).append (hkids n (by omega)).consecutive
    exact hrun k le_rfl

/-- A gang write and its read: for every pattern of failed allocations that
makes `zio_write_gang_block` run for a write of a positive multiple of 512
bytes, each header has one to `SPA_GBH_NBLKPTRS` members in its first slots,
the members are positive multiples of 512 that tile the header's data in
order, the data blocks tile the write's data, and the read issues a read for
every data block, in order, into the offset it was written from, ending at the
end of the data. -/
theorem gang_write_read (member : ℕ → AllocPattern) (off size : ℕ) (h0 : 0 < size)
    (hm : size % spaMinblocksize = 0) (h64 : size < 2 ^ 64) :
    ∃ bp, writeGang (.gang member) off size = some bp ∧ bp.Tiles off ∧
      Consecutive bp.leaves off size ∧
      (gangTreeIssue bp off).1 = bp.leaves.map (fun x => (x.1, x.2, x.1)) ∧
      (gangTreeIssue bp off).2 = off + size := by
  obtain ⟨bp, hw, hp, ht⟩ := writeGang_spec (.gang member) off size h0 hm h64
  refine ⟨bp, hw, ht, hp ▸ ht.consecutive, gangTreeIssue_reads bp off ht, ?_⟩
  obtain ⟨slot, rfl⟩ := writeGang_gang hw
  exact gangTreeIssue_end ht

/-- Two levels of gang headers over 4 KiB: the top header splits it into
1536, 1536 and 1024 bytes, and each member gangs again. -/
theorem gang_write_read_4096 :
    ∃ bp, writeGang (.gang fun _ => .gang fun _ => .alloc) 0 4096 = some bp ∧ bp.Tiles 0 ∧
      Consecutive bp.leaves 0 4096 ∧
      (gangTreeIssue bp 0).1 = bp.leaves.map (fun x => (x.1, x.2, x.1)) ∧
      (gangTreeIssue bp 0).2 = 0 + 4096 :=
  gang_write_read (fun _ => .gang fun _ => .alloc) 0 4096 (by decide) (by decide) (by decide)

end ZfsOsx.Zio
