import Mathlib
import ZfsOsx.Lib.Buffer

/-!
# I/O aggregation in the vdev queue (`module/zfs/vdev_queue.c`)

Queued zios sit in two AVL trees at once: the deadline tree, ordered by
deadline, offset and address, and the offset tree of their type (reads or
writes), ordered by offset and address. `vdev_queue_io_to_issue` takes the
first zio of the deadline tree and, unless it must not be aggregated, grows a
range around it in its offset tree. It walks backwards and then forwards over
neighbours that carry the same `ZIO_FLAG_AGG_INHERIT` flags, stay within the
aggregation limit and leave gaps no larger than the read gap limit (none for
writes). It then trims optional zios from both ends, unless a later
non-optional write justifies keeping the trailing ones ("stretch"), and issues
the range as one delegated zio with a buffer that holds the writes' data at
their offsets. A range of one zio is issued as it is, or dropped when it has
no data, and then the function starts over.

A tree is modelled by its in-order list, so that `AVL_PREV` and `AVL_NEXT`
are the neighbours in that list (`Avl.Neighbours` proves this of the AVL
code). The walks run over the zios in front of and behind the deadline-first
zio; `IO_SPAN` and `IO_GAP` are computed in uint64 arithmetic.

Results:
* `ioToIssueOnce_agg`: an aggregate's constituents are a block of one offset
  tree with equal `AGG_INHERIT` flags, at least two of them. The aggregate
  starts at the first, spans `IO_SPAN(fio, lio)` within the aggregation limit,
  and covers them all. Write constituents follow each other with no gap, and
  each one's data, or zeros for `NODATA`, lies at its offset in the buffer.
  The constituents leave both trees and the aggregate is pending.
* `ioToIssueOnce_single`, `ioToIssueOnce_discard`, `ioToIssueOnce_null`: a
  range of one zio is issued when it has data and dropped when it has none,
  and a pass returns NULL only when too many zios are pending or none is
  queued. Every pass keeps the queue's invariant, so the trees stay in
  agreement.
* `vdev_queue_aggregate_correct`: the whole function, `goto again`
  included, ends: every drop shortens the deadline tree. After the drops it
  returns NULL, a single queued zio or such an aggregate.
* `aggIoDone_read`: a read aggregate hands every constituent the bytes of its
  own range.
-/
namespace ZfsOsx.Queue

/-- ZIO_FLAG_DONT_AGGREGATE, ZIO_FLAG_CANFAIL, ZIO_FLAG_DONT_CACHE,
ZIO_FLAG_NODATA, ZIO_FLAG_OPTIONAL and ZIO_FLAG_DONT_QUEUE (sys/zio.h:154-190). -/
def zioFlagDontAggregate : ℕ := 1 <<< 0
def zioFlagCanfail : ℕ := 1 <<< 6
def zioFlagDontCache : ℕ := 1 <<< 10
def zioFlagNodata : ℕ := 1 <<< 11
def zioFlagOptional : ℕ := 1 <<< 16
def zioFlagDontQueue : ℕ := 1 <<< 17

/-- ZIO_FLAG_AGG_INHERIT: the flags below ZIO_FLAG_CANFAIL, which an
aggregate inherits and all its constituents share. -/
def zioFlagAggInherit : ℕ := zioFlagCanfail - 1

/-- SPA_MAXBLOCKSIZE, the size of an aggregation buffer. -/
def spaMaxblocksize : ℕ := 1 <<< 17

/-- zfs_vdev_aggregation_limit, zfs_vdev_read_gap_limit and
zfs_vdev_write_gap_limit (vdev_queue.c:55-57), with their defaults. -/
structure Tunables where
  aggregationLimit : ℕ := spaMaxblocksize
  readGapLimit : ℕ := 32 <<< 10
  writeGapLimit : ℕ := 4 <<< 10

/-- A queued zio: the fields the queue reads. `id` is its address, which
breaks ties in both comparators; `isWrite` is its type, which also decides
its offset tree. -/
structure Zio where
  id : ℕ
  offset : ℕ
  size : ℕ
  flags : ℕ
  isWrite : Bool
  deadline : ℕ
  data : List UInt8
  deriving DecidableEq, Repr

namespace Zio

/-- io_flags & ZIO_FLAG_AGG_INHERIT -/
def aggFlags (z : Zio) : ℕ := z.flags &&& zioFlagAggInherit

/-- io_flags & ZIO_FLAG_OPTIONAL -/
def optional (z : Zio) : Bool := z.flags &&& zioFlagOptional ≠ 0

/-- io_flags & ZIO_FLAG_NODATA -/
def nodata (z : Zio) : Bool := z.flags &&& zioFlagNodata ≠ 0

end Zio

/-- IO_SPAN(fio, lio) (vdev_queue.c:194): from the start of `fio` to the end
of `lio`, in uint64 arithmetic. -/
def ioSpan (fio lio : Zio) : ℕ := (lio.offset + lio.size + 2 ^ 64 - fio.offset) % 2 ^ 64

/-- IO_GAP(fio, lio) (vdev_queue.c:195): the negated span of the pair taken
the other way, from the end of `fio` to the start of `lio`. -/
def ioGap (fio lio : Zio) : ℕ := (2 ^ 64 - ioSpan lio fio) % 2 ^ 64

/-- vdev_queue_offset_compare (vdev_queue.c:86-102) as a strict order. -/
def offsetLt (a b : Zio) : Prop := a.offset < b.offset ∨ a.offset = b.offset ∧ a.id < b.id

/-- vdev_queue_deadline_compare (vdev_queue.c:62-84) as a strict order. -/
def deadlineLt (a b : Zio) : Prop :=
  a.deadline < b.deadline ∨ a.deadline = b.deadline ∧ offsetLt a b

instance : DecidableRel offsetLt := fun _ _ => inferInstanceAs (Decidable (_ ∨ _))

instance : DecidableRel deadlineLt := fun _ _ => inferInstanceAs (Decidable (_ ∨ _))

/-- The trees of a vdev_queue_t, each as its in-order list. The pending tree
is kept as the list of its members: only its size is read here. -/
structure VdevQueue where
  deadlineTree : List Zio
  readTree : List Zio
  writeTree : List Zio
  pendingTree : List Zio

namespace VdevQueue

/-- zio->io_vdev_tree for a zio of the type `isWrite`. -/
def tree (vq : VdevQueue) (isWrite : Bool) : List Zio :=
  if isWrite then vq.writeTree else vq.readTree

/-- mirrors vdev_queue_io_remove (vdev_queue.c:164-169): the zio leaves the
deadline tree and its offset tree. -/
@[grind] def ioRemove (vq : VdevQueue) (z : Zio) : VdevQueue where
  deadlineTree := vq.deadlineTree.filter (·.id ≠ z.id)
  readTree := if z.isWrite then vq.readTree else vq.readTree.filter (·.id ≠ z.id)
  writeTree := if z.isWrite then vq.writeTree.filter (·.id ≠ z.id) else vq.writeTree
  pendingTree := vq.pendingTree

variable {vq : VdevQueue} {z : Zio}

@[simp] theorem ioRemove_deadlineTree :
    (vq.ioRemove z).deadlineTree = vq.deadlineTree.filter (·.id ≠ z.id) := rfl

@[simp] theorem ioRemove_pendingTree : (vq.ioRemove z).pendingTree = vq.pendingTree := rfl

@[simp] theorem foldl_ioRemove_pendingTree (cs : List Zio) :
    (cs.foldl ioRemove vq).pendingTree = vq.pendingTree := by
  induction cs generalizing vq with
  | nil => rfl
  | cons c cs ih =>
    rw [List.foldl_cons, ih]
    rfl

theorem ioRemove_tree_self :
    (vq.ioRemove z).tree z.isWrite = (vq.tree z.isWrite).filter (·.id ≠ z.id) := by
  cases h : z.isWrite <;> simp [ioRemove, tree, h]

theorem ioRemove_tree_other : (vq.ioRemove z).tree (!z.isWrite) = vq.tree (!z.isWrite) := by
  cases h : z.isWrite <;> simp [ioRemove, tree, h]

/-- The zio at address `id` with ZIO_FLAG_OPTIONAL cleared in place, as both
trees see it (vdev_queue.c:306). -/
def clearOptional (vq : VdevQueue) (id : ℕ) : VdevQueue :=
  let clear (z : Zio) : Zio :=
    if z.id = id then { z with flags := z.flags &&& (2 ^ 32 - 1 ^^^ zioFlagOptional) } else z
  { vq with
    deadlineTree := vq.deadlineTree.map clear
    readTree := vq.readTree.map clear
    writeTree := vq.writeTree.map clear }

@[simp] theorem clearOptional_pendingTree (id : ℕ) : (vq.clearOptional id).pendingTree = vq.pendingTree :=
  rfl

/-- Clearing a flag in place moves no zio: every tree keeps its addresses. -/
theorem clearOptional_ids (id : ℕ) :
    (vq.clearOptional id).deadlineTree.map Zio.id = vq.deadlineTree.map Zio.id ∧
      ∀ w, ((vq.clearOptional id).tree w).map Zio.id = (vq.tree w).map Zio.id := by
  have hid : ∀ l : List Zio, (l.map fun z : Zio =>
      if z.id = id then { z with flags := z.flags &&& (2 ^ 32 - 1 ^^^ zioFlagOptional) } else z).map
        Zio.id = l.map Zio.id := by
    intro l
    rw [List.map_map]
    exact List.map_congr_left fun z _ => by
      simp only [Function.comp_apply]
      split_ifs <;> rfl
  refine ⟨hid _, fun w => ?_⟩
  cases w
  · exact hid vq.readTree
  · exact hid vq.writeTree

end VdevQueue

section Inv

/-- The queue's trees as vdev_queue_io_add and vdev_queue_io_remove keep
them: every queued zio is in the deadline tree and in the offset tree of its
type, each tree in its comparator's order, the zios of one offset tree do
not overlap, none reaches past 2^64, and no address is queued twice. -/
structure QueueInv (vq : VdevQueue) : Prop where
  perm : vq.deadlineTree.Perm (vq.readTree ++ vq.writeTree)
  deadline_sorted : vq.deadlineTree.Pairwise deadlineLt
  sorted : ∀ w, (vq.tree w).Pairwise offsetLt
  disjoint : ∀ w, (vq.tree w).Pairwise fun a b => a.offset + a.size ≤ b.offset
  type : ∀ w, ∀ z ∈ vq.tree w, z.isWrite = w
  ends : ∀ z ∈ vq.deadlineTree, z.offset + z.size < 2 ^ 64
  ids : (vq.deadlineTree.map Zio.id).Nodup

variable {vq : VdevQueue}

@[simp] theorem VdevQueue.tree_true (vq : VdevQueue) : vq.tree true = vq.writeTree := rfl

@[simp] theorem VdevQueue.tree_false (vq : VdevQueue) : vq.tree false = vq.readTree := rfl

namespace QueueInv

/-- A zio of an offset tree is queued. -/
theorem mem_deadline (hq : QueueInv vq) {w : Bool} {z : Zio} (hz : z ∈ vq.tree w) :
    z ∈ vq.deadlineTree := by
  refine hq.perm.symm.subset (List.mem_append.2 ?_)
  cases w
  · exact .inl hz
  · exact .inr hz

/-- A queued zio is in the offset tree of its type. -/
theorem mem_tree (hq : QueueInv vq) {z : Zio} (hz : z ∈ vq.deadlineTree) : z ∈ vq.tree z.isWrite := by
  rcases List.mem_append.1 (hq.perm.subset hz) with h | h
  · rw [hq.type false z h]
    exact h
  · rw [hq.type true z h]
    exact h

theorem ends_tree (hq : QueueInv vq) {w : Bool} {z : Zio} (hz : z ∈ vq.tree w) :
    z.offset + z.size < 2 ^ 64 :=
  hq.ends z (hq.mem_deadline hz)

/-- No address is twice in an offset tree. -/
theorem tree_ids (hq : QueueInv vq) (w : Bool) : ((vq.tree w).map Zio.id).Nodup := by
  have h := (hq.perm.map Zio.id).nodup_iff.1 hq.ids
  rw [List.map_append] at h
  cases w
  · exact h.of_append_left
  · exact h.of_append_right

/-- The queue with every tree filtered by `p` keeps the invariant. -/
theorem filter (hq : QueueInv vq) (p : Zio → Bool) :
    QueueInv { vq with
      deadlineTree := vq.deadlineTree.filter p
      readTree := vq.readTree.filter p
      writeTree := vq.writeTree.filter p } where
  perm := by
    rw [← List.filter_append]
    exact hq.perm.filter p
  deadline_sorted := hq.deadline_sorted.filter p
  sorted w := by
    cases w
    · exact (hq.sorted false).filter p
    · exact (hq.sorted true).filter p
  disjoint w := by
    cases w
    · exact (hq.disjoint false).filter p
    · exact (hq.disjoint true).filter p
  type w z hz := by
    cases w
    · exact hq.type false z (List.mem_of_mem_filter hz)
    · exact hq.type true z (List.mem_of_mem_filter hz)
  ends z hz := hq.ends z (List.mem_of_mem_filter hz)
  ids := hq.ids.sublist ((List.filter_sublist).map Zio.id)

/-- The queue with every zio changed by `f` in place, where `f` keeps what the
comparators and the invariant read, keeps the invariant. -/
theorem map (hq : QueueInv vq) (f : Zio → Zio)
    (hf : ∀ z, (f z).offset = z.offset ∧ (f z).size = z.size ∧ (f z).id = z.id ∧
      (f z).deadline = z.deadline ∧ (f z).isWrite = z.isWrite) :
    QueueInv { vq with
      deadlineTree := vq.deadlineTree.map f
      readTree := vq.readTree.map f
      writeTree := vq.writeTree.map f } where
  perm := by
    rw [← List.map_append]
    exact hq.perm.map f
  deadline_sorted := hq.deadline_sorted.map f fun a b h => by
    simpa [deadlineLt, offsetLt, (hf a).1, (hf b).1, (hf a).2.2.1, (hf b).2.2.1, (hf a).2.2.2.1,
      (hf b).2.2.2.1] using h
  sorted w := by
    have hmap : ((vq.tree w).map f).Pairwise offsetLt := (hq.sorted w).map f fun a b h => by
      simpa [offsetLt, (hf a).1, (hf b).1, (hf a).2.2.1, (hf b).2.2.1] using h
    cases w <;> exact hmap
  disjoint w := by
    have hmap : ((vq.tree w).map f).Pairwise fun a b => a.offset + a.size ≤ b.offset :=
      (hq.disjoint w).map f fun a b h => by simpa [(hf a).1, (hf b).1, (hf a).2.1] using h
    cases w <;> exact hmap
  type w z hz := by
    have hmem : z ∈ (vq.tree w).map f := by cases w <;> exact hz
    obtain ⟨y, hy, rfl⟩ := List.mem_map.1 hmem
    rw [(hf y).2.2.2.2]
    exact hq.type w y hy
  ends z hz := by
    obtain ⟨y, hy, rfl⟩ := List.mem_map.1 hz
    rw [(hf y).1, (hf y).2.1]
    exact hq.ends y hy
  ids := by
    rw [List.map_map, show Zio.id ∘ f = Zio.id from funext fun z => (hf z).2.2.1]
    exact hq.ids

/-- Removing a queued zio keeps the invariant: its address is in no other
tree, so vdev_queue_io_remove is a filter of all three. -/
theorem ioRemove (hq : QueueInv vq) {z : Zio} (hz : z.id ∈ (vq.tree z.isWrite).map Zio.id) :
    QueueInv (vq.ioRemove z) := by
  -- the other offset tree holds no zio at z's address
  have hother : ∀ y ∈ vq.tree (!z.isWrite), y.id ≠ z.id := by
    intro y hy heq
    have hnd := (hq.perm.map Zio.id).nodup_iff.1 hq.ids
    rw [List.map_append] at hnd
    have hmy : y.id ∈ (vq.tree (!z.isWrite)).map Zio.id := List.mem_map_of_mem hy
    cases hw : z.isWrite
    · simp only [hw, Bool.not_false, VdevQueue.tree_true, VdevQueue.tree_false] at hmy hz
      exact (List.nodup_append.1 hnd).2.2 _ hz _ hmy heq.symm
    · simp only [hw, Bool.not_true, VdevQueue.tree_true, VdevQueue.tree_false] at hmy hz
      exact (List.nodup_append.1 hnd).2.2 _ hmy _ hz heq
  have heq : vq.ioRemove z = { vq with
      deadlineTree := vq.deadlineTree.filter (·.id ≠ z.id)
      readTree := vq.readTree.filter (·.id ≠ z.id)
      writeTree := vq.writeTree.filter (·.id ≠ z.id) } := by
    cases hw : z.isWrite
    · simp only [hw, Bool.not_false, VdevQueue.tree_true] at hother
      have hkeep : vq.writeTree.filter (fun x => !decide (x.id = z.id)) = vq.writeTree :=
        List.filter_eq_self.2 fun y hy => by simpa using hother y hy
      simp [VdevQueue.ioRemove, hw, hkeep]
    · simp only [hw, Bool.not_true, VdevQueue.tree_false] at hother
      have hkeep : vq.readTree.filter (fun x => !decide (x.id = z.id)) = vq.readTree :=
        List.filter_eq_self.2 fun y hy => by simpa using hother y hy
      simp [VdevQueue.ioRemove, hw, hkeep]
  rw [heq]
  exact hq.filter _

theorem pending (hq : QueueInv vq) (ps : List Zio) : QueueInv { vq with pendingTree := ps } :=
  ⟨hq.perm, hq.deadline_sorted, hq.sorted, hq.disjoint, hq.type, hq.ends, hq.ids⟩

theorem clearOptional (hq : QueueInv vq) (id : ℕ) : QueueInv (vq.clearOptional id) := by
  unfold VdevQueue.clearOptional
  dsimp only
  exact hq.map _ fun z => by split_ifs <;> simp

/-- Removing queued zios of one type, one after the other, keeps the
invariant and takes exactly their addresses out of the deadline tree and of
their offset tree. -/
theorem foldl_ioRemove (hq : QueueInv vq) {w : Bool} (cs : List Zio)
    (hmem : ∀ c ∈ cs, c.isWrite = w ∧ c.id ∈ (vq.tree w).map Zio.id) (hnd : (cs.map Zio.id).Nodup) :
      QueueInv (cs.foldl VdevQueue.ioRemove vq) ∧
      (cs.foldl VdevQueue.ioRemove vq).deadlineTree = vq.deadlineTree.filter (·.id ∉ cs.map Zio.id) ∧
      (cs.foldl VdevQueue.ioRemove vq).tree w = (vq.tree w).filter (·.id ∉ cs.map Zio.id) ∧
      (cs.foldl VdevQueue.ioRemove vq).tree (!w) = vq.tree (!w) := by
  induction cs generalizing vq with
  | nil => simp [hq, List.filter_true]
  | cons c cs ih =>
    obtain ⟨hw, hc⟩ := hmem c (by simp)
    have hnd' := List.nodup_cons.1 (List.map_cons ▸ hnd)
    -- the rest is still queued after c left
    have hrest : ∀ d ∈ cs, d.isWrite = w ∧ d.id ∈ ((vq.ioRemove c).tree w).map Zio.id := by
      intro d hd
      obtain ⟨hdw, hdid⟩ := hmem d (List.mem_cons_of_mem _ hd)
      have hne : d.id ≠ c.id := fun h => hnd'.1 (h ▸ List.mem_map_of_mem hd)
      refine ⟨hdw, ?_⟩
      rw [← hw, VdevQueue.ioRemove_tree_self, hw]
      obtain ⟨y, hy, hyd⟩ := List.mem_map.1 hdid
      exact List.mem_map.2 ⟨y, List.mem_filter.2 ⟨hy, by simpa [hyd] using hne⟩, hyd⟩
    obtain ⟨hinv, hdl, htree, hother⟩ := ih (hq.ioRemove (hw ▸ hc)) hrest hnd'.2
    have hfilter : ∀ l : List Zio, (l.filter (·.id ≠ c.id)).filter (·.id ∉ cs.map Zio.id) =
        l.filter (·.id ∉ (c :: cs).map Zio.id) := by
      intro l
      rw [List.filter_filter]
      exact List.filter_congr fun x _ => by
        by_cases h1 : x.id = c.id <;> by_cases h2 : x.id ∈ cs.map Zio.id <;> simp [h1, h2]
    refine ⟨hinv, ?_, ?_, ?_⟩
    · rw [List.foldl_cons, hdl, VdevQueue.ioRemove_deadlineTree, hfilter]
    · rw [List.foldl_cons, htree, ← hw, VdevQueue.ioRemove_tree_self, hfilter]
    · rw [List.foldl_cons, hother, ← hw, VdevQueue.ioRemove_tree_other]

end QueueInv

/-- In a tree where no address repeats, the tree is cut at a member by its
address: the zios in front of it, the member, and the zios behind it. -/
theorem split_at_id {x : Zio} :
    ∀ {l : List Zio}, (l.map Zio.id).Nodup → x ∈ l →
      l = l.takeWhile (·.id ≠ x.id) ++ x :: (l.dropWhile (·.id ≠ x.id)).tail
  | [], _, hx => absurd hx (by simp)
  | y :: l, hnd, hx => by
    by_cases hy : y.id = x.id
    · -- y is x: its address is in no other member
      have hyx : y = x := by
        rcases List.mem_cons.1 hx with h | h
        · exact h.symm
        · exact absurd (hy ▸ List.mem_map_of_mem h) (List.nodup_cons.1 hnd).1
      subst hyx
      simp
    · have hxl : x ∈ l := by
        rcases List.mem_cons.1 hx with h | h
        · exact absurd (h ▸ rfl) hy
        · exact h
      have ih := split_at_id (List.nodup_cons.1 hnd).2 hxl
      simp only [List.takeWhile_cons, List.dropWhile_cons, ne_eq, hy, not_false_eq_true,
        decide_true]
      exact congrArg (y :: ·) ih

end Inv

section Arith

variable {a b : Zio}

/-- Without wraparound, IO_SPAN is the distance from the start of `a` to the
end of `b`. -/
theorem ioSpan_eq (h : a.offset ≤ b.offset + b.size) (hb : b.offset + b.size < 2 ^ 64) :
    ioSpan a b = b.offset + b.size - a.offset := by
  unfold ioSpan
  omega

/-- For `a` in front of `b`, IO_GAP is the distance from the end of `a` to
the start of `b`: the unsigned negation does not wrap. -/
theorem ioGap_eq (h : a.offset + a.size ≤ b.offset) (hb : b.offset < 2 ^ 64) :
    ioGap a b = b.offset - (a.offset + a.size) := by
  unfold ioGap ioSpan
  omega

end Arith

section Walks

variable (flags maxspan maxgap : ℕ)

/-- The backward walk (vdev_queue.c:252-259): from `fio`, over the zios in
front of it nearest first, while the previous zio has the same flags, keeps
the span up to `lio` within the limit and leaves a gap within `maxgap`. It
returns the zios it took, nearest first, and `mio`. -/
def walkBack (lio : Zio) : Zio → List Zio → Option Zio → List Zio × Option Zio
  | _, [], mio => ([], mio)
  | fio, dio :: before, mio =>
    if dio.aggFlags = flags ∧ ioSpan dio lio ≤ maxspan ∧ ioGap dio fio ≤ maxgap then
      let r := walkBack lio dio before (if mio.isNone ∧ !dio.optional then some dio else mio)
      (dio :: r.1, r.2)
    else ([], mio)

/-- Skipping initial optional I/Os (vdev_queue.c:264-267) on the range from
fio to lio: fio != lio is a range of more than one zio. -/
def skipOptional : List Zio → List Zio
  | fio :: r :: rest => if fio.optional then skipOptional (r :: rest) else fio :: r :: rest
  | range => range

/-- The forward walk (vdev_queue.c:272-279): from `lio`, over the zios behind
it, while the next zio has the same flags, keeps the span from `fio` within
the limit and leaves a gap within `maxgap`; every non-optional zio taken
becomes `mio`. It returns the zios it took, in order, and `mio`. -/
def walkFwd (fio : Zio) : Zio → List Zio → Option Zio → List Zio × Option Zio
  | _, [], mio => ([], mio)
  | lio, dio :: after, mio =>
    if dio.aggFlags = flags ∧ ioSpan fio dio ≤ maxspan ∧ ioGap lio dio ≤ maxgap then
      let r := walkFwd fio dio after (if dio.optional then mio else some dio)
      (dio :: r.1, r.2)
    else ([], mio)

variable {flags maxspan maxgap}

/-- The backward walk takes a block of the zios in front of fio, each with
the flags, within the span limit up to lio, and within `maxgap` of the zio
behind it. -/
theorem walkBack_spec (lio : Zio) : ∀ (fio : Zio) (before : List Zio) (mio : Option Zio),
    (walkBack flags maxspan maxgap lio fio before mio).1 <+: before ∧
      (∀ d ∈ (walkBack flags maxspan maxgap lio fio before mio).1,
        d.aggFlags = flags ∧ ioSpan d lio ≤ maxspan) ∧
      (fio :: (walkBack flags maxspan maxgap lio fio before mio).1).IsChain
        (fun a b => ioGap b a ≤ maxgap)
  | fio, [], mio => by simp [walkBack]
  | fio, dio :: before, mio => by
    by_cases hok : dio.aggFlags = flags ∧ ioSpan dio lio ≤ maxspan ∧ ioGap dio fio ≤ maxgap
    · rw [walkBack, if_pos hok]
      have ih := walkBack_spec lio dio before
      refine ⟨List.cons_prefix_cons.2 ⟨rfl, (ih _).1⟩, ?_, List.IsChain.cons_cons hok.2.2 (ih _).2.2⟩
      rintro d (_ | ⟨_, hd⟩)
      · exact ⟨hok.1, hok.2.1⟩
      · exact (ih _).2.1 d hd
    · rw [walkBack, if_neg hok]
      simp

/-- The forward walk takes a block of the zios behind lio, each with the
flags, within the span limit from fio, and within `maxgap` of the zio in
front of it. -/
theorem walkFwd_spec (fio : Zio) : ∀ (lio : Zio) (after : List Zio) (mio : Option Zio),
    (walkFwd flags maxspan maxgap fio lio after mio).1 <+: after ∧
      (∀ d ∈ (walkFwd flags maxspan maxgap fio lio after mio).1,
        d.aggFlags = flags ∧ ioSpan fio d ≤ maxspan) ∧
      (lio :: (walkFwd flags maxspan maxgap fio lio after mio).1).IsChain
        (fun a b => ioGap a b ≤ maxgap)
  | lio, [], mio => by simp [walkFwd]
  | lio, dio :: after, mio => by
    by_cases hok : dio.aggFlags = flags ∧ ioSpan fio dio ≤ maxspan ∧ ioGap lio dio ≤ maxgap
    · rw [walkFwd, if_pos hok]
      have ih := walkFwd_spec fio dio after
      refine ⟨List.cons_prefix_cons.2 ⟨rfl, (ih _).1⟩, ?_, List.IsChain.cons_cons hok.2.2 (ih _).2.2⟩
      rintro d (_ | ⟨_, hd⟩)
      · exact ⟨hok.1, hok.2.1⟩
      · exact (ih _).2.1 d hd
    · rw [walkFwd, if_neg hok]
      simp

end Walks

/-- The stretch test (vdev_queue.c:292-301): behind `nio`, over adjacent
zios no further than the write gap limit from the end of `mio`, is there a
non-optional one? -/
def stretchWalk (writeGapLimit : ℕ) (mio : Zio) : Zio → List Zio → Bool
  | _, [] => false
  | nio, dio :: after =>
    if ioGap nio dio = 0 ∧ ioGap mio dio ≤ writeGapLimit then
      if dio.optional then stretchWalk writeGapLimit mio dio after else true
    else false

/-- Trimming trailing optional I/Os (vdev_queue.c:307-314) on the range read
from lio backwards: step back while lio is neither mio nor fio. -/
def trimOptional (mio : Option Zio) : List Zio → List Zio
  | lio :: r :: rest =>
    if mio.map Zio.id = some lio.id then lio :: r :: rest else trimOptional mio (r :: rest)
  | range => range

/-- Skipping optional zios keeps a non-empty tail of the range. -/
theorem skipOptional_suffix : ∀ l : List Zio, skipOptional l <:+ l ∧ (l ≠ [] → skipOptional l ≠ [])
  | [] => by simp [skipOptional]
  | [_] => by simp [skipOptional]
  | fio :: r :: rest => by
    unfold skipOptional
    split_ifs
    · obtain ⟨hsuf, hne⟩ := skipOptional_suffix (r :: rest)
      exact ⟨hsuf.trans (List.suffix_cons _ _), fun _ => hne (by simp)⟩
    · simp

/-- Trimming keeps a non-empty tail of the range read backwards. -/
theorem trimOptional_suffix (mio : Option Zio) :
    ∀ l : List Zio, trimOptional mio l <:+ l ∧ (l ≠ [] → trimOptional mio l ≠ [])
  | [] => by simp [trimOptional]
  | [_] => by simp [trimOptional]
  | lio :: r :: rest => by
    unfold trimOptional
    split_ifs
    · simp
    · obtain ⟨hsuf, hne⟩ := trimOptional_suffix mio (r :: rest)
      exact ⟨hsuf.trans (List.suffix_cons _ _), fun _ => hne (by simp)⟩

/-- The trailing optional zios (vdev_queue.c:281-315): with a non-optional
write close behind lio, the range keeps them and the zio behind lio loses
ZIO_FLAG_OPTIONAL; otherwise lio steps back to mio or to fio. -/
def stretchOrTrim (writeGapLimit : ℕ) (isWrite : Bool) (vq : VdevQueue) (range after : List Zio)
    (mio : Option Zio) : List Zio × VdevQueue :=
  let trimmed := ((trimOptional mio range.reverse).reverse, vq)
  match mio with
  | some m =>
    if isWrite ∧ stretchWalk writeGapLimit m (range.getLastD m) after then
      (range, match after with
        | dio :: _ => vq.clearOptional dio.id
        | [] => vq)
    else trimmed
  | none => trimmed

/-- Whatever the stretch step decides, the range is a non-empty front part of
what the walks found, and at most one zio loses ZIO_FLAG_OPTIONAL. -/
theorem stretchOrTrim_spec (writeGapLimit : ℕ) (isWrite : Bool) (vq : VdevQueue)
    (range after : List Zio) (mio : Option Zio) (hne : range ≠ []) :
    (stretchOrTrim writeGapLimit isWrite vq range after mio).1 <+: range ∧
      (stretchOrTrim writeGapLimit isWrite vq range after mio).1 ≠ [] ∧
      ((stretchOrTrim writeGapLimit isWrite vq range after mio).2 = vq ∨
        ∃ id, (stretchOrTrim writeGapLimit isWrite vq range after mio).2 = vq.clearOptional id) := by
  -- trimming keeps a non-empty tail of the range read backwards, a front part of it
  have htrim : (trimOptional mio range.reverse).reverse <+: range ∧
      (trimOptional mio range.reverse).reverse ≠ [] := by
    obtain ⟨hsuf, hne'⟩ := trimOptional_suffix mio range.reverse
    have hpre := List.reverse_prefix.2 hsuf
    rw [List.reverse_reverse] at hpre
    refine ⟨hpre, ?_⟩
    simpa using hne' (by simpa using hne)
  unfold stretchOrTrim
  cases mio with
  | none => exact ⟨htrim.1, htrim.2, .inl rfl⟩
  | some m =>
    dsimp only
    split_ifs
    · refine ⟨List.prefix_refl _, hne, ?_⟩
      cases after with
      | nil => exact .inl rfl
      | cons dio _ => exact .inr ⟨dio.id, rfl⟩
    · exact ⟨htrim.1, htrim.2, .inl rfl⟩

/-- The aggregation buffer after the constituents from `dio` on were laid out
(vdev_queue.c:326-341): zeros for a NODATA zio, the data of a write at its
offset from the aggregate's, nothing for a read. -/
def layout (aoff : ℕ) (buf : ℕ → UInt8) : List Zio → ℕ → UInt8
  | [] => buf
  | dio :: ds =>
    let at_ := (dio.offset + 2 ^ 64 - aoff) % 2 ^ 64
    layout aoff
      (if dio.nodata then Buffer.fill buf at_ dio.size 0
        else if dio.isWrite then Buffer.copy buf (fun k => dio.data.getD k 0) at_ 0 dio.size
        else buf) ds

/-- What one pass of vdev_queue_io_to_issue ends with: NULL, a single zio
issued, an aggregate with its constituents, or a NODATA zio dropped before
the function starts over. -/
inductive Pass
  | null
  | single (z : Zio) (vq : VdevQueue)
  | agg (aio : Zio) (cs : List Zio) (vq : VdevQueue)
  | discard (z : Zio) (vq : VdevQueue)

section Issue

variable (tun : Tunables)

/-- MIN(zfs_vdev_aggregation_limit, SPA_MAXBLOCKSIZE) -/
def Tunables.maxspan : ℕ := min tun.aggregationLimit spaMaxblocksize

/-- The range vdev_queue_io_to_issue settles on around the deadline-first zio
`orig` of the offset tree `pre ++ orig :: post` (vdev_queue.c:225-280),
listed from fio to lio, and the queue after the stretch step. -/
def aggRange (vq : VdevQueue) (orig : Zio) (pre post : List Zio) : List Zio × VdevQueue :=
  let flags := orig.aggFlags
  let maxgap := if orig.isWrite then 0 else tun.readGapLimit
  if flags &&& zioFlagDontAggregate ≠ 0 then ([orig], vq)
  else
    let back := walkBack flags tun.maxspan maxgap orig orig pre.reverse
      (if orig.optional then none else some orig)
    let range := skipOptional (back.1.reverse ++ [orig])
    let fwd := walkFwd flags tun.maxspan maxgap (range.headD orig) orig post back.2
    stretchOrTrim tun.writeGapLimit orig.isWrite vq (range ++ fwd.1) (post.drop fwd.1.length) fwd.2

/-- The range around `orig` in `pre ++ orig :: post`: the deadline-first zio
alone, or a non-empty front part of `S ++ F`. Here `S` is a non-empty tail of
the backward block `B` and `orig`, and `F` is the forward block. Every zio of
both blocks carries orig's flags and keeps the span within the limit, and
neighbours lie within the gap limit. -/
theorem aggRange_range (vq : VdevQueue) (orig : Zio) (pre post : List Zio) :
    (aggRange tun vq orig pre post).1 = [orig] ∨
      ∃ B S F, orig.aggFlags &&& zioFlagDontAggregate = 0 ∧
        B <+: pre.reverse ∧ F <+: post ∧ S <:+ B.reverse ++ [orig] ∧ S ≠ [] ∧
        (aggRange tun vq orig pre post).1 <+: S ++ F ∧ (aggRange tun vq orig pre post).1 ≠ [] ∧
        (∀ d ∈ B, d.aggFlags = orig.aggFlags ∧ ioSpan d orig ≤ tun.maxspan) ∧
        (∀ d ∈ F, d.aggFlags = orig.aggFlags ∧ ioSpan (S.headD orig) d ≤ tun.maxspan) ∧
        (B.reverse ++ orig :: F).IsChain
          (fun a b => ioGap a b ≤ if orig.isWrite then 0 else tun.readGapLimit) := by
  unfold aggRange
  dsimp only
  by_cases hdont : orig.aggFlags &&& zioFlagDontAggregate ≠ 0
  · rw [if_pos hdont]
    exact .inl rfl
  rw [if_neg hdont]
  right
  obtain ⟨hB, hBmem, hBchain⟩ := @walkBack_spec orig.aggFlags tun.maxspan
    (if orig.isWrite then 0 else tun.readGapLimit) orig orig pre.reverse
    (if orig.optional then none else some orig)
  set back := walkBack orig.aggFlags tun.maxspan (if orig.isWrite then 0 else tun.readGapLimit)
    orig orig pre.reverse (if orig.optional then none else some orig)
  obtain ⟨hS, hSne⟩ := skipOptional_suffix (back.1.reverse ++ [orig])
  set S := skipOptional (back.1.reverse ++ [orig])
  obtain ⟨hF, hFmem, hFchain⟩ := @walkFwd_spec orig.aggFlags tun.maxspan
    (if orig.isWrite then 0 else tun.readGapLimit) (S.headD orig) orig post back.2
  set fwd := walkFwd orig.aggFlags tun.maxspan (if orig.isWrite then 0 else tun.readGapLimit)
    (S.headD orig) orig post back.2
  have hSne : S ≠ [] := hSne (by simp)
  obtain ⟨hR, hRne, -⟩ := stretchOrTrim_spec tun.writeGapLimit orig.isWrite vq (S ++ fwd.1)
    (post.drop fwd.1.length) fwd.2 (by simp [hSne])
  -- the two walks meet at orig: the backward chain read forwards, then the forward one
  have hchain : (back.1.reverse ++ orig :: fwd.1).IsChain
      (fun a b => ioGap a b ≤ if orig.isWrite then 0 else tun.readGapLimit) := by
    have hrev : (back.1.reverse ++ [orig]).IsChain
        (fun a b => ioGap a b ≤ if orig.isWrite then 0 else tun.readGapLimit) := by
      rw [← List.reverse_cons]
      exact List.isChain_reverse.2 hBchain
    have hfwd : ([orig] ++ fwd.1).IsChain
        (fun a b => ioGap a b ≤ if orig.isWrite then 0 else tun.readGapLimit) := by
      simpa using hFchain
    simpa using hrev.append_overlap hfwd (by simp)
  exact ⟨back.1, S, fwd.1, not_not.1 hdont, hB, hF, hS, hSne, hR, hRne, hBmem, hFmem, hchain⟩

/-- The stretch step changes at most one zio's ZIO_FLAG_OPTIONAL. -/
theorem aggRange_queue (vq : VdevQueue) (orig : Zio) (pre post : List Zio) :
    (aggRange tun vq orig pre post).2 = vq ∨ ∃ id, (aggRange tun vq orig pre post).2 = vq.clearOptional id := by
  unfold aggRange
  dsimp only
  by_cases hdont : orig.aggFlags &&& zioFlagDontAggregate ≠ 0
  · rw [if_pos hdont]
    exact .inl rfl
  rw [if_neg hdont]
  apply (stretchOrTrim_spec _ _ _ _ _ _ _).2.2
  exact List.append_ne_nil_of_left_ne_nil ((skipOptional_suffix _).2 (by simp)) _

section Blocks

variable {B S F R pre post : List Zio} {orig : Zio}

/-- A front part of `l₁ ++ l₂` is a front part of `l₁`, or `l₁` followed by a
front part of `l₂`. -/
theorem prefix_append_cases {α : Type} {r l₁ l₂ : List α} (h : r <+: l₁ ++ l₂) :
    r <+: l₁ ∨ ∃ r₂, r = l₁ ++ r₂ ∧ r₂ ≠ [] ∧ r₂ <+: l₂ := by
  obtain ⟨t, ht⟩ := h
  rcases List.append_eq_append_iff.1 ht with ⟨a, h1, -⟩ | ⟨b, h1, h2⟩
  · exact .inl ⟨a, h1.symm⟩
  · rcases List.eq_nil_or_concat b with rfl | hb
    · exact .inl ⟨[], by simp [h1]⟩
    · exact .inr ⟨b, h1, by rintro rfl; simp at hb, t, h2.symm⟩

/-- The range is a block of the two walks' blocks around orig, and those are
a block of the offset tree. -/
theorem shape_contiguous (hB : B <+: pre.reverse) (hF : F <+: post) (hS : S <:+ B.reverse ++ [orig])
    (hR : R <+: S ++ F) :
    R <:+: B.reverse ++ orig :: F ∧ B.reverse ++ orig :: F <:+: pre ++ orig :: post := by
  constructor
  · obtain ⟨u, hu⟩ := hS
    obtain ⟨v, hv⟩ := hR
    refine ⟨u, v, ?_⟩
    rw [List.append_assoc, hv, ← List.append_assoc, hu]
    simp
  · obtain ⟨w, hw⟩ := hB
    obtain ⟨z, rfl⟩ := hF
    have hpre : pre = w.reverse ++ B.reverse := by
      rw [← List.reverse_append, hw, List.reverse_reverse]
    refine ⟨w.reverse, z, ?_⟩
    simp [hpre]

/-- IO_SPAN grows with the end of its last zio. -/
theorem ioSpan_le_ioSpan {a b c : Zio} (hab : a.offset ≤ b.offset + b.size)
    (hbc : b.offset + b.size ≤ c.offset + c.size) (hc : c.offset + c.size < 2 ^ 64) :
    ioSpan a b ≤ ioSpan a c := by
  rw [ioSpan_eq hab (by omega), ioSpan_eq (by omega) hc]
  omega

/-- An aggregate of at least two zios stays within the span limit. If lio
came from the forward walk, the walk checked the span from fio; otherwise
fio came from the backward walk, which checked the span up to orig, and lio
ends no later than orig. -/
theorem shape_span {maxspan : ℕ}
    (hdis : (pre ++ orig :: post).Pairwise fun a b => a.offset + a.size ≤ b.offset)
    (hend : ∀ z ∈ pre ++ orig :: post, z.offset + z.size < 2 ^ 64)
    (hB : B <+: pre.reverse) (hF : F <+: post) (hS : S <:+ B.reverse ++ [orig]) (hSne : S ≠ [])
    (hR : R <+: S ++ F) (hBspan : ∀ d ∈ B, ioSpan d orig ≤ maxspan)
    (hFspan : ∀ d ∈ F, ioSpan (S.headD orig) d ≤ maxspan)
    {fio lio : Zio} {mid : List Zio} (hRe : R = fio :: (mid ++ [lio])) : ioSpan fio lio ≤ maxspan := by
  obtain ⟨hRX, hXt⟩ := shape_contiguous hB hF hS hR
  have hdisX := hdis.sublist hXt.sublist
  have hendX : ∀ z ∈ B.reverse ++ orig :: F, z.offset + z.size < 2 ^ 64 :=
    fun z hz => hend z (hXt.subset hz)
  -- fio lies in front of lio in the range
  have hfl : fio.offset + fio.size ≤ lio.offset := by
    have hdisR := hdisX.sublist hRX.sublist
    rw [hRe] at hdisR
    exact List.rel_of_pairwise_cons hdisR (by simp)
  have hfio : S.headD orig = fio := by
    obtain ⟨s, S', rfl⟩ := List.exists_cons_of_ne_nil hSne
    obtain ⟨v, hv⟩ := hR
    rw [hRe] at hv
    simp only [List.cons_append, List.cons.injEq] at hv
    simp [hv.1]
  rcases prefix_append_cases hR with hRS | ⟨F', hRe', hF'⟩
  · -- the range lies within the backward block and orig
    obtain ⟨T, hT⟩ := hRS
    obtain ⟨U, hU⟩ := hS
    have hsplit : U ++ fio :: (mid ++ [lio] ++ T) = B.reverse ++ [orig] := by
      rw [← hU, ← hT, hRe]
      simp
    have hfB : fio ∈ B := by
      have h := congrArg List.dropLast hsplit
      rw [List.dropLast_concat, List.dropLast_append_of_ne_nil (by simp),
        List.dropLast_cons_of_ne_nil (by simp)] at h
      have hmem : fio ∈ B.reverse := by
        rw [← h]
        simp
      exact List.mem_reverse.1 hmem
    have hlio : lio.offset + lio.size ≤ orig.offset + orig.size := by
      have hmem : lio ∈ B.reverse ++ [orig] := by
        rw [← hsplit]
        simp
      rcases List.mem_append.1 hmem with hl | hl
      · have := hdisX.rel_of_mem_append hl (List.mem_cons_self ..)
        omega
      · simp only [List.mem_singleton] at hl
        rw [hl]
    calc ioSpan fio lio ≤ ioSpan fio orig := ioSpan_le_ioSpan (by omega) hlio (hendX orig (by simp))
      _ ≤ maxspan := hBspan fio hfB
  · -- lio came from the forward walk, which checked the span from fio
    obtain ⟨hF'ne, hF'⟩ := hF'
    have hl : F'.getLast? = some lio := by
      have h := congrArg List.getLast? (hRe.symm.trans hRe')
      rw [List.getLast?_append_of_ne_nil _ hF'ne, ← List.cons_append, List.getLast?_concat] at h
      exact h.symm
    rw [← hfio]
    exact hFspan lio (hF'.subset (List.mem_of_mem_getLast? hl))

end Blocks

section Layout

variable {aoff : ℕ}

/-- For a zio behind the aggregate's start, the unsigned distance
`dio->io_offset - aio->io_offset` does not wrap. -/
theorem layout_cons (buf : ℕ → UInt8) (d : Zio) (ds : List Zio) (h : aoff ≤ d.offset)
    (hd : d.offset < 2 ^ 64) :
    layout aoff buf (d :: ds) = layout aoff
      (if d.nodata then Buffer.fill buf (d.offset - aoff) d.size 0
        else if d.isWrite then Buffer.copy buf (fun k => d.data.getD k 0) (d.offset - aoff) 0 d.size
        else buf) ds := by
  rw [layout, show (d.offset + 2 ^ 64 - aoff) % 2 ^ 64 = d.offset - aoff by omega]

/-- Laying out zios leaves every cell outside their regions as it was. -/
theorem layout_frame : ∀ (buf : ℕ → UInt8) (ds : List Zio) (p : ℕ),
    (∀ d ∈ ds, aoff ≤ d.offset ∧ d.offset < 2 ^ 64) →
    (∀ d ∈ ds, p < d.offset - aoff ∨ d.offset - aoff + d.size ≤ p) → layout aoff buf ds p = buf p
  | _, [], _, _, _ => rfl
  | buf, d :: ds, p, hoff, hout => by
    rw [layout_cons _ _ _ (hoff d (by simp)).1 (hoff d (by simp)).2,
      layout_frame _ ds p (fun e he => hoff e (by simp [he])) (fun e he => hout e (by simp [he]))]
    rcases hout d (by simp) with hp | hp
    · split_ifs <;> simp [Buffer.fill_apply_of_lt hp, Buffer.copy_apply_of_lt hp]
    · split_ifs <;> simp [Buffer.fill_apply_of_le hp, Buffer.copy_apply_of_le hp]

/-- In a block of writes that do not overlap, every zio's cells hold its
data, or zeros for a NODATA zio, once the block is laid out. -/
theorem layout_write : ∀ (buf : ℕ → UInt8) (ds : List Zio),
    ds.Pairwise (fun a b => a.offset + a.size ≤ b.offset) →
    (∀ d ∈ ds, aoff ≤ d.offset ∧ d.offset < 2 ^ 64) → (∀ d ∈ ds, d.isWrite = true) →
    ∀ c ∈ ds, ∀ k < c.size,
      layout aoff buf ds (c.offset - aoff + k) = if c.nodata then 0 else c.data.getD k 0
  | _, [], _, _, _, c, hc, _, _ => absurd hc (by simp)
  | buf, d :: ds, hdis, hoff, hw, c, hc, k, hk => by
    rw [layout_cons _ _ _ (hoff d (by simp)).1 (hoff d (by simp)).2]
    rcases List.mem_cons.1 hc with rfl | hc'
    · -- the rest of the block lies behind c, so its cells keep what c put there
      have hc := hoff c (by simp)
      rw [layout_frame _ ds _ (fun e he => hoff e (by simp [he])) fun e he => .inl (by
        have hce : c.offset + c.size ≤ e.offset := List.rel_of_pairwise_cons hdis he
        have he' := hoff e (by simp [he])
        omega)]
      rw [if_pos (hw c (by simp))]
      split_ifs
      · exact Buffer.fill_apply_add _ _ _ hk
      · simpa using Buffer.copy_apply_add buf (fun k => c.data.getD k 0) _ 0 hk
    · exact layout_write _ ds hdis.of_cons (fun e he => hoff e (by simp [he]))
        (fun e he => hw e (by simp [he])) c hc' k hk

end Layout

/-- ZIO_FLAG_AGG_INHERIT keeps the six low bits. -/
theorem Zio.aggFlags_eq (z : Zio) : z.aggFlags = z.flags % 64 :=
  Nat.and_two_pow_sub_one_eq_mod z.flags 6

theorem or_two_pow_eq_add {a i : ℕ} (h : a < 2 ^ i) : a ||| 2 ^ i = a + 2 ^ i := by
  have := Nat.two_pow_add_eq_or_of_lt h 1
  rw [mul_one] at this
  rw [Nat.lor_comm]
  omega

/-- The aggregate carries the deadline-first zio's AGG_INHERIT flags: the
DONT_CACHE and DONT_QUEUE bits it adds lie above them. -/
theorem aggFlags_agg (flags : ℕ) (h : flags < 64) :
    (flags ||| zioFlagDontCache ||| zioFlagDontQueue) % 64 = flags := by
  rw [show zioFlagDontCache = 2 ^ 10 from rfl, show zioFlagDontQueue = 2 ^ 17 from rfl,
    or_two_pow_eq_add (a := flags) (i := 10) (by omega),
    or_two_pow_eq_add (a := flags + 2 ^ 10) (i := 17) (by omega)]
  omega

/-- A chain of one relation along a list that is pairwise in another is a
chain of both. -/
theorem isChain_and_of_pairwise {α : Type} {r s : α → α → Prop} :
    ∀ {l : List α}, l.IsChain r → l.Pairwise s → l.IsChain fun a b => r a b ∧ s a b
  | [], _, _ => .nil
  | [_], _, _ => .singleton _
  | a :: b :: l, h₁, h₂ => by
    rw [List.isChain_cons_cons] at h₁ ⊢
    exact ⟨⟨h₁.1, List.rel_of_pairwise_cons h₂ (by simp)⟩, isChain_and_of_pairwise h₁.2 h₂.of_cons⟩

/-- Issuing the range (vdev_queue.c:317-371). A range of one zio leaves the
queue and is issued, or dropped when it has no data. A longer one becomes a
delegated zio with the deadline-first zio's `flags`, which starts at fio,
spans to the end of lio and carries the constituents' data; the constituents
leave the queue and the aggregate is pending. -/
@[grind] def issueRange (aid : ℕ) (vi : ℕ → UInt8) (flags : ℕ) (vq : VdevQueue) : List Zio → Pass
  | [fio] =>
    let vq := vq.ioRemove fio
    if fio.nodata then .discard fio vq
    else .single fio { vq with pendingTree := fio :: vq.pendingTree }
  | fio :: r :: rest =>
    let size := ioSpan fio ((r :: rest).getLastD r)
    let aio : Zio := ⟨aid, fio.offset, size, flags ||| zioFlagDontCache ||| zioFlagDontQueue,
      fio.isWrite, 0, Buffer.read (layout fio.offset vi (fio :: r :: rest)) 0 size⟩
    let vq := (fio :: r :: rest).foldl VdevQueue.ioRemove vq
    .agg aio (fio :: r :: rest) { vq with pendingTree := aio :: vq.pendingTree }
  | [] => .null

/-- One pass of vdev_queue_io_to_issue (vdev_queue.c:197-372), up to its
`goto again`. `aid` is the address of the delegated zio and `vi` the
aggregation buffer's contents. -/
def ioToIssueOnce (pendingLimit aid : ℕ) (vi : ℕ → UInt8) (vq : VdevQueue) : Pass :=
  if pendingLimit ≤ vq.pendingTree.length then .null
  else
    match vq.deadlineTree with
    | [] => .null
    | orig :: _ =>
      let t := vq.tree orig.isWrite
      -- the in-order neighbours of the deadline-first zio in its offset tree
      let r := aggRange tun vq orig (t.takeWhile (·.id ≠ orig.id)) (t.dropWhile (·.id ≠ orig.id)).tail
      issueRange aid vi orig.aggFlags r.2 r.1

theorem ioToIssueOnce_of_lt {pendingLimit aid : ℕ} {vi : ℕ → UInt8} {vq : VdevQueue} {orig : Zio}
    {rest : List Zio} (hdl : vq.deadlineTree = orig :: rest) (hlim : vq.pendingTree.length < pendingLimit) :
    ioToIssueOnce tun pendingLimit aid vi vq =
      issueRange aid vi orig.aggFlags
        (aggRange tun vq orig ((vq.tree orig.isWrite).takeWhile (·.id ≠ orig.id))
          ((vq.tree orig.isWrite).dropWhile (·.id ≠ orig.id)).tail).2
        (aggRange tun vq orig ((vq.tree orig.isWrite).takeWhile (·.id ≠ orig.id))
          ((vq.tree orig.isWrite).dropWhile (·.id ≠ orig.id)).tail).1 := by
  rw [ioToIssueOnce, if_neg (by omega), hdl]

/-- What the claim asks of an aggregate `aio` with constituents `cs`, issued
from the queue `vq`: a block of one offset tree, from fio to lio, with equal
AGG_INHERIT flags and none that asked not to be aggregated; the aggregate
starts at fio and spans to the end of lio within the limit, covers every
constituent, leaves no gap larger than the tree's gap limit (none between
writes), and holds each write's data, or zeros for NODATA, at its offset. -/
structure AggOk (vq : VdevQueue) (aio : Zio) (cs : List Zio) : Prop where
  block : ∃ pre post, vq.tree aio.isWrite = pre ++ cs ++ post
  span : ∃ fio mid lio, cs = fio :: (mid ++ [lio]) ∧ aio.offset = fio.offset ∧
    aio.size = ioSpan fio lio ∧ aio.size ≤ tun.maxspan
  flags : ∀ c ∈ cs, c.aggFlags = aio.aggFlags ∧ c.flags &&& zioFlagDontAggregate = 0
  covers : ∀ c ∈ cs, aio.offset ≤ c.offset ∧ c.offset + c.size ≤ aio.offset + aio.size
  gaps : cs.IsChain fun a b => ioGap a b ≤ if aio.isWrite then 0 else tun.readGapLimit
  adjacent : aio.isWrite = true → cs.IsChain fun a b => a.offset + a.size = b.offset
  data : aio.isWrite = true → ∀ c ∈ cs, ∀ k < c.size,
    aio.data[c.offset - aio.offset + k]? = some (if c.nodata then 0 else c.data.getD k 0)

/-- What issuing a range of two zios or more produces. -/
theorem issueRange_agg {aid flags : ℕ} {vi : ℕ → UInt8} {vq vq' : VdevQueue} {R cs : List Zio}
    {aio : Zio} (h : issueRange aid vi flags vq R = .agg aio cs vq') :
    ∃ fio mid lio, R = fio :: (mid ++ [lio]) ∧ cs = R ∧
      aio = ⟨aid, fio.offset, ioSpan fio lio, flags ||| zioFlagDontCache ||| zioFlagDontQueue,
        fio.isWrite, 0, Buffer.read (layout fio.offset vi R) 0 (ioSpan fio lio)⟩ ∧
      vq' = { R.foldl VdevQueue.ioRemove vq with pendingTree := aio :: vq.pendingTree } := by
  match R, h with
  | [], h => cases h
  | [fio], h =>
    simp only [issueRange] at h
    split_ifs at h
  | fio :: r :: rest, h =>
    obtain ⟨mid, lio, hml⟩ : ∃ mid lio, r :: rest = mid ++ [lio] := by
      rcases List.eq_nil_or_concat' (r :: rest) with h' | h'
      · cases h'
      · exact h'
    have hlast : (r :: rest).getLastD r = lio := by
      rw [List.getLastD_eq_getLast?, hml, List.getLast?_concat, Option.getD_some]
    simp only [issueRange, hlast] at h
    cases h
    exact ⟨fio, mid, lio, by rw [hml], rfl, by rw [hml], by simp⟩

/-- The aggregate of a range of the shape `aggRange_range` describes, cut out
of its offset tree, is what the claim asks. -/
theorem aggOk_of_shape {vq : VdevQueue} (hq : QueueInv vq) {orig fio lio : Zio}
    {pre post B S F mid : List Zio} (aid : ℕ) (vi : ℕ → UInt8)
    (hsplit : vq.tree orig.isWrite = pre ++ orig :: post)
    (hdont : orig.aggFlags &&& zioFlagDontAggregate = 0)
    (hB : B <+: pre.reverse) (hF : F <+: post) (hS : S <:+ B.reverse ++ [orig]) (hSne : S ≠ [])
    (hR : fio :: (mid ++ [lio]) <+: S ++ F)
    (hBm : ∀ d ∈ B, d.aggFlags = orig.aggFlags ∧ ioSpan d orig ≤ tun.maxspan)
    (hFm : ∀ d ∈ F, d.aggFlags = orig.aggFlags ∧ ioSpan (S.headD orig) d ≤ tun.maxspan)
    (hchain : (B.reverse ++ orig :: F).IsChain
      (fun a b => ioGap a b ≤ if orig.isWrite then 0 else tun.readGapLimit)) :
    AggOk tun vq ⟨aid, fio.offset, ioSpan fio lio,
        orig.aggFlags ||| zioFlagDontCache ||| zioFlagDontQueue, fio.isWrite, 0,
        Buffer.read (layout fio.offset vi (fio :: (mid ++ [lio]))) 0 (ioSpan fio lio)⟩
      (fio :: (mid ++ [lio])) := by
  obtain ⟨hRX, hXt⟩ := shape_contiguous hB hF hS hR
  have hRt : fio :: (mid ++ [lio]) <:+: vq.tree orig.isWrite := by
    rw [hsplit]
    exact hRX.trans hXt
  have hmemR : ∀ c ∈ fio :: (mid ++ [lio]), c ∈ vq.tree orig.isWrite := fun c hc => hRt.subset hc
  have hend : ∀ c ∈ fio :: (mid ++ [lio]), c.offset + c.size < 2 ^ 64 :=
    fun c hc => hq.ends_tree (hmemR c hc)
  have hfw : fio.isWrite = orig.isWrite := hq.type _ fio (hmemR fio (by simp))
  -- neighbours in the range do not overlap, and each lies below 2^64
  have hRdis : (fio :: (mid ++ [lio])).Pairwise
      fun a b => a.offset + a.size ≤ b.offset ∧ b.offset < 2 ^ 64 :=
    ((hq.disjoint _).sublist hRt.sublist).imp_of_mem fun _ hb h => ⟨h, by
      have := hend _ hb
      omega⟩
  -- every constituent lies between the start of fio and the end of lio
  have hcov : ∀ c ∈ fio :: (mid ++ [lio]), fio.offset ≤ c.offset ∧
      c.offset + c.size ≤ lio.offset + lio.size := by
    have hfl : fio.offset + fio.size ≤ lio.offset := (List.rel_of_pairwise_cons hRdis (by simp)).1
    intro c hc
    rcases List.mem_cons.1 hc with rfl | hc
    · omega
    · have hfc : fio.offset + fio.size ≤ c.offset := (List.rel_of_pairwise_cons hRdis hc).1
      rcases List.mem_append.1 hc with hc | hc
      · have hcl := (List.pairwise_append.1 hRdis.of_cons).2.2 c hc lio (by simp)
        omega
      · simp only [List.mem_singleton] at hc
        subst hc
        omega
  have hspan : ioSpan fio lio = lio.offset + lio.size - fio.offset :=
    ioSpan_eq (by have := hcov lio (by simp); omega) (hend lio (by simp))
  have hflag : ∀ c ∈ fio :: (mid ++ [lio]), c.aggFlags = orig.aggFlags := by
    intro c hc
    rcases List.mem_append.1 (hRX.subset hc) with h | h
    · exact (hBm c (List.mem_reverse.1 h)).1
    · rcases List.mem_cons.1 h with rfl | h
      · rfl
      · exact (hFm c h).1
  refine ⟨?_, ⟨fio, mid, lio, rfl, rfl, rfl, ?_⟩, ?_, ?_, ?_, ?_, ?_⟩
  · -- a block of fio's offset tree
    obtain ⟨p, q, hpq⟩ := hRt
    exact ⟨p, q, by rw [hfw]; exact hpq.symm⟩
  · exact shape_span (hsplit ▸ hq.disjoint orig.isWrite)
      (fun z hz => hq.ends_tree (hsplit ▸ hz)) hB hF hS hSne hR (fun d hd => (hBm d hd).2)
      (fun d hd => (hFm d hd).2) rfl
  · -- the constituents share orig's AGG_INHERIT bits, DONT_AGGREGATE clear among them
    intro c hc
    have hlow : ∀ x : ℕ, x &&& zioFlagDontAggregate = x % 2 :=
      fun x => Nat.and_two_pow_sub_one_eq_mod x 1
    have hc' := hflag c hc
    refine ⟨?_, ?_⟩
    · rw [hc']
      show orig.aggFlags =
        (orig.aggFlags ||| zioFlagDontCache ||| zioFlagDontQueue) &&& zioFlagAggInherit
      rw [show zioFlagAggInherit = 2 ^ 6 - 1 from rfl, Nat.and_two_pow_sub_one_eq_mod]
      exact (aggFlags_agg orig.aggFlags (by rw [Zio.aggFlags_eq]; omega)).symm
    · rw [hlow] at hdont ⊢
      simp only [Zio.aggFlags_eq] at hdont hc'
      omega
  · intro c hc
    have := hcov c hc
    dsimp only
    omega
  · dsimp only
    rw [hfw]
    exact hchain.infix hRX
  · -- writes: every gap is zero
    intro hw
    dsimp only at hw
    have hg := hchain.infix hRX
    rw [← hfw, hw, if_pos rfl] at hg
    exact (isChain_and_of_pairwise hg hRdis).imp fun a b ⟨h1, h2, h3⟩ => by
      rw [ioGap_eq h2 h3] at h1
      omega
  · -- writes: each constituent's data at its distance from fio
    intro hw c hc k hk
    dsimp only at hw ⊢
    have hi : c.offset - fio.offset + k < ioSpan fio lio := by
      have := hcov c hc
      omega
    rw [List.getElem?_eq_getElem (by simpa using hi), Buffer.getElem_read, Nat.zero_add]
    congr 1
    exact layout_write vi _ (hRdis.imp fun h => h.1)
      (fun d hd => ⟨(hcov d hd).1, by have := hend d hd; omega⟩)
      (fun d hd => (hq.type _ d (hmemR d hd)).trans (hfw.symm.trans hw)) c hc k hk

/-- The zios at the addresses `ids` left the deadline tree and the offset
tree `w`, and every other queued zio stayed where it was. -/
def Removed (vq vq' : VdevQueue) (w : Bool) (ids : List ℕ) : Prop :=
  vq'.deadlineTree.map Zio.id = (vq.deadlineTree.map Zio.id).filter (· ∉ ids) ∧
    (vq'.tree w).map Zio.id = ((vq.tree w).map Zio.id).filter (· ∉ ids) ∧
    (vq'.tree (!w)).map Zio.id = (vq.tree (!w)).map Zio.id

/-- Removing queued zios of one type from a queue that holds the same
addresses as `vq` (the queue after the stretch step) removes exactly them. -/
theorem removed_foldl {vq vq₀ : VdevQueue} (hq₀ : QueueInv vq₀) {w : Bool} {cs : List Zio}
    (hids : vq₀.deadlineTree.map Zio.id = vq.deadlineTree.map Zio.id ∧
      ∀ w, (vq₀.tree w).map Zio.id = (vq.tree w).map Zio.id)
    (hmem : ∀ c ∈ cs, c.isWrite = w ∧ c.id ∈ (vq₀.tree w).map Zio.id) (hnd : (cs.map Zio.id).Nodup)
    (ps : List Zio) :
    QueueInv { cs.foldl VdevQueue.ioRemove vq₀ with pendingTree := ps } ∧
      Removed vq { cs.foldl VdevQueue.ioRemove vq₀ with pendingTree := ps } w (cs.map Zio.id) := by
  obtain ⟨hinv, hdl, htree, hother⟩ := hq₀.foldl_ioRemove cs hmem hnd
  refine ⟨hinv.pending ps, ?_, ?_, ?_⟩
  · show (cs.foldl VdevQueue.ioRemove vq₀).deadlineTree.map Zio.id = _
    rw [hdl, ← hids.1, List.filter_map]
    rfl
  · show ((cs.foldl VdevQueue.ioRemove vq₀).tree w).map Zio.id = _
    rw [htree, ← hids.2 w, List.filter_map]
    rfl
  · show ((cs.foldl VdevQueue.ioRemove vq₀).tree (!w)).map Zio.id = _
    rw [hother, hids.2]

/-- A pass that does not return NULL found a deadline-first zio `orig` and
room among the pending, and issues the range around `orig` in its offset
tree `pre ++ orig :: post`. -/
theorem ioToIssueOnce_pass {limit aid : ℕ} {vi : ℕ → UInt8} {vq : VdevQueue} (hq : QueueInv vq)
    (hne : ioToIssueOnce tun limit aid vi vq ≠ .null) :
    ∃ orig rest pre post, vq.deadlineTree = orig :: rest ∧ vq.pendingTree.length < limit ∧
      vq.tree orig.isWrite = pre ++ orig :: post ∧
      ioToIssueOnce tun limit aid vi vq =
        issueRange aid vi orig.aggFlags (aggRange tun vq orig pre post).2 (aggRange tun vq orig pre post).1 := by
  obtain ⟨orig, rest, hdl⟩ : ∃ orig rest, vq.deadlineTree = orig :: rest := by
    cases hd : vq.deadlineTree with
    | nil => exact absurd (by simp [ioToIssueOnce, hd]) hne
    | cons o r => exact ⟨o, r, rfl⟩
  have hlim : vq.pendingTree.length < limit := by
    by_contra hc
    exact hne (by rw [ioToIssueOnce, if_pos (not_lt.1 hc)])
  exact ⟨orig, rest, _, _, hdl, hlim, split_at_id (hq.tree_ids _) (hq.mem_tree (by simp [hdl])),
    ioToIssueOnce_of_lt tun hdl hlim⟩

/-- The range a pass settles on is a non-empty block of the offset tree. -/
theorem aggRange_contiguous {vq : VdevQueue} {orig : Zio} {pre post : List Zio} :
    (aggRange tun vq orig pre post).1 <:+: pre ++ orig :: post ∧ (aggRange tun vq orig pre post).1 ≠ [] := by
  rcases aggRange_range tun vq orig pre post with h | ⟨B, S, F, -, hB, hF, hS, -, hR, hRne, -⟩
  · rw [h]
    exact ⟨⟨pre, post, by simp⟩, by simp⟩
  · obtain ⟨h1, h2⟩ := shape_contiguous hB hF hS hR
    exact ⟨h1.trans h2, hRne⟩

/-- The queue after the stretch step has the invariant and the addresses of
the queue before it. -/
theorem aggRange_queue_inv {vq : VdevQueue} (hq : QueueInv vq) (orig : Zio) (pre post : List Zio) :
    QueueInv (aggRange tun vq orig pre post).2 ∧
      (aggRange tun vq orig pre post).2.deadlineTree.map Zio.id = vq.deadlineTree.map Zio.id ∧
      (∀ w, ((aggRange tun vq orig pre post).2.tree w).map Zio.id = (vq.tree w).map Zio.id) ∧
      (aggRange tun vq orig pre post).2.pendingTree = vq.pendingTree := by
  rcases aggRange_queue tun vq orig pre post with h | ⟨id, h⟩
  · rw [h]
    exact ⟨hq, rfl, fun _ => rfl, rfl⟩
  · rw [h]
    exact ⟨hq.clearOptional id, (VdevQueue.clearOptional_ids id).1, (VdevQueue.clearOptional_ids id).2, rfl⟩

/-- A pass that aggregates issues what the claim asks, removes exactly its
constituents and makes the aggregate pending; the queue keeps its invariant. -/
theorem ioToIssueOnce_agg {limit aid : ℕ} {vi : ℕ → UInt8} {vq vq' : VdevQueue} {aio : Zio}
    {cs : List Zio} (hq : QueueInv vq) (h : ioToIssueOnce tun limit aid vi vq = .agg aio cs vq') :
    AggOk tun vq aio cs ∧ QueueInv vq' ∧ Removed vq vq' aio.isWrite (cs.map Zio.id) ∧
      vq'.pendingTree = aio :: vq.pendingTree := by
  obtain ⟨orig, rest, pre, post, hdl, hlim, hsplit, hpass⟩ := ioToIssueOnce_pass tun hq (by rw [h]; simp)
  rw [hpass] at h
  obtain ⟨fio, mid, lio, hR, rfl, rfl, rfl⟩ := issueRange_agg h
  rcases aggRange_range tun vq orig pre post with hone | ⟨B, S, F, hdont, hB, hF, hS, hSne, hRp, -, hBm, hFm, hchain⟩
  · rw [hone] at hR
    simp at hR
  rw [hR] at hRp ⊢
  have hok := aggOk_of_shape tun hq aid vi hsplit hdont hB hF hS hSne hRp hBm hFm hchain
  obtain ⟨hq₀, hdl₀, htree₀, hpend₀⟩ := aggRange_queue_inv tun hq orig pre post
  -- the constituents are distinct queued zios of fio's type, still there after the stretch step
  obtain ⟨p, q, hpq⟩ := hok.block
  have hnd : ((fio :: (mid ++ [lio])).map Zio.id).Nodup := by
    have := hq.tree_ids fio.isWrite
    rw [hpq, List.map_append, List.map_append] at this
    exact this.of_append_left.of_append_right
  have hmem : ∀ c ∈ fio :: (mid ++ [lio]), c.isWrite = fio.isWrite ∧
      c.id ∈ ((aggRange tun vq orig pre post).2.tree fio.isWrite).map Zio.id := by
    intro c hc
    have hct : c ∈ vq.tree fio.isWrite := by
      rw [show vq.tree fio.isWrite = p ++ (fio :: (mid ++ [lio])) ++ q from hpq]
      exact List.mem_append_left _ (List.mem_append_right _ hc)
    exact ⟨hq.type _ c hct, by rw [htree₀]; exact List.mem_map_of_mem hct⟩
  obtain ⟨hinv, hrem⟩ := removed_foldl hq₀ ⟨hdl₀, htree₀⟩ hmem hnd _
  exact ⟨hok, hinv, hrem, by rw [hpend₀]⟩

/-- Issuing a range of one zio that has data. -/
theorem issueRange_single {aid flags : ℕ} {vi : ℕ → UInt8} {vq vq' : VdevQueue} {R : List Zio}
    {z : Zio} (h : issueRange aid vi flags vq R = .single z vq') :
    R = [z] ∧ z.nodata = false ∧ vq' = { vq.ioRemove z with pendingTree := z :: vq.pendingTree } := by
  match R, h with
  | [], h => cases h
  | [fio], h =>
    simp only [issueRange] at h
    split_ifs at h with hn
    cases h
    exact ⟨rfl, by simpa using hn, rfl⟩
  | _ :: _ :: _, h => cases h

/-- Issuing a range of one NODATA zio drops it. -/
theorem issueRange_discard {aid flags : ℕ} {vi : ℕ → UInt8} {vq vq' : VdevQueue} {R : List Zio}
    {z : Zio} (h : issueRange aid vi flags vq R = .discard z vq') :
    R = [z] ∧ z.nodata = true ∧ vq' = vq.ioRemove z := by
  match R, h with
  | [], h => cases h
  | [fio], h =>
    simp only [issueRange] at h
    split_ifs at h with hn
    cases h
    exact ⟨rfl, hn, rfl⟩
  | _ :: _ :: _, h => cases h

/-- The zio a pass issues or drops alone is a queued zio of the range's
tree, and it is removed from the queue after the stretch step. -/
theorem ioToIssueOnce_one {limit : ℕ} {vq : VdevQueue} (hq : QueueInv vq)
    {z : Zio} {vq₀ : VdevQueue}
    (h : ∃ orig rest pre post, vq.deadlineTree = orig :: rest ∧ vq.pendingTree.length < limit ∧
      vq.tree orig.isWrite = pre ++ orig :: post ∧ (aggRange tun vq orig pre post).1 = [z] ∧
      (aggRange tun vq orig pre post).2 = vq₀) (ps : List Zio) :
    z ∈ vq.tree z.isWrite ∧ QueueInv { vq₀.ioRemove z with pendingTree := ps } ∧
      Removed vq { vq₀.ioRemove z with pendingTree := ps } z.isWrite [z.id] := by
  obtain ⟨orig, rest, pre, post, -, -, hsplit, hR, rfl⟩ := h
  have hz : z ∈ vq.tree orig.isWrite := by
    rw [hsplit]
    exact (hR ▸ (aggRange_contiguous tun).1).subset (by simp)
  have hzw : z.isWrite = orig.isWrite := hq.type _ z hz
  obtain ⟨hq₀, hdl₀, htree₀, -⟩ := aggRange_queue_inv tun hq orig pre post
  obtain ⟨hinv, hrem⟩ := removed_foldl hq₀ ⟨hdl₀, htree₀⟩ (w := z.isWrite)
    (fun c hc => by
      simp only [List.mem_singleton] at hc
      subst hc
      exact ⟨rfl, by rw [htree₀, hzw]; exact List.mem_map_of_mem hz⟩)
    (show ([z].map Zio.id).Nodup by simp) ps
  exact ⟨hzw ▸ hz, hinv, hrem⟩

/-- A pass that issues a single zio issues a queued zio with data, removes
it and makes it pending; the queue keeps its invariant. -/
theorem ioToIssueOnce_single {limit aid : ℕ} {vi : ℕ → UInt8} {vq vq' : VdevQueue} {z : Zio}
    (hq : QueueInv vq) (h : ioToIssueOnce tun limit aid vi vq = .single z vq') :
    z ∈ vq.tree z.isWrite ∧ z.nodata = false ∧ QueueInv vq' ∧ Removed vq vq' z.isWrite [z.id] ∧
      vq'.pendingTree = z :: vq.pendingTree := by
  obtain ⟨orig, rest, pre, post, hdl, hlim, hsplit, hpass⟩ := ioToIssueOnce_pass tun hq (by rw [h]; simp)
  rw [hpass] at h
  obtain ⟨hR, hn, rfl⟩ := issueRange_single h
  obtain ⟨hz, hinv, hrem⟩ := ioToIssueOnce_one tun hq ⟨orig, rest, pre, post, hdl, hlim, hsplit, hR, rfl⟩
    (z :: (aggRange tun vq orig pre post).2.pendingTree)
  exact ⟨hz, hn, hinv, hrem, by rw [(aggRange_queue_inv tun hq orig pre post).2.2.2]⟩

/-- A pass that drops a NODATA zio removes a queued zio and leaves the
pending tree alone; the queue keeps its invariant. -/
theorem ioToIssueOnce_discard {limit aid : ℕ} {vi : ℕ → UInt8} {vq vq' : VdevQueue} {z : Zio}
    (hq : QueueInv vq) (h : ioToIssueOnce tun limit aid vi vq = .discard z vq') :
    z ∈ vq.tree z.isWrite ∧ z.nodata = true ∧ QueueInv vq' ∧ Removed vq vq' z.isWrite [z.id] ∧
      vq'.pendingTree = vq.pendingTree := by
  obtain ⟨orig, rest, pre, post, hdl, hlim, hsplit, hpass⟩ := ioToIssueOnce_pass tun hq (by rw [h]; simp)
  rw [hpass] at h
  obtain ⟨hR, hn, rfl⟩ := issueRange_discard h
  obtain ⟨hz, hinv, hrem⟩ := ioToIssueOnce_one tun hq ⟨orig, rest, pre, post, hdl, hlim, hsplit, hR, rfl⟩
    ((aggRange tun vq orig pre post).2.ioRemove z).pendingTree
  exact ⟨hz, hn, hinv, hrem, by simp [(aggRange_queue_inv tun hq orig pre post).2.2.2]⟩

/-- A pass returns NULL only when too many zios are pending or none is
queued. -/
theorem ioToIssueOnce_null {limit aid : ℕ} {vi : ℕ → UInt8} {vq : VdevQueue}
    (h : ioToIssueOnce tun limit aid vi vq = .null) :
    limit ≤ vq.pendingTree.length ∨ vq.deadlineTree = [] := by
  rcases hdl : vq.deadlineTree with _ | ⟨orig, rest⟩
  · exact .inr rfl
  refine .inl (Nat.le_of_not_lt fun hlim => ?_)
  rw [ioToIssueOnce_of_lt tun hdl hlim] at h
  have hne := (@aggRange_contiguous tun vq orig ((vq.tree orig.isWrite).takeWhile (·.id ≠ orig.id))
    ((vq.tree orig.isWrite).dropWhile (·.id ≠ orig.id)).tail).2
  revert h hne
  generalize (aggRange tun vq orig _ _).1 = R
  intro h hne
  match R, h, hne with
  | [fio], h, _ =>
    simp only [issueRange] at h
    split_ifs at h
  | _ :: _ :: _, h, _ => cases h

/-- What vdev_queue_io_to_issue returns: NULL, a queued zio, or an aggregate
with its constituents. -/
inductive Issue
  | null
  | single (z : Zio)
  | agg (aio : Zio) (cs : List Zio)

/-- The passes of vdev_queue_io_to_issue, each `goto again` spending one unit
of `fuel`. -/
def ioToIssueLoop (pendingLimit aid : ℕ) (vi : ℕ → UInt8) : ℕ → VdevQueue → Option (Issue × VdevQueue)
  | 0, _ => none
  | fuel + 1, vq =>
    match ioToIssueOnce tun pendingLimit aid vi vq with
    | .null => some (.null, vq)
    | .single z vq' => some (.single z, vq')
    | .agg aio cs vq' => some (.agg aio cs, vq')
    | .discard _ vq' => ioToIssueLoop pendingLimit aid vi fuel vq'

/-- vdev_queue_io_to_issue: every `goto again` drops a queued zio, so one
pass more than there are queued zios is enough. -/
def vdevQueueIoToIssue (pendingLimit aid : ℕ) (vi : ℕ → UInt8) (vq : VdevQueue) :
    Option (Issue × VdevQueue) :=
  ioToIssueLoop tun pendingLimit aid vi (vq.deadlineTree.length + 1) vq

/-- mirrors vdev_queue_agg_io_done (vdev_queue.c:171-186): when a read
aggregate completes, each constituent receives its part of the buffer. -/
def aggIoDone (aio : Zio) (cs : List Zio) : List Zio :=
  if aio.isWrite then cs
  else cs.map fun pio => { pio with data := (aio.data.drop (pio.offset - aio.offset)).take pio.size }

/-- A read aggregate that returns the disk's bytes over its span hands each
constituent the disk's bytes over its own extent. -/
theorem aggIoDone_read {vq : VdevQueue} {aio : Zio} {cs : List Zio} (hok : AggOk tun vq aio cs)
    (hr : aio.isWrite = false) (disk : ℕ → UInt8) :
    aggIoDone { aio with data := Buffer.read disk aio.offset aio.size } cs =
      cs.map fun c => { c with data := Buffer.read disk c.offset c.size } := by
  simp only [aggIoDone, hr, Bool.false_eq_true, if_false]
  refine List.map_congr_left fun c hc => ?_
  obtain ⟨hlo, hhi⟩ := hok.covers c hc
  -- the constituent's extent starts inside the aggregate's and ends before it
  have h := Buffer.read_eq_take_drop (m := disk) (s := aio.offset) (a := c.offset - aio.offset)
    (b := c.size) (n := aio.size) (by omega)
  rw [Nat.add_sub_cancel' hlo] at h
  rw [h]

/-- One `goto again` of vdev_queue_io_to_issue: a queued NODATA zio left
the queue and nothing became pending. -/
def Dropped (vq vq' : VdevQueue) : Prop :=
  ∃ z, z ∈ vq.tree z.isWrite ∧ z.nodata = true ∧ Removed vq vq' z.isWrite [z.id] ∧
    vq'.pendingTree = vq.pendingTree

/-- Each drop shortens the deadline tree, which bounds the passes. -/
theorem Dropped.length_lt {vq vq' : VdevQueue} (hq : QueueInv vq) (h : Dropped vq vq') :
    vq'.deadlineTree.length < vq.deadlineTree.length := by
  obtain ⟨z, hz, -, ⟨hdl, -, -⟩, -⟩ := h
  have hmem : z.id ∈ vq.deadlineTree.map Zio.id := List.mem_map_of_mem (hq.mem_deadline hz)
  have hlt : ((vq.deadlineTree.map Zio.id).filter fun x => decide (x ∉ [z.id])).length <
      (vq.deadlineTree.map Zio.id).length :=
    List.length_filter_lt_length_iff_exists.2 ⟨z.id, hmem, by simp⟩
  rw [← hdl, List.length_map, List.length_map] at hlt
  exact hlt

/-- What the last pass of vdev_queue_io_to_issue returns from the queue
`vq` it starts on: NULL leaves the queue alone, a single zio or an
aggregate is issued and its zios leave the queue. -/
def IssueOk (pendingLimit : ℕ) (vq : VdevQueue) : Issue → VdevQueue → Prop
  | .null, vq' => vq' = vq ∧ (pendingLimit ≤ vq.pendingTree.length ∨ vq.deadlineTree = [])
  | .single z, vq' => z ∈ vq.tree z.isWrite ∧ z.nodata = false ∧ QueueInv vq' ∧
      Removed vq vq' z.isWrite [z.id] ∧ vq'.pendingTree = z :: vq.pendingTree
  | .agg aio cs, vq' => AggOk tun vq aio cs ∧ QueueInv vq' ∧
      Removed vq vq' aio.isWrite (cs.map Zio.id) ∧ vq'.pendingTree = aio :: vq.pendingTree ∧
      (aio.isWrite = false → ∀ disk, aggIoDone { aio with data := Buffer.read disk aio.offset aio.size } cs =
        cs.map fun c => { c with data := Buffer.read disk c.offset c.size })

/-- The loop with more fuel than queued zios ends: after some drops, its
last pass returns what `IssueOk` describes. -/
theorem ioToIssueLoop_spec {pendingLimit aid : ℕ} {vi : ℕ → UInt8} :
    ∀ (fuel : ℕ) (vq : VdevQueue), QueueInv vq → vq.deadlineTree.length < fuel →
      ∃ r vq₁ vq', ioToIssueLoop tun pendingLimit aid vi fuel vq = some (r, vq') ∧
        Relation.ReflTransGen Dropped vq vq₁ ∧ QueueInv vq₁ ∧ IssueOk tun pendingLimit vq₁ r vq'
  | 0, _, _, hfuel => absurd hfuel (Nat.not_lt_zero _)
  | fuel + 1, vq, hq, hfuel => by
    rcases h : ioToIssueOnce tun pendingLimit aid vi vq with _ | ⟨z, vq'⟩ | ⟨aio, cs, vq'⟩ | ⟨z, vq'⟩
    case null =>
      exact ⟨.null, vq, vq, by simp [ioToIssueLoop, h], .refl, hq, rfl, ioToIssueOnce_null tun h⟩
    case single =>
      exact ⟨.single z, vq, vq', by simp [ioToIssueLoop, h], .refl, hq, ioToIssueOnce_single tun hq h⟩
    case agg =>
      obtain ⟨hok, hinv, hrem, hpend⟩ := ioToIssueOnce_agg tun hq h
      exact ⟨.agg aio cs, vq, vq', by simp [ioToIssueLoop, h], .refl, hq, hok, hinv, hrem, hpend,
        aggIoDone_read tun hok⟩
    case discard =>
      -- the dropped zio shortens the deadline tree, so the fuel left suffices
      obtain ⟨hz, hn, hinv, hrem, hpend⟩ := ioToIssueOnce_discard tun hq h
      have hdrop : Dropped vq vq' := ⟨z, hz, hn, hrem, hpend⟩
      have hlt := hdrop.length_lt hq
      obtain ⟨r, vq₁, vq'', hloop, hrt, hq₁, hok⟩ := @ioToIssueLoop_spec pendingLimit aid vi fuel vq' hinv (by omega)
      exact ⟨r, vq₁, vq'', by simp [ioToIssueLoop, h, hloop], .head hdrop hrt, hq₁, hok⟩

theorem vdev_queue_aggregate_correct (pendingLimit aid : ℕ) (vi : ℕ → UInt8) (vq : VdevQueue)
    (hq : QueueInv vq) :
    ∃ r vq₁ vq', vdevQueueIoToIssue tun pendingLimit aid vi vq = some (r, vq') ∧
      Relation.ReflTransGen Dropped vq vq₁ ∧ QueueInv vq₁ ∧ IssueOk tun pendingLimit vq₁ r vq' :=
  ioToIssueLoop_spec tun _ vq hq (Nat.lt_succ_self _)

theorem vdev_queue_aggregate_two_writes :
    let vq : VdevQueue := ⟨[⟨2, 100, 10, 0, true, 1, []⟩, ⟨1, 90, 10, 0, true, 5, []⟩], [],
      [⟨1, 90, 10, 0, true, 5, []⟩, ⟨2, 100, 10, 0, true, 1, []⟩], []⟩
    QueueInv vq ∧ ∃ r vq₁ vq', vdevQueueIoToIssue {} 10 99 (fun _ => 0) vq = some (r, vq') ∧
      Relation.ReflTransGen Dropped vq vq₁ ∧ QueueInv vq₁ ∧ IssueOk {} 10 vq₁ r vq' := by
  intro vq
  have hq : QueueInv vq :=
    ⟨by decide, by decide, by decide, by decide, by decide, by decide, by decide⟩
  exact ⟨hq, vdev_queue_aggregate_correct {} 10 99 (fun _ => 0) vq hq⟩

end Issue

end ZfsOsx.Queue
