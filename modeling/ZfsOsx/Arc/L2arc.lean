import Mathlib
/-!
# The L2ARC device ring (`module/zfs/arc.c`)

A cache device is written as a ring. Every second the feed thread picks a
device, computes the size of the next write, `l2arc_write_max` plus
`l2arc_write_boost` while the ARC is cold, and runs two passes over the ring
at the write hand:

* `l2arc_evict` clears the device range ahead of the hand: from the tail of
  `l2ad_buflist`, the oldest headers written, it drops every header whose
  `b_daddr` lies between the hand and a target address, and stops at the
  first one outside. Near the end of the device it clears to the end. On the
  first sweep there is nothing to clear.
* `l2arc_write_buffers` walks the ARC lists and writes eligible buffers at
  the hand, one after the other, until the next would pass the write size.
  After the batch the hand jumps back to the device start when it is within
  one write size of the end.

The model keeps the device's offsets in `ℕ`: they stay far below `2 ^ 64`,
except for the differences `l2ad_end - 2 * distance` and
`l2ad_end - target_sz`, which wrap when the device is small, and which the
model computes modulo `2 ^ 64`. The hash locks are modelled by what a failed
`mutex_tryenter` does: `l2arc_write_buffers` skips the buffer (`locked`);
`l2arc_evict` retries, which changes nothing.
-/
namespace ZfsOsx.Arc

/-- `a - b` on `uint64_t`, for `a < 2 ^ 64`. -/
def u64Sub (a b : ℕ) : ℕ := (a + 2 ^ 64 - b % 2 ^ 64) % 2 ^ 64

/-- `VDEV_LABEL_START_SIZE`: two 256K labels and the 3.5M boot area. -/
def vdevLabelStartSize : ℕ := 2 * 262144 + 7 * 2 ^ 19

/-- `vdev_psize_to_asize` of a leaf: the size rounded up to the sector. -/
def vdevPsizeToAsize (ashift psize : ℕ) : ℕ := (psize + 2 ^ ashift - 1) / 2 ^ ashift * 2 ^ ashift

/-- An ARC header as `l2arc_evict` finds it on `l2ad_buflist`: its size, the
`b_daddr` of its `b_l2hdr` (`none` once `b_l2hdr` is `NULL`), and the flags
the L2ARC passes read and set. -/
structure L2Hdr where
  id : ℕ
  size : ℕ
  daddr : Option ℕ
  reading : Bool
  evicted : Bool
  writing : Bool
  freeInProgress : Bool
  l2cOnly : Bool
  deriving DecidableEq, Repr

/-- An entry of `l2ad_buflist`: a header, or the dummy `ARC_L2_WRITE_HEAD`
that marks where a write batch begins. -/
inductive L2Entry
  | writeHead
  | hdr (h : L2Hdr)
  deriving DecidableEq, Repr

/-- A cache device: `l2ad_write`, `l2ad_boost`, `l2ad_start`, `l2ad_end`,
`l2ad_hand`, `l2ad_evict`, `l2ad_first`, and `l2ad_buflist` from its head,
the newest entry, to its tail. -/
structure L2ArcDev where
  write : ℕ
  boost : ℕ
  start : ℕ
  devEnd : ℕ
  hand : ℕ
  evict : ℕ
  first : Bool
  buflist : List L2Entry
  deriving DecidableEq, Repr

/-- `l2arc_add_vdev`: a device of `vdev_get_min_asize(vd)` bytes after the
front labels, its hand at the start, on its first sweep.
mirrors module/zfs/arc.c:4797-4837 -/
def l2arcAddVdev (l2arcWriteMax l2arcWriteBoost minAsize : ℕ) : L2ArcDev where
  write := l2arcWriteMax
  boost := l2arcWriteBoost
  start := vdevLabelStartSize
  devEnd := vdevLabelStartSize + minAsize
  hand := vdevLabelStartSize
  evict := vdevLabelStartSize
  first := true
  buflist := []

/-- `l2arc_write_size(dev)`.
mirrors module/zfs/arc.c:4045-4057 -/
def l2arcWriteSize (dev : L2ArcDev) (arcWarm : Bool) : ℕ :=
  if arcWarm then dev.write else dev.write + dev.boost

/-! ## `l2arc_evict` -/

/-- What `l2arc_evict` does to a header it takes off the list: a read in
flight is marked `ARC_L2_EVICTED`, `b_l2hdr` is freed, `ARC_L2_WRITING` is
cleared. -/
def L2Hdr.dropL2 (h : L2Hdr) : L2Hdr :=
  { h with evicted := h.evicted || h.reading, daddr := none, writing := false }

/-- The header has a `b_l2hdr` whose address lies outside `[hand, taddr]`. -/
def L2Hdr.outside (h : L2Hdr) (hand taddr : ℕ) : Bool :=
  match h.daddr with
  | some d => decide (taddr < d ∨ d < hand)
  | none => false

/-- The loop of `l2arc_evict` from the tail of the list (given tail first):
the entries it keeps, tail first, and the headers it takes off the list and
leaves in the ARC. Write heads go; the walk stops at the first header whose
address lies outside `[hand, taddr]`; a header being freed stays; an
`arc_l2c_only` header is destroyed.
mirrors module/zfs/arc.c:4405-4488 -/
def l2arcEvictLoop (all : Bool) (hand taddr : ℕ) : List L2Entry → List L2Entry × List L2Hdr
  | [] => ([], [])
  | .writeHead :: rest => l2arcEvictLoop all hand taddr rest
  | .hdr h :: rest =>
    if !all && h.outside hand taddr then
      (.hdr h :: rest, [])
    else if h.freeInProgress then
      let r := l2arcEvictLoop all hand taddr rest
      (.hdr h :: r.1, r.2)
    else if h.l2cOnly then l2arcEvictLoop all hand taddr rest
    else
      let r := l2arcEvictLoop all hand taddr rest
      (r.1, h.dropL2 :: r.2)

/-- The address `l2arc_evict` clears to: the device end when the hand is
within twice the distance of it, else `distance` past the hand.
mirrors module/zfs/arc.c:4393-4402 -/
def l2arcEvictTarget (dev : L2ArcDev) (distance : ℕ) : ℕ :=
  if u64Sub dev.devEnd (2 * distance) ≤ dev.hand then dev.devEnd else dev.hand + distance

/-- `l2arc_evict(dev, distance, all)`: the device and the headers taken off
its list.
mirrors module/zfs/arc.c:4375-4497 -/
def l2arcEvict (dev : L2ArcDev) (distance : ℕ) (all : Bool) : L2ArcDev × List L2Hdr :=
  if !all ∧ dev.first then (dev, [])
  else
    let taddr := l2arcEvictTarget dev distance
    let r := l2arcEvictLoop all dev.hand taddr dev.buflist.reverse
    ({ dev with buflist := r.1.reverse, evict := taddr }, r.2)

/-! ## `l2arc_write_buffers` -/

/-- An ARC header on one of the lists the feed walks: its id and `b_size`,
whether its hash lock is taken by someone else, and
`l2arc_write_eligible(guid, ab)`. -/
structure L2Cand where
  id : ℕ
  size : ℕ
  locked : Bool
  eligible : Bool
  deriving DecidableEq, Repr

/-- What the write loop carries: `write_sz`, the hand, the device list, the
writes issued so far as `(offset, size)` in order, and whether the batch has
started (`pio != NULL`). -/
structure L2Batch where
  writeSz : ℕ
  hand : ℕ
  buflist : List L2Entry
  writes : List (ℕ × ℕ)
  started : Bool
  deriving DecidableEq, Repr

/-- The header `l2arc_write_buffers` puts on the list for a buffer it
writes at `hand`. -/
def L2Cand.toHdr (ab : L2Cand) (hand : ℕ) : L2Hdr :=
  ⟨ab.id, ab.size, some hand, false, false, true, false, false⟩

/-- One write of the loop: the first puts the write head on the list; the
header goes on the list at the head, its write is issued at the hand, and
the hand moves by the allocated size.
mirrors module/zfs/arc.c:4584-4634 -/
def L2Batch.add (st : L2Batch) (ashift : ℕ) (ab : L2Cand) : L2Batch :=
  let asize := vdevPsizeToAsize ashift ab.size
  { writeSz := st.writeSz + asize
    hand := st.hand + asize
    buflist := .hdr (ab.toHdr st.hand) :: if st.started then st.buflist else .writeHead :: st.buflist
    writes := st.writes ++ [(st.hand, ab.size)]
    started := true }

/-- The walk of one ARC list, in the order the feed takes it: the batch
after it and whether it stopped because the batch was full. `passedSz`
counts the sizes seen against the headroom.
mirrors module/zfs/arc.c:4547-4635 -/
def l2arcWriteList (targetSz headroom ashift : ℕ) :
    ℕ → L2Batch → List L2Cand → L2Batch × Bool
  | _, st, [] => (st, false)
  | passedSz, st, ab :: rest =>
    if ab.locked then l2arcWriteList targetSz headroom ashift passedSz st rest
    else
      let passedSz := passedSz + ab.size
      if headroom < passedSz then (st, false)
      else if !ab.eligible then l2arcWriteList targetSz headroom ashift passedSz st rest
      else if targetSz < st.writeSz + ab.size then (st, true)
      else l2arcWriteList targetSz headroom ashift passedSz (st.add ashift ab) rest

/-- The four lists, metadata before data and MFU before MRU, each from its
head while the ARC is cold and from its tail once it is warm; the walk ends
at the first list that fills the batch.
mirrors module/zfs/arc.c:4532-4642 -/
def l2arcWriteLists (arcWarm : Bool) (targetSz headroom ashift : ℕ) :
    L2Batch → List (List L2Cand) → L2Batch
  | st, [] => st
  | st, l :: ls =>
    let r := l2arcWriteList targetSz headroom ashift 0 st (if arcWarm then l.reverse else l)
    if r.2 then r.1 else l2arcWriteLists arcWarm targetSz headroom ashift r.1 ls

/-- `l2arc_write_done` for the batch: from the newest entry back to the
write head, each header is readable again (`ARC_L2_WRITING` cleared), or on
a write error dropped from the list; the write head goes.
mirrors module/zfs/arc.c:4185-4254 -/
def l2arcWriteDone (ioError : Bool) : List L2Entry → List L2Entry
  | [] => []
  | .writeHead :: rest => rest
  | .hdr h :: rest =>
    if ioError then l2arcWriteDone ioError rest
    else .hdr { h with writing := false } :: l2arcWriteDone ioError rest

/-- `l2arc_write_buffers(spa, dev, target_sz)`: the device, the writes
issued, and the bytes written. `l2arcHeadroom` is the tunable, `lists` the
four ARC lists from their heads; `ioError` is the outcome of the batch's
`zio`.
mirrors module/zfs/arc.c:4506-4676 -/
def l2arcWriteBuffers (dev : L2ArcDev) (arcWarm : Bool) (l2arcHeadroom ashift : ℕ)
    (lists : List (List L2Cand)) (ioError : Bool) (targetSz : ℕ) :
    L2ArcDev × List (ℕ × ℕ) × ℕ :=
  let st := l2arcWriteLists arcWarm targetSz (targetSz * l2arcHeadroom) ashift
    ⟨0, dev.hand, dev.buflist, [], false⟩ lists
  if !st.started then (dev, [], 0)
  else
    let dev := { dev with hand := st.hand, buflist := st.buflist }
    -- the hand jumps to the start within one write of the end
    let dev := if u64Sub dev.devEnd targetSz ≤ dev.hand then
      { dev with hand := dev.start, evict := dev.start, first := false } else dev
    ({ dev with buflist := l2arcWriteDone ioError dev.buflist }, st.writes, st.writeSz)

/-! ## The feed thread -/

/-- What the rest of the system gives one feed: whether the ARC is warm,
the four ARC lists, and whether the batch's write fails. -/
structure FeedInput where
  arcWarm : Bool
  lists : List (List L2Cand)
  ioError : Bool
  deriving DecidableEq, Repr

/-- One round of `l2arc_feed_thread` on a device: `l2arc_evict` ahead of the
hand by the write size, then `l2arc_write_buffers`. The result is the device
and the writes issued.
mirrors module/zfs/arc.c:4683-4774 -/
def l2arcFeed (l2arcHeadroom ashift : ℕ) (dev : L2ArcDev) (inp : FeedInput) :
    L2ArcDev × List (ℕ × ℕ) :=
  let size := l2arcWriteSize dev inp.arcWarm
  let dev := (l2arcEvict dev size false).1
  let r := l2arcWriteBuffers dev inp.arcWarm l2arcHeadroom ashift inp.lists inp.ioError size
  (r.1, r.2.1)

/-- A run of feeds: the device at the end and every write issued, in order. -/
def l2arcFeedRun (l2arcHeadroom ashift : ℕ) : L2ArcDev → List FeedInput → L2ArcDev × List (ℕ × ℕ)
  | dev, [] => (dev, [])
  | dev, inp :: rest =>
    let r := l2arcFeed l2arcHeadroom ashift dev inp
    let r' := l2arcFeedRun l2arcHeadroom ashift r.1 rest
    (r'.1, r.2 ++ r'.2)

/-! ## A device smaller than one write -/

/-- With the ARC cold, a cache device of 4K behind its labels and write sizes
of 8K each: the first feed writes an eligible 8K buffer at the start of the
device, 4K past its end. -/
theorem l2arc_feed_small_device :
    let dev := l2arcAddVdev 8192 8192 4096
    (l2arcFeed 2 9 dev ⟨false, [[⟨1, 8192, false, true⟩], [], [], []], false⟩).2 =
        [(dev.start, 8192)] ∧ dev.devEnd < dev.start + 8192 := by
  decide

/-! ## The write window -/

/-- What the write loop keeps: the hand is `write_sz` past the hand `hand0`
the batch began at, and every write issued lies within `target_sz` of
`hand0`. -/
structure BatchInv (hand0 targetSz : ℕ) (st : L2Batch) : Prop where
  hand_eq : st.hand = hand0 + st.writeSz
  writes_in : ∀ w ∈ st.writes, hand0 ≤ w.1 ∧ w.1 + w.2 ≤ hand0 + targetSz

theorem BatchInv.init (hand0 targetSz : ℕ) (buflist : List L2Entry) :
    BatchInv hand0 targetSz ⟨0, hand0, buflist, [], false⟩ :=
  ⟨rfl, fun _ h => absurd h List.not_mem_nil⟩

/-- One write keeps the window: the loop only adds a buffer that fits in
what is left of `target_sz`, counted in physical sizes. -/
theorem BatchInv.add {hand0 targetSz ashift : ℕ} {st : L2Batch} (h : BatchInv hand0 targetSz st)
    {ab : L2Cand} (hfit : st.writeSz + ab.size ≤ targetSz) :
    BatchInv hand0 targetSz (st.add ashift ab) where
  hand_eq := by
    simp only [L2Batch.add, h.hand_eq]
    omega
  writes_in w hw := by
    simp only [L2Batch.add, List.mem_append, List.mem_singleton] at hw
    rcases hw with hw | rfl
    · exact h.writes_in w hw
    · have := h.hand_eq
      constructor <;> omega

section Window

variable {targetSz headroom ashift hand0 : ℕ}

/-- The walk of one list keeps the window. -/
theorem l2arcWriteList_inv (l : List L2Cand) (passedSz : ℕ) (st : L2Batch)
    (h : BatchInv hand0 targetSz st) :
    BatchInv hand0 targetSz (l2arcWriteList targetSz headroom ashift passedSz st l).1 := by
  induction l generalizing passedSz st with
  | nil => exact h
  | cons ab rest ih =>
    unfold l2arcWriteList
    -- the skips, the stops, and the write, as the loop tests them
    by_cases hl : ab.locked = true
    · simpa [hl] using ih passedSz st h
    by_cases hr : headroom < passedSz + ab.size
    · simpa [hl, hr] using h
    by_cases he : ab.eligible = true
    · by_cases hf : targetSz < st.writeSz + ab.size
      · simpa [hl, hr, he, hf] using h
      · simpa [hl, hr, he, hf] using ih _ _ (h.add (Nat.le_of_not_lt hf))
    · simpa [hl, hr, he] using ih _ st h

/-- The walk of the four lists keeps the window. -/
theorem l2arcWriteLists_inv (arcWarm : Bool) (ls : List (List L2Cand)) (st : L2Batch)
    (h : BatchInv hand0 targetSz st) :
    BatchInv hand0 targetSz (l2arcWriteLists arcWarm targetSz headroom ashift st ls) := by
  induction ls generalizing st with
  | nil => exact h
  | cons l ls ih =>
    have hl := @l2arcWriteList_inv targetSz headroom ashift hand0
      (if arcWarm then l.reverse else l) 0 st h
    -- the walk ends at the list that fills the batch
    by_cases hfull : (l2arcWriteList targetSz headroom ashift 0 st
        (if arcWarm then l.reverse else l)).2 = true
    · simpa only [l2arcWriteLists, hfull, if_true] using hl
    · simpa only [l2arcWriteLists, hfull, Bool.false_eq_true, if_false] using ih _ hl

end Window

/-! ## The ring stays on the device -/

/-- The ring's bounds for a write size `T`: the hand and the eviction mark
lie on the device, and `T` bytes from the hand fit before its end, which is
a `uint64_t`. -/
structure RingBounds (dev : L2ArcDev) (T : ℕ) : Prop where
  start_le_hand : dev.start ≤ dev.hand
  hand_add_le : dev.hand + T ≤ dev.devEnd
  start_le_evict : dev.start ≤ dev.evict
  evict_le_end : dev.evict ≤ dev.devEnd
  end_lt : dev.devEnd < 2 ^ 64

theorem RingBounds.mono {dev : L2ArcDev} {T T' : ℕ} (h : RingBounds dev T) (hT : T' ≤ T) :
    RingBounds dev T' :=
  ⟨h.start_le_hand, by have := h.hand_add_le; omega, h.start_le_evict, h.evict_le_end, h.end_lt⟩

theorem u64Sub_of_le {a b : ℕ} (hb : b ≤ a) (ha : a < 2 ^ 64) : u64Sub a b = a - b := by
  have hb' : b % 2 ^ 64 = b := Nat.mod_eq_of_lt (by omega)
  unfold u64Sub
  rw [hb', show a + 2 ^ 64 - b = (a - b) + 2 ^ 64 by omega, Nat.add_mod_right,
    Nat.mod_eq_of_lt (by omega)]

/-- Eviction moves only the eviction mark, to the end of the device or one
write past the hand, both on the device. -/
theorem l2arcEvict_bounds {dev : L2ArcDev} {T : ℕ} (h : RingBounds dev T) :
    RingBounds (l2arcEvict dev T false).1 T ∧ (l2arcEvict dev T false).1.hand = dev.hand ∧
      (l2arcEvict dev T false).1.start = dev.start ∧ (l2arcEvict dev T false).1.devEnd = dev.devEnd ∧
      (l2arcEvict dev T false).1.write = dev.write ∧ (l2arcEvict dev T false).1.boost = dev.boost := by
  have ht : dev.start ≤ l2arcEvictTarget dev T ∧ l2arcEvictTarget dev T ≤ dev.devEnd := by
    have := h.start_le_hand
    have := h.hand_add_le
    unfold l2arcEvictTarget
    split <;> omega
  -- taken apart, so that no check compares the rebuilt list with the old one
  obtain ⟨wr, bo, st, en, ha, ev, fi, bl⟩ := dev
  unfold l2arcEvict
  split
  · exact ⟨h, rfl, rfl, rfl, rfl, rfl⟩
  · exact ⟨⟨h.start_le_hand, h.hand_add_le, ht.1, ht.2, h.end_lt⟩, rfl, rfl, rfl, rfl, rfl⟩

/-- A batch of writes keeps the ring on the device: every write lies between
the hand and one write size past it, and after the batch the hand is back at
the start or more than one write size before the end. -/
theorem l2arcWriteBuffers_bounds {dev : L2ArcDev} {T : ℕ} (h : RingBounds dev T)
    (arcWarm : Bool) (l2arcHeadroom ashift : ℕ) (lists : List (List L2Cand)) (ioError : Bool) :
    let r := l2arcWriteBuffers dev arcWarm l2arcHeadroom ashift lists ioError T
    RingBounds r.1 T ∧ (∀ w ∈ r.2.1, dev.start ≤ w.1 ∧ w.1 + w.2 ≤ dev.devEnd) ∧
      r.1.start = dev.start ∧ r.1.devEnd = dev.devEnd ∧ r.1.write = dev.write ∧
      r.1.boost = dev.boost := by
  intro r
  obtain ⟨wr, bo, st, en, ha, ev, fi, bl⟩ := dev
  obtain ⟨hb, he, hse, hee, hlt⟩ := h
  dsimp only at hb he hse hee hlt
  have hinv := @l2arcWriteLists_inv T (T * l2arcHeadroom) ashift ha arcWarm lists
    _ (BatchInv.init ha T bl)
  have hsub : u64Sub en T = en - T := u64Sub_of_le (by omega) hlt
  simp only [r, l2arcWriteBuffers]
  generalize l2arcWriteLists arcWarm T (T * l2arcHeadroom) ashift ⟨0, ha, bl, [], false⟩ lists = B
    at hinv ⊢
  obtain ⟨hh, hw⟩ := hinv
  by_cases hs : B.started = true
  · rw [if_neg (by simp [hs]), hsub]
    refine ⟨?_, fun w hw' => ?_, ?_, ?_, ?_, ?_⟩
    -- the hand after the batch: wrapped to the start, or before the end by more than T
    · by_cases hwrap : en - T ≤ B.hand
      · rw [if_pos hwrap]
        constructor <;> dsimp only <;> omega
      · rw [if_neg hwrap]
        constructor <;> dsimp only <;> omega
    · have := hw w hw'
      omega
    all_goals split <;> rfl
  · rw [if_pos (by simp [hs])]
    exact ⟨⟨hb, he, hse, hee, hlt⟩, by simp, rfl, rfl, rfl, rfl⟩

/-- A write size never grows along a run: the ARC only turns warm. -/
def WarmMono (w : Bool) (inputs : List FeedInput) : Prop :=
  (∀ inp ∈ inputs, w = true → inp.arcWarm = true) ∧
    inputs.Pairwise fun a b => a.arcWarm = true → b.arcWarm = true

theorem l2arcWriteSize_antitone (dev : L2ArcDev) {w w' : Bool} (h : w = true → w' = true) :
    l2arcWriteSize dev w' ≤ l2arcWriteSize dev w := by
  cases w <;> cases w' <;> simp_all [l2arcWriteSize]

/-- One feed keeps the bounds for its own write size and issues its writes
on the device. -/
theorem l2arcFeed_bounds {dev : L2ArcDev} {w : Bool} (h : RingBounds dev (l2arcWriteSize dev w))
    (l2arcHeadroom ashift : ℕ) (inp : FeedInput) (hw : w = true → inp.arcWarm = true) :
    let r := l2arcFeed l2arcHeadroom ashift dev inp
    RingBounds r.1 (l2arcWriteSize r.1 inp.arcWarm) ∧
      (∀ w ∈ r.2, dev.start ≤ w.1 ∧ w.1 + w.2 ≤ dev.devEnd) ∧
      r.1.start = dev.start ∧ r.1.devEnd = dev.devEnd ∧ r.1.write = dev.write ∧
      r.1.boost = dev.boost := by
  intro r
  have h' := h.mono (l2arcWriteSize_antitone dev hw)
  obtain ⟨he, -, hs, hd, hwr, hbo⟩ := l2arcEvict_bounds h'
  obtain ⟨hb, hin, hs', hd', hwr', hbo'⟩ :=
    l2arcWriteBuffers_bounds he inp.arcWarm l2arcHeadroom ashift inp.lists inp.ioError
  simp only [r, l2arcFeed]
  generalize l2arcEvict dev (l2arcWriteSize dev inp.arcWarm) false = E at *
  generalize l2arcWriteBuffers E.1 inp.arcWarm l2arcHeadroom ashift inp.lists inp.ioError
    (l2arcWriteSize dev inp.arcWarm) = W at *
  -- the write size is read from fields the feed leaves alone
  have hsize : l2arcWriteSize W.1 inp.arcWarm = l2arcWriteSize dev inp.arcWarm := by
    simp only [l2arcWriteSize, hwr', hbo', hwr, hbo]
  refine ⟨hsize ▸ hb, fun w hw => ?_, hs'.trans hs, hd'.trans hd, hwr'.trans hwr, hbo'.trans hbo⟩
  have := hin w hw
  rw [hs, hd] at this
  exact this

/-- The run lemma: along any run of feeds in which the ARC only turns warm,
every write lies on the device. -/
theorem l2arcFeedRun_in_range (l2arcHeadroom ashift : ℕ) (inputs : List FeedInput) :
    ∀ (dev : L2ArcDev) (w : Bool), RingBounds dev (l2arcWriteSize dev w) → WarmMono w inputs →
      ∀ wr ∈ (l2arcFeedRun l2arcHeadroom ashift dev inputs).2,
        dev.start ≤ wr.1 ∧ wr.1 + wr.2 ≤ dev.devEnd := by
  induction inputs with
  | nil => intro _ _ _ _ wr hwr; simp [l2arcFeedRun] at hwr
  | cons inp rest ih =>
    intro dev w h hmono wr hwr
    obtain ⟨hall, hpair⟩ := hmono
    have hw : w = true → inp.arcWarm = true := hall inp (List.mem_cons_self ..)
    obtain ⟨hb, hin, hs, hd, -, -⟩ := l2arcFeed_bounds h l2arcHeadroom ashift inp hw
    have hmono' : WarmMono inp.arcWarm rest :=
      ⟨fun b hb' => (List.pairwise_cons.1 hpair).1 b hb', (List.pairwise_cons.1 hpair).2⟩
    simp only [l2arcFeedRun, List.mem_append] at hwr
    rcases hwr with hwr | hwr
    · exact hin wr hwr
    · have := ih _ _ hb hmono' wr hwr
      rw [hs, hd] at this
      exact this

/-- A cache device that holds one cold write behind its labels is written
only within `[l2ad_start, l2ad_end)`, whatever the ARC holds and whatever
the writes' outcomes, as long as the ARC only turns warm. -/
theorem l2arc_feed_run_on_device (l2arcWriteMax l2arcWriteBoost minAsize : ℕ)
    (hfit : l2arcWriteMax + l2arcWriteBoost ≤ minAsize)
    (hsmall : vdevLabelStartSize + minAsize < 2 ^ 64)
    (l2arcHeadroom ashift : ℕ) (inputs : List FeedInput) (hmono : WarmMono false inputs) :
    let dev := l2arcAddVdev l2arcWriteMax l2arcWriteBoost minAsize
    ∀ wr ∈ (l2arcFeedRun l2arcHeadroom ashift dev inputs).2,
      dev.start ≤ wr.1 ∧ wr.1 + wr.2 ≤ dev.devEnd := by
  intro dev
  have h : RingBounds dev (l2arcWriteSize dev false) :=
    ⟨le_refl _,
      show vdevLabelStartSize + (l2arcWriteMax + l2arcWriteBoost) ≤ vdevLabelStartSize + minAsize by
        omega,
      le_refl _, show vdevLabelStartSize ≤ vdevLabelStartSize + minAsize by omega, hsmall⟩
  exact l2arcFeedRun_in_range l2arcHeadroom ashift inputs dev false h hmono

end ZfsOsx.Arc
