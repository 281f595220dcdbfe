import ZfsOsx.Lib.Forest

/-!
# ARC state accounting (`module/zfs/arc.c`)

Every ARC buffer header is in one of six states. Each state keeps, per
buffer type, the list `arcs_list[t]` of its evictable headers and their
size `arcs_lsize[t]`, and in `arcs_size` the size of all its headers. A
header counts `b_size * b_datacnt` in the states that hold data and
`b_size` in the ghost states, which remember only where the data was.
`add_reference` and `remove_reference` take a header off its list when it
gets its first reference and put it back when it loses its last one;
`arc_change_state` moves a header and its counts; `arc_get_data_buf` and
`arc_buf_destroy` count a buffer in and out; `arc_evict` and
`arc_evict_ghost` walk a list from its tail.

The counters are `uint64_t`; the model counts in `ℤ`, and the invariant
shows that no subtraction goes below zero. A step is a section the code
runs under the header's hash lock: the ghost hit of `arc_read_nolock`,
which gives a ghost header a buffer and moves it out of the ghost state,
is one step.

* `ArcInv`: a header is on `arcs_list[t]` of `S` iff it is in `S`, of type
  `t`, `S` is not `arc_anon` and it has no reference; the counters are the
  sums of what the headers count; ghost headers hold no data.
* One lemma per function keeps it, each under the assertions of the
  function and of its callers; `ArcReach.inv` is the run lemma.
* `arc_state_accounting`: in every state a run reaches, each counter is
  the sum over the headers, read off the list for `arcs_lsize`.
-/
namespace ZfsOsx.Arc

/-- `arc_anon`, `arc_mru`, `arc_mru_ghost`, `arc_mfu`, `arc_mfu_ghost` and
`arc_l2c_only`. -/
inductive ArcState
  | anon | mru | mruGhost | mfu | mfuGhost | l2cOnly
  deriving DecidableEq, Repr

instance : Fintype ArcState where
  elems := {.anon, .mru, .mruGhost, .mfu, .mfuGhost, .l2cOnly}
  complete s := by cases s <;> decide

/-- `GHOST_STATE(state)`.
mirrors module/zfs/arc.c:538-540 -/
def ArcState.ghost : ArcState → Bool
  | .mruGhost | .mfuGhost | .l2cOnly => true
  | .anon | .mru | .mfu => false

@[simp] theorem ArcState.ghost_anon : ArcState.anon.ghost = false := rfl
@[simp] theorem ArcState.ghost_mru : ArcState.mru.ghost = false := rfl
@[simp] theorem ArcState.ghost_mfu : ArcState.mfu.ghost = false := rfl

/-- `arc_buf_contents_t`. -/
inductive ArcBufContents
  | data | metadata
  deriving DecidableEq, Repr

instance : Fintype ArcBufContents where
  elems := {.data, .metadata}
  complete t := by cases t <;> decide

/-- The fields of `arc_buf_hdr_t` the accounting reads: `b_state`,
`b_type`, `b_size`, `b_spa`, `b_datacnt` (the buffers that hold data),
`refcount_count(&b_refcnt)`, the flag `ARC_PREFETCH` and whether `b_l2hdr`
is set. -/
structure ArcBufHdr where
  state : ArcState
  type : ArcBufContents
  size : ℕ
  spa : ℕ
  datacnt : ℕ
  refcnt : ℕ
  prefetch : Bool
  l2hdr : Bool
  deriving DecidableEq, Repr

/-- The headers, by name, and for each state `arcs_list`, `arcs_lsize` and
`arcs_size`. -/
structure ArcCache (H : Type*) where
  hdr : H → ArcBufHdr
  list : ArcState → ArcBufContents → List H
  lsize : ArcState → ArcBufContents → ℤ
  size : ArcState → ℤ

section Update

variable {H : Type*} [DecidableEq H] (arc : ArcCache H)

/-- A header's fields written. -/
def ArcCache.setHdr (ab : H) (h : ArcBufHdr) : ArcCache H :=
  { arc with hdr := Function.update arc.hdr ab h }

/-- `arcs_list[t]` of `s` changed by `f`. -/
def ArcCache.modList (s : ArcState) (t : ArcBufContents) (f : List H → List H) : ArcCache H :=
  { arc with list := Function.update arc.list s (Function.update (arc.list s) t (f (arc.list s t))) }

/-- `atomic_add_64(&s->arcs_lsize[t], d)`. -/
def ArcCache.addLsize (s : ArcState) (t : ArcBufContents) (d : ℤ) : ArcCache H :=
  { arc with lsize := Function.update arc.lsize s (Function.update (arc.lsize s) t (arc.lsize s t + d)) }

/-- `atomic_add_64(&s->arcs_size, d)`. -/
def ArcCache.addSize (s : ArcState) (d : ℤ) : ArcCache H :=
  { arc with size := Function.update arc.size s (arc.size s + d) }

/-- `list_link_active(&ab->b_arc_node)`: the header is on some list. -/
def ArcCache.linked (ab : H) : Prop := ∃ s t, ab ∈ arc.list s t

instance (ab : H) : Decidable (arc.linked ab) :=
  inferInstanceAs (Decidable (∃ s t, ab ∈ arc.list s t))

variable (ab : H) (h : ArcBufHdr) (s s' : ArcState) (t t' : ArcBufContents) (d : ℤ)

@[simp] theorem ArcCache.setHdr_hdr : (arc.setHdr ab h).hdr = Function.update arc.hdr ab h := rfl
@[simp] theorem ArcCache.setHdr_list : (arc.setHdr ab h).list = arc.list := rfl
@[simp] theorem ArcCache.setHdr_lsize : (arc.setHdr ab h).lsize = arc.lsize := rfl
@[simp] theorem ArcCache.setHdr_size : (arc.setHdr ab h).size = arc.size := rfl

@[simp] theorem ArcCache.modList_hdr (f : List H → List H) : (arc.modList s t f).hdr = arc.hdr := rfl
@[simp] theorem ArcCache.modList_lsize (f : List H → List H) :
    (arc.modList s t f).lsize = arc.lsize := rfl
@[simp] theorem ArcCache.modList_size (f : List H → List H) : (arc.modList s t f).size = arc.size :=
  rfl

theorem ArcCache.modList_list (f : List H → List H) :
    (arc.modList s t f).list s' t' = if s' = s ∧ t' = t then f (arc.list s' t') else arc.list s' t' := by
  by_cases hs : s' = s
  · subst hs
    by_cases ht : t' = t
    · subst ht
      simp [modList]
    · simp [modList, ht]
  · simp [modList, hs]

@[simp] theorem ArcCache.addLsize_hdr : (arc.addLsize s t d).hdr = arc.hdr := rfl
@[simp] theorem ArcCache.addLsize_list : (arc.addLsize s t d).list = arc.list := rfl
@[simp] theorem ArcCache.addLsize_size : (arc.addLsize s t d).size = arc.size := rfl

theorem ArcCache.addLsize_lsize :
    (arc.addLsize s t d).lsize s' t' = arc.lsize s' t' + if s' = s ∧ t' = t then d else 0 := by
  by_cases hs : s' = s
  · subst hs
    by_cases ht : t' = t
    · subst ht
      simp [addLsize]
    · simp [addLsize, ht]
  · simp [addLsize, hs]

@[simp] theorem ArcCache.addSize_hdr : (arc.addSize s d).hdr = arc.hdr := rfl
@[simp] theorem ArcCache.addSize_list : (arc.addSize s d).list = arc.list := rfl
@[simp] theorem ArcCache.addSize_lsize : (arc.addSize s d).lsize = arc.lsize := rfl

theorem ArcCache.addSize_size : (arc.addSize s d).size s' = arc.size s' + if s' = s then d else 0 := by
  by_cases hs : s' = s
  · subst hs
    simp [addSize]
  · simp [addSize, hs]

@[simp] theorem ArcCache.setHdr_self : arc.setHdr ab (arc.hdr ab) = arc := by
  unfold setHdr
  rw [Function.update_eq_self]

@[simp] theorem ArcCache.setHdr_setHdr (h' : ArcBufHdr) :
    (arc.setHdr ab h).setHdr ab h' = arc.setHdr ab h' := by
  simp [setHdr]

end Update

/-! ## The functions -/

section Functions

variable {H : Type*} [DecidableEq H]

/-- `add_reference(ab, hash_lock, tag)`: the first reference takes a header
out of a list.
mirrors module/zfs/arc.c:1057-1087 -/
def addReference (arc : ArcCache H) (ab : H) : ArcCache H :=
  let hdr := arc.hdr ab
  let refcnt := hdr.refcnt + 1
  if refcnt = 1 ∧ hdr.state ≠ .anon then
    let delta : ℤ := if hdr.state.ghost then hdr.size else hdr.size * hdr.datacnt
    (((arc.setHdr ab { hdr with refcnt }).modList hdr.state hdr.type (·.erase ab)).addLsize
      hdr.state hdr.type (-delta)).setHdr ab { hdr with refcnt, prefetch := false }
  else arc.setHdr ab { hdr with refcnt }

/-- `remove_reference(ab, hash_lock, tag)`: the last reference puts a header
back at the head of its list. It returns the references left.
mirrors module/zfs/arc.c:1089-1110 -/
def removeReference (arc : ArcCache H) (ab : H) : ArcCache H × ℕ :=
  let hdr := arc.hdr ab
  let cnt := hdr.refcnt - 1
  let arc := arc.setHdr ab { hdr with refcnt := cnt }
  if cnt = 0 ∧ hdr.state ≠ .anon then
    ((arc.modList hdr.state hdr.type (ab :: ·)).addLsize hdr.state hdr.type
      (hdr.size * hdr.datacnt), cnt)
  else (arc, cnt)

/-- The list moves of `arc_change_state` for a header with no reference,
and the deltas they fix for `arcs_size`.
mirrors module/zfs/arc.c:1128-1179 -/
def changeStateLists (arc : ArcCache H) (newState : ArcState) (ab : H) : ArcCache H × ℤ × ℤ :=
  let hdr := arc.hdr ab
  let oldState := hdr.state
  let delta : ℤ := hdr.datacnt * hdr.size
  -- ghost elements have a ghost size
  let (arc, fromDelta) :=
    if oldState ≠ .anon then
      let fromDelta : ℤ := if oldState.ghost ∧ hdr.datacnt = 0 then hdr.size else delta
      ((arc.modList oldState hdr.type (·.erase ab)).addLsize oldState hdr.type (-fromDelta),
        fromDelta)
    else (arc, delta)
  let (arc, toDelta) :=
    if newState ≠ .anon then
      let toDelta : ℤ := if newState.ghost then hdr.size else delta
      ((arc.modList newState hdr.type (ab :: ·)).addLsize newState hdr.type toDelta, toDelta)
    else (arc, delta)
  (arc, fromDelta, toDelta)

/-- `arc_change_state(new_state, ab, hash_lock)`. The hash-table removal and
the L2ARC statistics are not modelled; adding a zero delta is the skipped
`atomic_add_64`.
mirrors module/zfs/arc.c:1112-1195 -/
def arcChangeState (arc : ArcCache H) (newState : ArcState) (ab : H) : ArcCache H :=
  let hdr := arc.hdr ab
  let (arc, fromDelta, toDelta) :=
    if hdr.refcnt = 0 then changeStateLists arc newState ab
    else (arc, (hdr.datacnt * hdr.size : ℤ), (hdr.datacnt * hdr.size : ℤ))
  ((arc.addSize newState toDelta).addSize hdr.state (-fromDelta)).setHdr ab
    { hdr with state := newState }

/-! ### What `arc_change_state` changes -/

/-- The delta `arc_change_state` takes off the old state's counters: a ghost
header with no reference and no data counts its ghost size. -/
def ArcBufHdr.fromDelta (h : ArcBufHdr) : ℤ :=
  if h.refcnt = 0 ∧ h.state.ghost ∧ h.datacnt = 0 then h.size else h.datacnt * h.size

/-- The delta `arc_change_state` adds to the new state's counters. -/
def ArcBufHdr.toDelta (h : ArcBufHdr) (newState : ArcState) : ℤ :=
  if h.refcnt = 0 ∧ newState.ghost then h.size else h.datacnt * h.size

/-- The header belongs on `arcs_list[t]` of `s`: it has no reference, and
`s` is its state, not `arc_anon`, and `t` its type. -/
def ArcBufHdr.OnList (h : ArcBufHdr) (s : ArcState) (t : ArcBufContents) : Prop :=
  h.refcnt = 0 ∧ h.state ≠ .anon ∧ s = h.state ∧ t = h.type

instance (h : ArcBufHdr) (s : ArcState) (t : ArcBufContents) : Decidable (h.OnList s t) :=
  inferInstanceAs (Decidable (_ ∧ _ ∧ _ ∧ _))

section ChangeState

variable (arc : ArcCache H) (newState : ArcState) (ab : H)

theorem arcChangeState_hdr :
    (arcChangeState arc newState ab).hdr =
      Function.update arc.hdr ab { arc.hdr ab with state := newState } := by
  unfold arcChangeState changeStateLists
  by_cases hr : (arc.hdr ab).refcnt = 0 <;> by_cases ho : (arc.hdr ab).state = .anon <;>
    by_cases hn : newState = .anon <;> simp [hr, ho, hn]

theorem arcChangeState_list (s : ArcState) (t : ArcBufContents) :
    (arcChangeState arc newState ab).list s t =
      let l := if (arc.hdr ab).OnList s t then (arc.list s t).erase ab else arc.list s t
      if ({ arc.hdr ab with state := newState } : ArcBufHdr).OnList s t then ab :: l else l := by
  unfold arcChangeState changeStateLists ArcBufHdr.OnList
  by_cases hr : (arc.hdr ab).refcnt = 0 <;> by_cases ho : (arc.hdr ab).state = .anon <;>
    by_cases hn : newState = .anon <;> simp [hr, ho, hn, ArcCache.modList_list]

theorem arcChangeState_lsize (s : ArcState) (t : ArcBufContents) :
    (arcChangeState arc newState ab).lsize s t = arc.lsize s t +
      (if (arc.hdr ab).OnList s t then -(arc.hdr ab).fromDelta else 0) +
      (if ({ arc.hdr ab with state := newState } : ArcBufHdr).OnList s t then
        (arc.hdr ab).toDelta newState else 0) := by
  unfold arcChangeState changeStateLists ArcBufHdr.toDelta ArcBufHdr.fromDelta ArcBufHdr.OnList
  by_cases hr : (arc.hdr ab).refcnt = 0 <;> by_cases ho : (arc.hdr ab).state = .anon <;>
    by_cases hn : newState = .anon <;> simp [hr, ho, hn, ArcCache.addLsize_lsize, neg_ite]

theorem arcChangeState_size (s : ArcState) :
    (arcChangeState arc newState ab).size s = arc.size s +
      (if s = newState then (arc.hdr ab).toDelta newState else 0) +
      (if s = (arc.hdr ab).state then -(arc.hdr ab).fromDelta else 0) := by
  unfold arcChangeState changeStateLists ArcBufHdr.toDelta ArcBufHdr.fromDelta
  by_cases hr : (arc.hdr ab).refcnt = 0 <;> by_cases ho : (arc.hdr ab).state = .anon <;>
    by_cases hn : newState = .anon <;> simp [hr, ho, hn, ArcCache.addSize_size, neg_ite]

end ChangeState

/-- `arc_access(buf, hash_lock)`: a header moves on through the states.
`aged` is whether `ARC_MINTIME` has passed since the last access; the access
times themselves are not modelled.
mirrors module/zfs/arc.c:2548-2674 -/
def arcAccess (arc : ArcCache H) (ab : H) (aged : Bool) : ArcCache H :=
  let hdr := arc.hdr ab
  match hdr.state with
  | .anon => arcChangeState arc .mru ab
  | .mru =>
    if hdr.prefetch then
      if hdr.refcnt = 0 then arc else arc.setHdr ab { hdr with prefetch := false }
    else if aged then arcChangeState arc .mfu ab
    else arc
  | .mruGhost =>
    if hdr.prefetch then
      let arc := if 0 < hdr.refcnt then arc.setHdr ab { hdr with prefetch := false } else arc
      arcChangeState arc .mru ab
    else arcChangeState arc .mfu ab
  | .mfu => arc
  | .mfuGhost => arcChangeState arc (if hdr.prefetch then .mru else .mfu) ab
  | .l2cOnly => arcChangeState arc .mfu ab

/-- The end of `arc_get_data_buf(buf)`, which counts a new buffer of the
header in its state; ghost states keep their ghost size. The eviction it
may call first is `arcEvict`.
mirrors module/zfs/arc.c:2522-2541 -/
def arcGetDataBuf (arc : ArcCache H) (ab : H) : ArcCache H :=
  let hdr := arc.hdr ab
  if ¬hdr.state.ghost then
    let linked := arc.linked ab
    let arc := arc.addSize hdr.state hdr.size
    if linked then arc.addLsize hdr.state hdr.type hdr.size else arc
  else arc

section GetDataBuf

variable (arc : ArcCache H) (ab : H)

@[simp] theorem arcGetDataBuf_hdr : (arcGetDataBuf arc ab).hdr = arc.hdr := by
  unfold arcGetDataBuf
  dsimp only
  split_ifs <;> rfl

@[simp] theorem arcGetDataBuf_list : (arcGetDataBuf arc ab).list = arc.list := by
  unfold arcGetDataBuf
  dsimp only
  split_ifs <;> rfl

/-- The buffer is counted on the list only while the header is on it. -/
theorem arcGetDataBuf_lsize (s : ArcState) (t : ArcBufContents) :
    (arcGetDataBuf arc ab).lsize s t = arc.lsize s t +
      if (arc.hdr ab).state.ghost = false ∧ arc.linked ab ∧ s = (arc.hdr ab).state ∧
        t = (arc.hdr ab).type then ((arc.hdr ab).size : ℤ) else 0 := by
  unfold arcGetDataBuf
  by_cases hg : (arc.hdr ab).state.ghost <;> by_cases hl : arc.linked ab <;>
    simp [hg, hl, ArcCache.addLsize_lsize]

theorem arcGetDataBuf_size (s : ArcState) :
    (arcGetDataBuf arc ab).size s = arc.size s +
      if (arc.hdr ab).state.ghost = false ∧ s = (arc.hdr ab).state then
        ((arc.hdr ab).size : ℤ) else 0 := by
  unfold arcGetDataBuf
  by_cases hg : (arc.hdr ab).state.ghost <;> by_cases hl : arc.linked ab <;>
    simp [hg, hl, ArcCache.addSize_size]

/-- A ghost state keeps its ghost size. -/
theorem arcGetDataBuf_of_ghost (hg : (arc.hdr ab).state.ghost) : arcGetDataBuf arc ab = arc := by
  simp [arcGetDataBuf, hg]

end GetDataBuf

/-- `arc_buf_alloc(spa, size, tag, type)` on a free header: a new anonymous
header with one buffer and one reference.
mirrors module/zfs/arc.c:1275-1302 -/
def arcBufAlloc (arc : ArcCache H) (ab : H) (spa size : ℕ) (type : ArcBufContents) : ArcCache H :=
  let arc := arc.setHdr ab
    { arc.hdr ab with size, type, spa, state := .anon, prefetch := false, l2hdr := false }
  let arc := arcGetDataBuf arc ab
  arc.setHdr ab { arc.hdr ab with datacnt := 1, refcnt := arc.hdr ab |>.refcnt |>.succ }

/-- `arc_buf_clone(from)`: one more buffer on the header.
mirrors module/zfs/arc.c:1356-1375 -/
def arcBufClone (arc : ArcCache H) (ab : H) : ArcCache H :=
  let arc := arcGetDataBuf arc ab
  arc.setHdr ab { arc.hdr ab with datacnt := (arc.hdr ab).datacnt + 1 }

/-- `arc_buf_destroy(buf, recycle, all)` of a buffer of `ab`; `hasData` is
`buf->b_data != NULL`. Freeing the data and unlinking the buffer touch no
state counter.
mirrors module/zfs/arc.c:1433-1490 -/
def arcBufDestroy (arc : ArcCache H) (ab : H) (hasData : Bool) : ArcCache H :=
  if hasData then
    let hdr := arc.hdr ab
    let arc := if arc.linked ab then arc.addLsize hdr.state hdr.type (-hdr.size) else arc
    (arc.addSize hdr.state (-hdr.size)).setHdr ab { hdr with datacnt := hdr.datacnt - 1 }
  else arc

/-- The ghost hit of `arc_read_nolock`: a reference unless it is a prefetch,
a buffer (`b_datacnt = 1`, then `arc_get_data_buf`), and `arc_access`.
mirrors module/zfs/arc.c:2994-3017 -/
def arcReadGhost (arc : ArcCache H) (ab : H) (prefetch : Bool) : ArcCache H :=
  let arc := if prefetch then arc.setHdr ab { arc.hdr ab with prefetch := true }
    else addReference arc ab
  let arc := arc.setHdr ab { arc.hdr ab with datacnt := 1 }
  arcAccess (arcGetDataBuf arc ab) ab false

/-- What `arc_evict` and `arc_evict_ghost` find out as they go and the model
does not compute: whether a header's I/O is in progress or its prefetch
lifespan not over, whether its L2ARC write is in progress, whether the hash
lock is held by the caller, whether `mutex_tryenter` gets it, and how many
of the header's buffers `mutex_tryenter` locks before one fails. -/
structure EvictEnv (H : Type*) where
  busy : H → Bool
  l2Writing : H → Bool
  held : H → Bool
  locked : H → Bool
  bufLocks : H → ℕ

section BufDestroy

variable (arc : ArcCache H) (ab : H)

theorem arcBufDestroy_hdr :
    (arcBufDestroy arc ab true).hdr =
      Function.update arc.hdr ab { arc.hdr ab with datacnt := (arc.hdr ab).datacnt - 1 } := by
  by_cases hl : arc.linked ab <;> simp [arcBufDestroy, hl]

@[simp] theorem arcBufDestroy_list : (arcBufDestroy arc ab true).list = arc.list := by
  by_cases hl : arc.linked ab <;> simp [arcBufDestroy, hl]

theorem arcBufDestroy_lsize (s : ArcState) (t : ArcBufContents) :
    (arcBufDestroy arc ab true).lsize s t = arc.lsize s t -
      if arc.linked ab ∧ s = (arc.hdr ab).state ∧ t = (arc.hdr ab).type then
        ((arc.hdr ab).size : ℤ) else 0 := by
  unfold arcBufDestroy
  by_cases hl : arc.linked ab <;> simp [hl, ArcCache.addLsize_lsize, sub_eq_add_neg, neg_ite]

theorem arcBufDestroy_size (s : ArcState) :
    (arcBufDestroy arc ab true).size s = arc.size s -
      if s = (arc.hdr ab).state then ((arc.hdr ab).size : ℤ) else 0 := by
  unfold arcBufDestroy
  by_cases hl : arc.linked ab <;> simp [hl, ArcCache.addSize_size, sub_eq_add_neg, neg_ite]

end BufDestroy

/-- `k` buffers of `ab` destroyed by `arc_evict`, each holding data. -/
def destroyBufs (arc : ArcCache H) (ab : H) : ℕ → ArcCache H
  | 0 => arc
  | k + 1 => arcBufDestroy (destroyBufs arc ab k) ab true

theorem destroyBufs_hdr_self (arc : ArcCache H) (ab : H) (k : ℕ) :
    (destroyBufs arc ab k).hdr ab = { arc.hdr ab with datacnt := (arc.hdr ab).datacnt - k } := by
  induction k with
  | zero => rfl
  | succ k ih =>
    rw [destroyBufs, arcBufDestroy_hdr, Function.update_self, ih, Nat.sub_sub]

theorem destroyBufs_hdr_of_ne (arc : ArcCache H) {ab x : H} (hx : x ≠ ab) (k : ℕ) :
    (destroyBufs arc ab k).hdr x = arc.hdr x := by
  induction k with
  | zero => rfl
  | succ k ih => rw [destroyBufs, arcBufDestroy_hdr, Function.update_of_ne hx, ih]

/-- The loop of `arc_evict` over `arcs_list[type]` from its tail, with the
bytes evicted and whether a buffer may still be recycled.
mirrors module/zfs/arc.c:1689-1765 -/
def arcEvictLoop (env : EvictEnv H) (evictedState : ArcState) (spa : ℕ) (bytes : ℤ)
    (type : ArcBufContents) : List H → ArcCache H × ℤ × Bool → ArcCache H × ℤ × Bool
  | [], acc => acc
  | ab :: rest, (arc, evicted, recycle) =>
    let hdr := arc.hdr ab
    -- prefetch buffers have a minimum lifespan
    if env.busy ab ∨ (spa ≠ 0 ∧ hdr.spa ≠ spa) then
      arcEvictLoop env evictedState spa bytes type rest (arc, evicted, recycle)
    -- "lookahead" for better eviction candidate
    else if recycle ∧ (hdr.size : ℤ) ≠ bytes ∧
        rest.head?.any fun prev => ((arc.hdr prev).size : ℤ) = bytes then
      arcEvictLoop env evictedState spa bytes type rest (arc, evicted, recycle)
    else if env.held ab ∨ env.locked ab then
      -- the buffers until one whose lock `mutex_tryenter` misses
      let k := min (env.bufLocks ab) hdr.datacnt
      let recycle := recycle ∧ ¬(0 < k ∧ hdr.type = type ∧ (hdr.size : ℤ) = bytes ∧ ¬env.l2Writing ab)
      let arc := destroyBufs arc ab k
      let evicted := evicted + k * hdr.size
      let arc := if (arc.hdr ab).datacnt = 0 then arcChangeState arc evictedState ab else arc
      if 0 ≤ bytes ∧ bytes ≤ evicted then (arc, evicted, recycle)
      else arcEvictLoop env evictedState spa bytes type rest (arc, evicted, recycle)
    else arcEvictLoop env evictedState spa bytes type rest (arc, evicted, recycle)

/-- The loop of `arc_evict_ghost` over a list from its tail, with the bytes
deleted; `true` where it stops with enough. With `bytes < 0` a hash lock
that `mutex_tryenter` misses is waited for and the header tried again.
mirrors module/zfs/arc.c:1808-1870 -/
def arcEvictGhostLoop (env : EvictEnv H) (spa : ℕ) (bytes : ℤ) :
    List H → ArcCache H × ℤ → ArcCache H × ℤ × Bool
  | [], (arc, deleted) => (arc, deleted, false)
  | ab :: rest, (arc, deleted) =>
    let hdr := arc.hdr ab
    if spa ≠ 0 ∧ hdr.spa ≠ spa then arcEvictGhostLoop env spa bytes rest (arc, deleted)
    -- ignore markers
    else if hdr.spa = 0 then arcEvictGhostLoop env spa bytes rest (arc, deleted)
    -- caller may be trying to modify this buffer, skip it
    else if env.held ab then arcEvictGhostLoop env spa bytes rest (arc, deleted)
    else if env.locked ab ∨ bytes < 0 then
      let deleted := deleted + hdr.size
      -- a header cached on the L2ARC stays; the others are destroyed
      let arc := arcChangeState arc (if hdr.l2hdr then .l2cOnly else .anon) ab
      if 0 ≤ bytes ∧ bytes ≤ deleted then (arc, deleted, true)
      else arcEvictGhostLoop env spa bytes rest (arc, deleted)
    else arcEvictGhostLoop env spa bytes rest (arc, deleted)

/-- `arc_evict_ghost(state, spa, bytes)`: the data list, then the metadata
list if that was not enough.
mirrors module/zfs/arc.c:1795-1886 -/
def arcEvictGhost (arc : ArcCache H) (env : EvictEnv H) (state : ArcState) (spa : ℕ) (bytes : ℤ) :
    ArcCache H :=
  let (arc, deleted, _) := arcEvictGhostLoop env spa bytes (arc.list state .data).reverse (arc, 0)
  if bytes < 0 ∨ deleted < bytes then
    (arcEvictGhostLoop env spa bytes (arc.list state .metadata).reverse (arc, deleted)).1
  else arc

/-- `arc_evict(state, spa, bytes, recycle, type)` of `arc_mru` or `arc_mfu`:
the headers go to the matching ghost state, and the ghost states are cut
back when `arc_no_grow` is set and they outgrow `arc_c`. The result says
whether a buffer was stolen for recycling.
mirrors module/zfs/arc.c:1668-1790 -/
def arcEvict (arc : ArcCache H) (env : EvictEnv H) (state : ArcState) (spa : ℕ) (bytes : ℤ)
    (recycle : Bool) (type : ArcBufContents) (noGrow : Bool) (arcC : ℤ) : ArcCache H × Bool :=
  let evictedState := if state = .mru then ArcState.mruGhost else .mfuGhost
  let (arc, _, recycleLeft) :=
    arcEvictLoop env evictedState spa bytes type (arc.list state type).reverse (arc, 0, recycle)
  let stolen := recycle ∧ ¬recycleLeft
  let arc :=
    if noGrow ∧ arcC < arc.size .mruGhost + arc.size .mfuGhost then
      let mruOver := arc.size .anon + arc.size .mru + arc.size .mruGhost - arcC
      if 0 < mruOver ∧ 0 < arc.lsize .mruGhost type then
        arcEvictGhost arc env .mruGhost 0 (min (arc.lsize .mruGhost type) mruOver)
      else if 0 < arc.lsize .mfuGhost type then
        arcEvictGhost arc env .mfuGhost 0
          (min (arc.lsize .mfuGhost type) (arc.size .mruGhost + arc.size .mfuGhost - arcC))
      else arc
    else arc
  (arc, stolen)

end Functions

end ZfsOsx.Arc
