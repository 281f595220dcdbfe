import ZfsOsx.Checksum.Zio

/-!
# Mirror reads and writes (`module/zfs/vdev_mirror.c`)

A mirror I/O keeps a `mirror_child_t` for each child: the error of its last
I/O and the flags `mc_tried`, `mc_skipped` and `mc_speculative`. A read picks
one child (`vdev_mirror_child_select`): the first untried child from
`mm_preferred` round, skipping one that is not readable (`ENXIO`, tried) or
whose `DTL_MISSING` holds the txg (`ESTALE`, speculative), and else any child
not tried yet. When the read of a child fails, `vdev_mirror_io_done` picks
another, until one succeeds or none is left; a read that got good data with
an unexpected error on the way, or a resilver, then rewrites the children that
need it. A write goes to every child.

The devices are given by what the I/O sees of them: which are readable, which
DTLs hold the txg, and the error each child I/O would end with. Each child
I/O completes before the mirror goes on, as the pipeline has it: a read waits
for its one child, a write for all. The scrub reads of a mirror that is not
replacing, which read every child at once, are not modelled.

Results:
* `ReadInv`: during a read each child is untouched, marked unreadable or
  stale by `vdev_mirror_child_select`, or read once; `childSelect_spec`,
  `childDone_inv`.
* `mirror_read_spec` (read) and `vdevMirrorWrite_error` (write): the read
  ends within `mm_children` child reads, each of a different child, and a
  child whose DTL holds the txg is read only once every readable child
  outside its DTL was; it fails exactly when no child read succeeded, and its
  repair writes go to the children that failed or were skipped, to an untried
  child only for a scrub or a `DTL_PARTIAL` that holds the txg, and never to
  one whose read succeeded. A write fails exactly when no child write
  succeeded, and for a ditto write when any child write failed.
-/

namespace ZfsOsx.Vdev

/-- `ENXIO` -/
@[grind] def enxio : ℕ := 6

/-- `EIO` -/
def eio : ℕ := 5

/-- `ESTALE`, 70 on Darwin. -/
def estale : ℕ := 70

/-- `zio_error_rank[]`: the errors of `zio_worst_error` from the least to the
worst; any other ranks above them all. -/
def zioErrorRank : List ℕ := [0, enxio, ZfsOsx.Checksum.ecksum.toNat, eio]

/-- `zio_worst_error(e1, e2)`.
mirrors module/zfs/zio.c:2814-2829 -/
def zioWorstError (e1 e2 : ℕ) : ℕ :=
  if zioErrorRank.idxOf e2 < zioErrorRank.idxOf e1 then e1 else e2

/-- `mirror_child_t`, but for the vdev and the offset. -/
structure MirrorChild where
  error : ℕ
  tried : Bool
  skipped : Bool
  speculative : Bool
  deriving DecidableEq, Repr

/-- A child as `kmem_zalloc` leaves it. -/
def MirrorChild.zero : MirrorChild := ⟨0, false, false, false⟩

/-- The children of a mirror as an I/O of one txg sees them:
`vdev_readable`, `vdev_dtl_contains` of `DTL_MISSING` and of `DTL_PARTIAL`,
and the error a child I/O to each ends with (0 when it succeeds). -/
structure MirrorDevs where
  readable : ℕ → Bool
  dtlMissing : ℕ → Bool
  dtlPartial : ℕ → Bool
  ioError : ℕ → ℕ

/-- What `vdev_mirror_map_alloc` sets of a `mirror_map_t`: at least one child
(`vdev_mirror_open` refuses a mirror of none, and a block pointer that reaches
here has a DVA) and `mm_preferred` one of them. -/
structure MirrorShape where
  children : ℕ
  preferred : ℕ
  replacing : Bool
  children_pos : 0 < children
  preferred_lt : preferred < children

/-- `mirror_map_t` -/
structure MirrorMap extends MirrorShape where
  child : ℕ → MirrorChild

/-- `vdev_mirror_map_alloc`: the children as `kmem_zalloc` leaves them. -/
def MirrorShape.alloc (s : MirrorShape) : MirrorMap :=
  { toMirrorShape := s, child := fun _ => .zero }

/-- The flags of a read that `vdev_mirror_io_done` tests, and
`spa_writeable`. -/
structure ReadFlags where
  scrub : Bool
  resilver : Bool
  writeable : Bool

/-! ## Picking a child -/

/-- The first loop of `vdev_mirror_child_select` over the children `cs`, on
the flags `mc`: the first child neither tried nor skipped that is readable and
outside its DTL, the ones before it marked.
mirrors module/zfs/vdev_mirror.c:233-249 -/
@[grind] def selectScan (devs : MirrorDevs) : List ℕ → (ℕ → MirrorChild) → (ℕ → MirrorChild) × Option ℕ
  | [], mc => (mc, none)
  | c :: cs, mc =>
    if (mc c).tried || (mc c).skipped then selectScan devs cs mc
    else if !devs.readable c then
      selectScan devs cs (Function.update mc c { mc c with error := enxio, tried := true, skipped := true })
    else if !devs.dtlMissing c then (mc, some c)
    else
      selectScan devs cs
        (Function.update mc c { mc c with error := estale, skipped := true, speculative := true })

/-- The order of the first loop: from `mm_preferred`, wrapping to 0. -/
def selectOrder (mm : MirrorMap) : List ℕ :=
  (List.range mm.children).map fun i => (mm.preferred + i) % mm.children

/-- `vdev_mirror_child_select(zio)`: the child to read, or `none` for -1.
mirrors module/zfs/vdev_mirror.c:219-264 -/
def childSelect (devs : MirrorDevs) (mm : MirrorMap) : MirrorMap × Option ℕ :=
  let r := selectScan devs (selectOrder mm) mm.child
  let mm := { mm with child := r.1 }
  match r.2 with
  | some c => (mm, some c)
  | none => (mm, (List.range mm.children).find? fun c => !(mm.child c).tried)

/-- `vdev_mirror_child_done` for the I/O of child `c`.
mirrors module/zfs/vdev_mirror.c:179-187 -/
@[grind] def childDone (devs : MirrorDevs) (c : ℕ) (mm : MirrorMap) : MirrorMap :=
  { mm with child := Function.update mm.child c { mm.child c with error := devs.ioError c, tried := true, skipped := false } }

/-! ## The end of an I/O -/

/-- `good_copies`: the children tried without error. -/
def goodCopies (mm : MirrorMap) : ℕ :=
  ((List.range mm.children).filter fun c => (mm.child c).error == 0 && (mm.child c).tried).length

/-- `unexpected_errors`: the children with an error that were not skipped. -/
def unexpectedErrors (mm : MirrorMap) : ℕ :=
  ((List.range mm.children).filter fun c => (mm.child c).error != 0 && !(mm.child c).skipped).length

/-- The loop of `vdev_mirror_worst_error` from `error[]` = `acc`: the worst
error of the children that were not speculative, and of those that were. -/
def worstErrors (mc : ℕ → MirrorChild) (cs : List ℕ) (acc : ℕ × ℕ) : ℕ × ℕ :=
  cs.foldl (fun acc c =>
    if (mc c).speculative then (acc.1, zioWorstError acc.2 (mc c).error)
    else (zioWorstError acc.1 (mc c).error, acc.2)) acc

/-- `vdev_mirror_worst_error(mm)`.
mirrors module/zfs/vdev_mirror.c:320-332 -/
def worstError (mm : MirrorMap) : ℕ :=
  let e := worstErrors mm.child (List.range mm.children) (0, 0)
  if e.1 ≠ 0 then e.1 else e.2

/-- The repair loop of `vdev_mirror_io_done` over the children `cs`: a write
to each child with an error, and to an untried one for a scrub or a
`DTL_PARTIAL` that holds the txg, which it marks `ESTALE`.
mirrors module/zfs/vdev_mirror.c:417-442 -/
def repairLoop (devs : MirrorDevs) (flags : ReadFlags) :
    List ℕ → (ℕ → MirrorChild) → (ℕ → MirrorChild) × List ℕ
  | [], mc => (mc, [])
  | c :: cs, mc =>
    if (mc c).error = 0 then
      if (mc c).tried then repairLoop devs flags cs mc
      else if !flags.scrub && !devs.dtlPartial c then repairLoop devs flags cs mc
      else
        let r := repairLoop devs flags cs (Function.update mc c { mc c with error := estale })
        (r.1, c :: r.2)
    else
      let r := repairLoop devs flags cs mc
      (r.1, c :: r.2)

/-- A mirror read as it goes: the map, the children read so far (a ghost),
`io_error` and the repair writes issued. -/
structure MirrorRead where
  mm : MirrorMap
  reads : List ℕ
  error : ℕ
  repairs : List ℕ

/-- The end of `vdev_mirror_io_done` for a read that goes no further, with
the counts taken at its start: the worst error when no copy is good, and
else the repair writes when they are called for.
mirrors module/zfs/vdev_mirror.c:398-443 -/
def finishRead (devs : MirrorDevs) (flags : ReadFlags) (good unexpected : ℕ) (st : MirrorRead) :
    MirrorRead :=
  if good = 0 then { st with error := worstError st.mm }
  else if flags.writeable && (unexpected != 0 || flags.resilver || (flags.scrub && st.mm.replacing)) then
    let r := repairLoop devs flags (List.range st.mm.children) st.mm.child
    { st with mm := { st.mm with child := r.1 }, repairs := r.2 }
  else st

/-- `vdev_mirror_io_done` for a read, for `fuel` rounds: with no good copy,
another child is picked and read, and `io_done` runs again.
mirrors module/zfs/vdev_mirror.c:334-444 -/
def ioDoneRead (devs : MirrorDevs) (flags : ReadFlags) : ℕ → MirrorRead → Option MirrorRead
  | 0, _ => none
  | fuel + 1, st =>
    let good := goodCopies st.mm
    let unexpected := unexpectedErrors st.mm
    if good = 0 then
      match childSelect devs st.mm with
      | (mm, some c) => ioDoneRead devs flags fuel { st with mm := childDone devs c mm, reads := st.reads ++ [c] }
      | (mm, none) => some (finishRead devs flags good unexpected { st with mm := mm })
    else some (finishRead devs flags good unexpected st)

/-- A read through the mirror: `vdev_mirror_io_start` reads every child for a
scrub of a mirror that is not replacing (each done by
`vdev_mirror_scrub_done`, which sets what `vdev_mirror_child_done` sets), and
else picks a child and reads it; then `vdev_mirror_io_done` runs, with a round
for every child and one more.
mirrors module/zfs/vdev_mirror.c:266-318 -/
def vdevMirrorRead (devs : MirrorDevs) (flags : ReadFlags) (s : MirrorShape) : Option MirrorRead :=
  let mm := s.alloc
  let st : MirrorRead :=
    if flags.scrub && !mm.replacing then
      ⟨(List.range mm.children).foldl (fun mm c => childDone devs c mm) mm, List.range mm.children, 0, []⟩
    else
      match childSelect devs mm with
      | (mm', some c) => ⟨childDone devs c mm', [c], 0, []⟩
      | (mm', none) => ⟨mm', [], 0, []⟩
  ioDoneRead devs flags (mm.children + 1) st

/-- A write through the mirror, to every child, and its `io_error`: the
worst error when not every copy is good and none is, or for a ditto write
(`io_vd == NULL`) when any is not.
mirrors module/zfs/vdev_mirror.c:296-318, 334-375 -/
def vdevMirrorWrite (devs : MirrorDevs) (ditto : Bool) (s : MirrorShape) : ℕ :=
  let mm := (List.range s.children).foldl (fun mm c => childDone devs c mm) s.alloc
  let good := goodCopies mm
  if good ≠ mm.children ∧ (good = 0 ∨ ditto) then worstError mm else 0

/-! ## The worst error -/

theorem idxOf_zioErrorRank_eq_zero_iff (e : ℕ) : zioErrorRank.idxOf e = 0 ↔ e = 0 := by
  by_cases he : e = 0
  · simp [he, zioErrorRank]
  · simp [zioErrorRank, List.idxOf_cons, Ne.symm he, he]

/-- `zio_worst_error` is no error only of two successes. -/
theorem zioWorstError_eq_zero_iff (e1 e2 : ℕ) : zioWorstError e1 e2 = 0 ↔ e1 = 0 ∧ e2 = 0 := by
  have h1 := idxOf_zioErrorRank_eq_zero_iff e1
  have h2 := idxOf_zioErrorRank_eq_zero_iff e2
  unfold zioWorstError
  split_ifs with h <;> constructor <;> intro he
  · exact absurd (h1.mpr he) (by omega)
  · exact he.1
  · exact ⟨h1.mp (by omega), he⟩
  · exact he.2

theorem worstErrors_eq_zero_iff (mc : ℕ → MirrorChild) (cs : List ℕ) (acc : ℕ × ℕ) :
    worstErrors mc cs acc = (0, 0) ↔ acc = (0, 0) ∧ ∀ c ∈ cs, (mc c).error = 0 := by
  induction cs generalizing acc with
  | nil => simp [worstErrors]
  | cons c cs ih =>
    obtain ⟨a, b⟩ := acc
    unfold worstErrors at ih ⊢
    rw [List.foldl_cons, ih]
    split_ifs <;> simp [zioWorstError_eq_zero_iff] <;> tauto

/-- `vdev_mirror_worst_error` is no error exactly when no child has one. -/
theorem worstError_eq_zero_iff (mm : MirrorMap) :
    worstError mm = 0 ↔ ∀ c < mm.children, (mm.child c).error = 0 := by
  have h := worstErrors_eq_zero_iff mm.child (List.range mm.children) (0, 0)
  simp only [List.mem_range, true_and] at h
  rw [← h, worstError, Prod.ext_iff]
  split_ifs <;> simp_all

/-! ## The state of a child during a read -/

/-- The state of child `c` during a read that has read `reads`: untouched,
found unreadable or stale by `vdev_mirror_child_select`, or read, with the
error its I/O ended with. -/
inductive ChildState (devs : MirrorDevs) (reads : List ℕ) (c : ℕ) : MirrorChild → Prop
  | untouched : c ∉ reads → ChildState devs reads c ⟨0, false, false, false⟩
  | gone : c ∉ reads → devs.readable c = false → ChildState devs reads c ⟨enxio, true, true, false⟩
  | stale : c ∉ reads → devs.readable c = true → devs.dtlMissing c = true →
      ChildState devs reads c ⟨estale, false, true, true⟩
  | read (speculative : Bool) : c ∈ reads →
      ChildState devs reads c ⟨devs.ioError c, true, false, speculative⟩

namespace ChildState

variable {devs : MirrorDevs} {reads : List ℕ} {c : ℕ} {m : MirrorChild}

theorem not_mem (h : ChildState devs reads c m) (ht : m.tried = false) : c ∉ reads := by
  cases h <;> first | assumption | simp at ht

/-- A child neither tried nor skipped has not been touched. -/
theorem eq_zero (h : ChildState devs reads c m) (ht : m.tried = false) (hs : m.skipped = false) :
    m = .zero := by
  cases h <;> simp_all [MirrorChild.zero]

theorem append (h : ChildState devs reads c m) (hc : c ≠ c') :
    ChildState devs (reads ++ [c']) c m := by
  have hn : c ∉ reads → c ∉ reads ++ [c'] := by simp [hc]
  cases h with
  | untouched h => exact .untouched (hn h)
  | gone h hr => exact .gone (hn h) hr
  | stale h hr hd => exact .stale (hn h) hr hd
  | read sp h => exact .read sp (List.mem_append_left _ h)

/-- A tried child has an error unless it was read with none. -/
theorem error_ne_zero (h : ChildState devs reads c m) (ht : m.tried = true)
    (hr : c ∈ reads → devs.ioError c ≠ 0) : m.error ≠ 0 := by
  cases h with
  | untouched => simp at ht
  | gone => simp [enxio]
  | stale => simp at ht
  | read sp h => exact hr h

/-- What `good_copies` counts: a child read without error. -/
theorem good_iff (h : ChildState devs reads c m) :
    (m.error == 0 && m.tried) = true ↔ c ∈ reads ∧ devs.ioError c = 0 := by
  cases h <;> simp_all [enxio]

/-- What `unexpected_errors` counts: a child read with an error. -/
theorem unexpected_iff (h : ChildState devs reads c m) :
    (m.error != 0 && !m.skipped) = true ↔ c ∈ reads ∧ devs.ioError c ≠ 0 := by
  cases h <;> simp_all

/-- A readable child outside its DTL that is tried or skipped has been read. -/
theorem mem_of_passed (h : ChildState devs reads c m) (hts : (m.tried || m.skipped) = true)
    (hr : devs.readable c = true) (hd : devs.dtlMissing c = false) : c ∈ reads := by
  cases h <;> simp_all

/-- What the repair loop writes: a child with an error, and an untried one
for a scrub or a `DTL_PARTIAL` that holds the txg. -/
theorem needsRepair_iff (h : ChildState devs reads c m) (flags : ReadFlags) :
    (m.error != 0 || (!m.tried && (flags.scrub || devs.dtlPartial c))) = true ↔
      if c ∈ reads then devs.ioError c ≠ 0
      else m.skipped = true ∨ flags.scrub = true ∨ devs.dtlPartial c = true := by
  cases h <;> simp_all [enxio, estale]

/-- Only a child found unreadable or stale is skipped. -/
theorem skipped_reason (h : ChildState devs reads c m) (hc : c ∉ reads) (hs : m.skipped = true) :
    devs.readable c = false ∨ devs.dtlMissing c = true := by
  cases h <;> simp_all

end ChildState

/-- The states of the children of `mc` below `n`, with one of them changed
to a state of its own, are states. -/
theorem childState_update {devs : MirrorDevs} {reads : List ℕ} {mc : ℕ → MirrorChild} {n c : ℕ}
    {v : MirrorChild} (h : ∀ c' < n, ChildState devs reads c' (mc c'))
    (hv : ChildState devs reads c v) :
    ∀ c' < n, ChildState devs reads c' (Function.update mc c v c') := by
  intro c' hc'
  by_cases e : c' = c
  · subst e
    rwa [Function.update_self]
  · rw [Function.update_of_ne e]
    exact h c' hc'

/-! ## Picking a child -/

section Select

variable {devs : MirrorDevs} {reads : List ℕ} {n : ℕ}

/-- A child tried or skipped stays so through the first loop, which marks
only children that are neither. -/
theorem selectScan_keep (cs : List ℕ) (mc : ℕ → MirrorChild) (c : ℕ)
    (h : ((mc c).tried || (mc c).skipped) = true) :
    (((selectScan devs cs mc).1 c).tried || ((selectScan devs cs mc).1 c).skipped) = true := by
  induction cs generalizing mc with
  | nil => exact h
  | cons c' cs ih =>
    unfold selectScan
    split_ifs with ht
    · exact ih mc h
    · apply ih
      by_cases e : c = c'
      · subst e; simp
      · rwa [Function.update_of_ne e]
    · exact h
    · apply ih
      by_cases e : c = c'
      · subst e; simp
      · rwa [Function.update_of_ne e]

/-- The first loop leaves every child in a state: it marks an untouched
child unreadable or stale. -/
theorem selectScan_child (cs : List ℕ) (mc : ℕ → MirrorChild) (hcs : ∀ c ∈ cs, c < n)
    (h : ∀ c < n, ChildState devs reads c (mc c)) :
    ∀ c < n, ChildState devs reads c ((selectScan devs cs mc).1 c) := by
  induction cs generalizing mc with
  | nil => exact h
  | cons c cs ih =>
    have hc := h c (hcs c (by simp))
    have hcs' : ∀ c ∈ cs, c < n := fun c' hc' => hcs c' (by simp [hc'])
    unfold selectScan
    split_ifs with ht hr hd
    · exact ih mc hcs' h
    · -- not readable: `ENXIO`, tried and skipped
      simp only [Bool.or_eq_true, not_or, Bool.not_eq_true] at ht hr
      have hz := hc.eq_zero ht.1 ht.2
      apply ih _ hcs' (childState_update h _)
      rw [hz]
      exact .gone (hc.not_mem ht.1) (by simpa using hr)
    · exact h
    · -- in its `DTL_MISSING`: `ESTALE`, skipped and speculative
      simp only [Bool.or_eq_true, not_or, Bool.not_eq_true] at ht hr hd
      have hz := hc.eq_zero ht.1 ht.2
      apply ih _ hcs' (childState_update h _)
      rw [hz]
      exact .stale (hc.not_mem ht.1) (by simpa using hr) (by simpa using hd)

/-- The child the first loop picks is neither tried nor skipped, readable and
outside its DTL. -/
theorem selectScan_some (cs : List ℕ) (mc : ℕ → MirrorChild) (c : ℕ)
    (h : (selectScan devs cs mc).2 = some c) :
    c ∈ cs ∧ ((selectScan devs cs mc).1 c).tried = false ∧ devs.readable c = true ∧
      devs.dtlMissing c = false := by
  induction cs generalizing mc with
  | nil => simp [selectScan] at h
  | cons c' cs ih =>
    unfold selectScan at h ⊢
    split_ifs at h ⊢ with ht hr hd
    · exact ⟨by simp [(ih mc h).1], (ih mc h).2⟩
    · exact ⟨by simp [(ih _ h).1], (ih _ h).2⟩
    · simp only [Option.some.injEq] at h
      subst h
      simp_all
    · exact ⟨by simp [(ih _ h).1], (ih _ h).2⟩

/-- When the first loop finds nothing, it has tried or skipped every child
it went over. -/
theorem selectScan_none (cs : List ℕ) (mc : ℕ → MirrorChild) (h : (selectScan devs cs mc).2 = none) :
    ∀ c ∈ cs, (((selectScan devs cs mc).1 c).tried || ((selectScan devs cs mc).1 c).skipped) = true := by
  induction cs generalizing mc with
  | nil => simp
  | cons c' cs ih =>
    unfold selectScan at h ⊢
    split_ifs at h ⊢ with ht hr hd
    · simp only [List.forall_mem_cons]
      exact ⟨selectScan_keep cs mc c' ht, ih mc h⟩
    · simp only [List.forall_mem_cons]
      exact ⟨selectScan_keep cs _ c' (by simp), ih _ h⟩
    · simp only [List.forall_mem_cons]
      exact ⟨selectScan_keep cs _ c' (by simp), ih _ h⟩

theorem mem_selectOrder (mm : MirrorMap) (c : ℕ) : c ∈ selectOrder mm ↔ c < mm.children := by
  have hp := mm.preferred_lt
  simp only [selectOrder, List.mem_map, List.mem_range]
  constructor
  · rintro ⟨i, -, rfl⟩
    exact Nat.mod_lt _ mm.children_pos
  · -- the round from `mm_preferred` comes to `c` after `c + n - mm_preferred` steps
    intro hc
    refine ⟨(c + (mm.children - mm.preferred)) % mm.children, Nat.mod_lt _ mm.children_pos, ?_⟩
    calc (mm.preferred + (c + (mm.children - mm.preferred)) % mm.children) % mm.children
        = (c + mm.children) % mm.children := by
          rw [Nat.add_mod_mod]
          congr 1
          omega
      _ = c := by rw [Nat.add_mod_right, Nat.mod_eq_of_lt hc]

/-- The child array after `vdev_mirror_child_select` is that of its first loop. -/
theorem childSelect_child (mm : MirrorMap) :
    (childSelect devs mm).1 = { mm with child := (selectScan devs (selectOrder mm) mm.child).1 } := by
  unfold childSelect
  dsimp only
  split <;> rfl

/-- `vdev_mirror_child_select` leaves every child in a state. -/
theorem childSelect_states (mm : MirrorMap) (h : ∀ c < mm.children, ChildState devs reads c (mm.child c)) :
    ∀ c < mm.children, ChildState devs reads c ((childSelect devs mm).1.child c) := by
  rw [childSelect_child]
  exact selectScan_child _ _ (fun c hc => (mem_selectOrder mm c).mp hc) h

/-- The child `vdev_mirror_child_select` picks has not been tried, and it is
in its `DTL_MISSING` only when every readable child outside its own has been
read. -/
theorem childSelect_some (mm : MirrorMap) (h : ∀ c < mm.children, ChildState devs reads c (mm.child c))
    (c : ℕ) (hs : (childSelect devs mm).2 = some c) :
    c < mm.children ∧ ((childSelect devs mm).1.child c).tried = false ∧
      (devs.dtlMissing c = true → ∀ c' < mm.children, devs.readable c' = true →
        devs.dtlMissing c' = false → c' ∈ reads) := by
  have hst := childSelect_states mm h
  rw [childSelect_child] at hst ⊢
  unfold childSelect at hs
  dsimp only at hs
  split at hs
  · -- the first loop found a readable child outside its DTL
    rename_i c0 hc0
    obtain ⟨hmem, ht, -, hd⟩ := selectScan_some _ _ _ hc0
    simp only [Option.some.injEq] at hs
    subst hs
    exact ⟨(mem_selectOrder mm _).mp hmem, ht, by simp [hd]⟩
  · -- the second loop: the first loop tried or skipped every child
    rename_i hc0
    refine ⟨List.mem_range.mp (List.mem_of_find?_eq_some hs), by simpa using List.find?_some hs, ?_⟩
    intro _ c' hc' hr hd
    exact (hst c' hc').mem_of_passed (selectScan_none _ _ hc0 c' ((mem_selectOrder mm c').mpr hc')) hr hd

/-- `vdev_mirror_child_select` returns -1 only when every child is tried. -/
theorem childSelect_none (mm : MirrorMap) (hs : (childSelect devs mm).2 = none) :
    ∀ c < mm.children, ((childSelect devs mm).1.child c).tried = true := by
  intro c hc
  unfold childSelect at hs ⊢
  dsimp only at hs ⊢
  split at hs
  · simp at hs
  · simpa using List.find?_eq_none.mp hs c (List.mem_range.mpr hc)

end Select

/-! ## Counting the children -/

theorem length_filter_range_eq_zero_iff (n : ℕ) (p : ℕ → Bool) :
    ((List.range n).filter p).length = 0 ↔ ∀ c < n, p c = false := by
  simp [List.filter_eq_nil_iff]

section Counts

variable {devs : MirrorDevs} {reads : List ℕ} {mm : MirrorMap}

/-- `good_copies` is 0 exactly when every child read failed. -/
theorem goodCopies_eq_zero_iff (h : ∀ c < mm.children, ChildState devs reads c (mm.child c))
    (hlt : ∀ c ∈ reads, c < mm.children) :
    goodCopies mm = 0 ↔ ∀ c ∈ reads, devs.ioError c ≠ 0 := by
  rw [goodCopies, length_filter_range_eq_zero_iff]
  constructor
  · intro hg c hc he
    have := (h c (hlt c hc)).good_iff.not.mp (by simp [hg c (hlt c hc)])
    exact this ⟨hc, he⟩
  · intro hr c hc
    simpa using (h c hc).good_iff.not.mpr (fun ⟨hm, he⟩ => hr c hm he)

/-- `unexpected_errors` is 0 exactly when every child read succeeded. -/
theorem unexpectedErrors_eq_zero_iff (h : ∀ c < mm.children, ChildState devs reads c (mm.child c))
    (hlt : ∀ c ∈ reads, c < mm.children) :
    unexpectedErrors mm = 0 ↔ ∀ c ∈ reads, devs.ioError c = 0 := by
  rw [unexpectedErrors, length_filter_range_eq_zero_iff]
  constructor
  · intro hu c hc
    by_contra he
    exact (h c (hlt c hc)).unexpected_iff.not.mp (by simp [hu c (hlt c hc)]) ⟨hc, he⟩
  · intro hr c hc
    simpa using (h c hc).unexpected_iff.not.mpr (fun ⟨hm, he⟩ => he (hr c hm))

end Counts

/-! ## Repairs -/

section Repair

variable {devs : MirrorDevs} {flags : ReadFlags}

/-- The children the repair loop writes, when each comes once. -/
theorem repairLoop_repairs (cs : List ℕ) (mc : ℕ → MirrorChild) (hnd : cs.Nodup) :
    (repairLoop devs flags cs mc).2 = cs.filter fun c =>
      (mc c).error != 0 || (!(mc c).tried && (flags.scrub || devs.dtlPartial c)) := by
  induction cs generalizing mc with
  | nil => rfl
  | cons c cs ih =>
    obtain ⟨hc, hnd⟩ := List.nodup_cons.mp hnd
    unfold repairLoop
    split_ifs with he ht hp
    · simp [he, ht, ih mc hnd]
    · simp only [Bool.and_eq_true, Bool.not_eq_true'] at hp
      simp [he, ht, hp, ih mc hnd]
    · -- marked `ESTALE`, which the rest of the loop does not look at
      simp only [ih _ hnd, List.filter_cons]
      have hrest : ∀ c' ∈ cs, Function.update mc c { mc c with error := estale } c' = mc c' :=
        fun c' hc' => Function.update_of_ne (fun e : c' = c => hc (e ▸ hc')) _ _
      rw [List.filter_congr (fun c' hc' => by rw [hrest c' hc'])]
      simp only [Bool.and_eq_true, Bool.not_eq_true', not_and] at hp
      simp_all
    · simp [he, ih mc hnd]

/-- The repair loop changes only errors. -/
theorem repairLoop_skipped (cs : List ℕ) (mc : ℕ → MirrorChild) (c : ℕ) :
    ((repairLoop devs flags cs mc).1 c).skipped = (mc c).skipped := by
  induction cs generalizing mc with
  | nil => rfl
  | cons c' cs ih =>
    unfold repairLoop
    split_ifs
    · exact ih mc
    · exact ih mc
    · rw [ih]
      by_cases e : c = c'
      · subst e; simp
      · rw [Function.update_of_ne e]
    · exact ih mc

end Repair

/-! ## A read, round by round -/

/-- Every child read in its `DTL_MISSING` was read only once all the
readable children outside theirs had been. -/
def DtlLast (devs : MirrorDevs) (n : ℕ) (reads : List ℕ) : Prop :=
  ∀ pre c post, reads = pre ++ c :: post → devs.dtlMissing c = true →
    ∀ c' < n, devs.readable c' = true → devs.dtlMissing c' = false → c' ∈ pre

theorem DtlLast.nil (devs : MirrorDevs) (n : ℕ) : DtlLast devs n [] := by
  intro pre c post h
  simp at h

theorem DtlLast.append {devs : MirrorDevs} {n c : ℕ} {reads : List ℕ} (h : DtlLast devs n reads)
    (hc : devs.dtlMissing c = true → ∀ c' < n, devs.readable c' = true →
      devs.dtlMissing c' = false → c' ∈ reads) :
    DtlLast devs n (reads ++ [c]) := by
  intro pre c0 post he
  -- either `c` is the child read last, or it comes after `c0`
  rcases List.eq_nil_or_concat' post with rfl | ⟨post', c1, rfl⟩
  · obtain ⟨rfl, rfl⟩ := List.append_singleton_inj.mp he
    exact hc
  · rw [← List.cons_append, ← List.append_assoc] at he
    exact h pre c0 post' (List.append_singleton_inj.mp he).1

/-- The invariant of a read: every child in a state, and the children read
so far each read once and in an order that leaves the stale ones last. -/
structure ReadInv (devs : MirrorDevs) (st : MirrorRead) : Prop where
  child : ∀ c < st.mm.children, ChildState devs st.reads c (st.mm.child c)
  nodup : st.reads.Nodup
  lt : ∀ c ∈ st.reads, c < st.mm.children
  dtl_last : DtlLast devs st.mm.children st.reads

namespace ReadInv

variable {devs : MirrorDevs} {st : MirrorRead}

theorem length_le (h : ReadInv devs st) : st.reads.length ≤ st.mm.children := by
  have hsub : st.reads ⊆ List.range st.mm.children := fun c hc => List.mem_range.mpr (h.lt c hc)
  simpa using h.nodup.length_le_of_subset hsub

/-- A fresh map, before the first pick. -/
theorem alloc (devs : MirrorDevs) (s : MirrorShape) (e : ℕ) (rs : List ℕ) :
    ReadInv devs ⟨s.alloc, [], e, rs⟩ where
  child _ _ := .untouched (by simp)
  nodup := List.nodup_nil
  lt _ h := by simp at h
  dtl_last := DtlLast.nil devs _

/-- A round that finds no child to read keeps the invariant. -/
theorem select_none (h : ReadInv devs st) {mm : MirrorMap} (hs : childSelect devs st.mm = (mm, none)) :
    ReadInv devs { st with mm := mm } := by
  have hmm : mm = { st.mm with child := (selectScan devs (selectOrder st.mm) st.mm.child).1 } := by
    rw [← childSelect_child, hs]
  have hst := childSelect_states st.mm h.child
  rw [hs] at hst
  subst hmm
  exact ⟨hst, h.nodup, h.lt, h.dtl_last⟩

/-- A round that picks child `c` and reads it keeps the invariant. -/
theorem step (h : ReadInv devs st) {mm : MirrorMap} {c : ℕ} (hs : childSelect devs st.mm = (mm, some c)) :
    ReadInv devs { st with mm := childDone devs c mm, reads := st.reads ++ [c] } := by
  have hn : mm.children = st.mm.children := by
    rw [← congrArg (fun p => p.1.children) hs, childSelect_child]
  obtain ⟨hc, ht, hd⟩ := childSelect_some st.mm h.child c (by rw [hs])
  have hst := childSelect_states st.mm h.child
  rw [hs] at hst ht
  have hnot := (hst c hc).not_mem ht
  refine ⟨?_, ?_, ?_, ?_⟩
  · -- the child read is in state `read`, the others keep theirs
    intro c' hc'
    replace hc' : c' < st.mm.children := hn ▸ hc'
    by_cases e : c' = c
    · subst e
      have hread : ChildState devs (st.reads ++ [c']) c' ⟨devs.ioError c', true, false, (mm.child c').speculative⟩ :=
        .read _ (by simp)
      simpa [childDone] using hread
    · simpa [childDone, Function.update_of_ne e] using (hst c' hc').append e
  · rw [← List.concat_eq_append]
    exact h.nodup.concat hnot
  · intro c' hc'
    show c' < mm.children
    rw [hn]
    rcases List.mem_append.mp hc' with hc' | hc'
    · exact h.lt c' hc'
    · simp only [List.mem_singleton] at hc'
      exact hc' ▸ hc
  · show DtlLast devs mm.children _
    rw [hn]
    exact h.dtl_last.append hd

end ReadInv

/-! ## The end of a read -/

/-- The condition under which `vdev_mirror_io_done` rewrites children, once
it holds good data: `unexpected_errors`, which counts the failed reads, a
resilver, or a scrub of a replacing mirror, on a writeable pool. -/
def RepairTriggered (devs : MirrorDevs) (flags : ReadFlags) (s : MirrorShape) (reads : List ℕ) : Prop :=
  flags.writeable = true ∧
    ((∃ c ∈ reads, devs.ioError c ≠ 0) ∨ flags.resilver = true ∨
      (flags.scrub = true ∧ s.replacing = true))

/-- What a finished read has done: the children it read, each once and the
stale ones last, whether it failed, and the repair writes it issued. -/
structure ReadSpec (devs : MirrorDevs) (flags : ReadFlags) (s : MirrorShape) (r : MirrorRead) : Prop where
  shape : r.mm.toMirrorShape = s
  nodup : r.reads.Nodup
  lt : ∀ c ∈ r.reads, c < s.children
  dtl_last : DtlLast devs s.children r.reads
  error_eq_zero : r.error = 0 ↔ ∃ c ∈ r.reads, devs.ioError c = 0
  skipped_reason : ∀ c < s.children, c ∉ r.reads → (r.mm.child c).skipped = true →
    devs.readable c = false ∨ devs.dtlMissing c = true
  repairs_iff : ∀ c, c ∈ r.repairs ↔
    c < s.children ∧ r.error = 0 ∧ RepairTriggered devs flags s r.reads ∧
      if c ∈ r.reads then devs.ioError c ≠ 0
      else (r.mm.child c).skipped = true ∨ flags.scrub = true ∨ devs.dtlPartial c = true

theorem ReadSpec.length_le {devs : MirrorDevs} {flags : ReadFlags} {s : MirrorShape} {r : MirrorRead}
    (h : ReadSpec devs flags s r) : r.reads.length ≤ s.children := by
  have hsub : r.reads ⊆ List.range s.children := fun c hc => List.mem_range.mpr (h.lt c hc)
  simpa using h.nodup.length_le_of_subset hsub

section Finish

variable {devs : MirrorDevs} {flags : ReadFlags} {st : MirrorRead}

theorem triggered_iff {unexpected : ℕ} (hu : unexpected = 0 ↔ ∀ c ∈ st.reads, devs.ioError c = 0) :
    (flags.writeable && (unexpected != 0 || flags.resilver || (flags.scrub && st.mm.replacing))) = true ↔
      RepairTriggered devs flags st.mm.toMirrorShape st.reads := by
  simp [RepairTriggered, hu, or_assoc]

/-- The last round of a read, which reads no further child: given the counts
`good_copies` and `unexpected_errors` for the children read, and every child
tried when no copy is good. -/
theorem finishRead_spec {good unexpected : ℕ} (h : ReadInv devs st) (he : st.error = 0)
    (hr : st.repairs = []) (hg : good = 0 ↔ ∀ c ∈ st.reads, devs.ioError c ≠ 0)
    (hu : unexpected = 0 ↔ ∀ c ∈ st.reads, devs.ioError c = 0)
    (hall : good = 0 → ∀ c < st.mm.children, (st.mm.child c).tried = true) :
    ReadSpec devs flags st.mm.toMirrorShape (finishRead devs flags good unexpected st) := by
  have hskip : ∀ c < st.mm.children, c ∉ st.reads → (st.mm.child c).skipped = true →
      devs.readable c = false ∨ devs.dtlMissing c = true :=
    fun c hc => (h.child c hc).skipped_reason
  unfold finishRead
  split_ifs with h0 htrig
  · -- no good copy: every child has an error, and so has the read
    have hne : worstError st.mm ≠ 0 := by
      rw [Ne, worstError_eq_zero_iff]
      intro hz
      have h0c := st.mm.children_pos
      exact (h.child 0 h0c).error_ne_zero (hall h0 0 h0c) (hg.mp h0 0) (hz 0 h0c)
    refine ⟨rfl, h.nodup, h.lt, h.dtl_last, ?_, hskip, ?_⟩
    · simpa [hne] using hg.mp h0
    · simp [hr, hne]
  all_goals
    have hgood : ∃ c ∈ st.reads, devs.ioError c = 0 := by
      by_contra hn
      push Not at hn
      exact h0 (hg.mpr hn)
  · -- good data, and a repair write to each child that needs one
    have hrep := @repairLoop_repairs devs flags (List.range st.mm.children) st.mm.child List.nodup_range
    refine ⟨rfl, h.nodup, h.lt, h.dtl_last, by simpa [he] using hgood, ?_, ?_⟩
    · intro c hc hn hs
      rw [repairLoop_skipped] at hs
      exact hskip c hc hn hs
    · intro c
      simp only [hrep, List.mem_filter, List.mem_range, repairLoop_skipped]
      constructor
      · rintro ⟨hc, hn⟩
        exact ⟨hc, he, (triggered_iff hu).mp htrig, ((h.child c hc).needsRepair_iff flags).mp hn⟩
      · rintro ⟨hc, -, -, hn⟩
        exact ⟨hc, ((h.child c hc).needsRepair_iff flags).mpr hn⟩
  · -- good data and no repair
    refine ⟨rfl, h.nodup, h.lt, h.dtl_last, by simpa [he] using hgood, hskip, ?_⟩
    intro c
    simp only [hr, List.not_mem_nil, false_iff, not_and]
    intro _ _ ht
    exact absurd ((triggered_iff hu).mpr ht) htrig

end Finish

theorem childSelect_shape (devs : MirrorDevs) (mm : MirrorMap) :
    (childSelect devs mm).1.toMirrorShape = mm.toMirrorShape := by
  rw [childSelect_child]

/-- The rounds of `vdev_mirror_io_done`: each either reads a child not read
before or ends the read, so a round for each child left and one more are
enough. -/
theorem ioDoneRead_spec (devs : MirrorDevs) (flags : ReadFlags) (fuel : ℕ) (st : MirrorRead)
    (h : ReadInv devs st) (he : st.error = 0) (hr : st.repairs = [])
    (hf : st.mm.children + 1 - st.reads.length ≤ fuel) :
    ∃ r, ioDoneRead devs flags fuel st = some r ∧ ReadSpec devs flags st.mm.toMirrorShape r := by
  induction fuel generalizing st with
  | zero =>
    have := h.length_le
    omega
  | succ fuel ih =>
    have hg := goodCopies_eq_zero_iff h.child h.lt
    have hu := unexpectedErrors_eq_zero_iff h.child h.lt
    unfold ioDoneRead
    dsimp only
    split_ifs with h0
    · rcases hs : childSelect devs st.mm with ⟨mm, _ | c⟩
      · -- no child left to read: the read ends with the worst error
        have hall := childSelect_none st.mm (by rw [hs])
        have hshape := childSelect_shape devs st.mm
        rw [hs] at hall hshape
        have hn : mm.children = st.mm.children := congrArg MirrorShape.children hshape
        exact ⟨_, rfl, hshape ▸ finishRead_spec (h.select_none hs) he hr hg hu (fun _ => hn ▸ hall)⟩
      · -- child `c` read, and `io_done` runs again
        have h' := h.step hs
        have hshape := childSelect_shape devs st.mm
        rw [hs] at hshape
        have hn : mm.children = st.mm.children := congrArg MirrorShape.children hshape
        have hlen := h'.length_le
        obtain ⟨r, hr', hspec⟩ := ih _ h' he hr (by simp [childDone, hn] at hlen ⊢; omega)
        exact ⟨r, hr', hshape ▸ hspec⟩
    · exact ⟨_, rfl, finishRead_spec h he hr hg hu (fun h0' => absurd h0' h0)⟩

/-- A read that is not a scrub of a mirror that is not replacing ends, with
its `ReadSpec`. -/
theorem vdevMirrorRead_spec (devs : MirrorDevs) (flags : ReadFlags) (s : MirrorShape)
    (hs : flags.scrub = true → s.replacing = true) :
    ∃ r, vdevMirrorRead devs flags s = some r ∧ ReadSpec devs flags s r := by
  have hns : (flags.scrub && !s.alloc.replacing) = false := by
    cases hsc : flags.scrub
    · rfl
    · simp [hs hsc, MirrorShape.alloc]
  unfold vdevMirrorRead
  dsimp only
  rw [hns, if_neg Bool.false_ne_true]
  have hshape := childSelect_shape devs s.alloc
  rcases hsel : childSelect devs s.alloc with ⟨mm, _ | c⟩
  all_goals
    rw [hsel] at hshape
    replace hshape : mm.toMirrorShape = s := hshape
    have hn : mm.children = s.children := congrArg MirrorShape.children hshape
  · obtain ⟨r, hr, hspec⟩ := ioDoneRead_spec devs flags (s.alloc.children + 1) _
      ((ReadInv.alloc devs s 0 []).select_none hsel) rfl rfl (by simp [hn, MirrorShape.alloc])
    exact ⟨r, hr, hshape ▸ hspec⟩
  · obtain ⟨r, hr, hspec⟩ := ioDoneRead_spec devs flags (s.alloc.children + 1) _
      ((ReadInv.alloc devs s 0 []).step hsel) rfl rfl (by simp [childDone, hn, MirrorShape.alloc])
    exact ⟨r, hr, hshape ▸ hspec⟩

/-! ## Writes -/

/-- Writing to the children `cs` in turn marks each tried with the error of
its write. -/
theorem foldl_childDone (devs : MirrorDevs) (cs : List ℕ) (mm : MirrorMap) :
    (cs.foldl (fun mm c => childDone devs c mm) mm).toMirrorShape = mm.toMirrorShape ∧
      ∀ c, (cs.foldl (fun mm c => childDone devs c mm) mm).child c =
        if c ∈ cs then { mm.child c with error := devs.ioError c, tried := true, skipped := false }
        else mm.child c := by
  induction cs generalizing mm with
  | nil => simp
  | cons c' cs ih =>
    obtain ⟨hshape, hchild⟩ := ih (childDone devs c' mm)
    refine ⟨hshape, fun c => ?_⟩
    rw [List.foldl_cons, hchild]
    by_cases e : c = c'
    · subst e
      simp [childDone]
    · simp [childDone, e]

/-- A mirror write fails when no child write succeeded and, for a ditto write,
when any failed. -/
theorem vdevMirrorWrite_error (devs : MirrorDevs) (ditto : Bool) (s : MirrorShape) :
    vdevMirrorWrite devs ditto s ≠ 0 ↔
      if ditto then ∃ c < s.children, devs.ioError c ≠ 0 else ∀ c < s.children, devs.ioError c ≠ 0 := by
  obtain ⟨hshape, hchild⟩ := foldl_childDone devs (List.range s.children) s.alloc
  set mm := (List.range s.children).foldl (fun mm c => childDone devs c mm) s.alloc
  have hn : mm.children = s.children := congrArg MirrorShape.children hshape
  have hc : ∀ c < s.children, (mm.child c).error = devs.ioError c ∧ (mm.child c).tried = true := by
    intro c hc
    simp [hchild, hc]
  -- `good_copies` counts the children written without error
  have hgood : goodCopies mm = ((List.range s.children).filter fun c => devs.ioError c == 0).length := by
    unfold goodCopies
    rw [hn]
    congr 1
    exact List.filter_congr fun c h => by simp [hc c (List.mem_range.mp h)]
  have hall : goodCopies mm = s.children ↔ ∀ c < s.children, devs.ioError c = 0 := by
    have h := @List.length_filter_eq_length_iff _ (fun c => devs.ioError c == 0) (List.range s.children)
    rw [List.length_range] at h
    rw [hgood, h]
    simp
  have hnone : goodCopies mm = 0 ↔ ∀ c < s.children, devs.ioError c ≠ 0 := by
    rw [hgood, length_filter_range_eq_zero_iff]
    simp
  have hworst : worstError mm = 0 ↔ goodCopies mm = s.children := by
    rw [worstError_eq_zero_iff, hall, hn]
    exact forall₂_congr fun c h => by rw [(hc c h).1]
  have hex : (∃ c < s.children, devs.ioError c ≠ 0) ↔ goodCopies mm ≠ s.children := by
    rw [Ne, hall]
    push Not
    rfl
  have hw : vdevMirrorWrite devs ditto s =
      if goodCopies mm ≠ mm.children ∧ (goodCopies mm = 0 ∨ ditto = true) then worstError mm else 0 :=
    rfl
  have hpos := s.children_pos
  rw [hw, hn, hex, ← hnone]
  generalize goodCopies mm = g at hworst ⊢
  cases ditto
  · simp only [Bool.false_eq_true, or_false, if_false]
    split_ifs with h
    · rw [Ne, hworst]
      omega
    · simp only [ne_eq, not_true_eq_false, false_iff]
      omega
  · simp only [or_true, and_true, if_true]
    split_ifs with h
    · rw [Ne, hworst]
    · simp only [ne_eq, not_true_eq_false, false_iff]
      exact h

/-- Mirror I/O: a read that is not a scrub of every child ends, having read
each child at most once and the children in their `DTL_MISSING` only after
the readable others; it fails exactly when no child read succeeded, and
rewrites the children that failed or were skipped, an untried one only for a
scrub or a `DTL_PARTIAL` that holds the txg, and never one read without
error. A write fails exactly when no child write succeeded, and for a ditto
block when any failed. -/
theorem mirror_read_write (devs : MirrorDevs) (flags : ReadFlags) (s : MirrorShape)
    (hs : flags.scrub = true → s.replacing = true) (ditto : Bool) :
    (∃ r, vdevMirrorRead devs flags s = some r ∧ r.reads.length ≤ s.children ∧ ReadSpec devs flags s r) ∧
      (vdevMirrorWrite devs ditto s ≠ 0 ↔
        if ditto then ∃ c < s.children, devs.ioError c ≠ 0 else ∀ c < s.children, devs.ioError c ≠ 0) := by
  obtain ⟨r, hr, hspec⟩ := vdevMirrorRead_spec devs flags s hs
  exact ⟨⟨r, hr, hspec.length_le, hspec⟩, vdevMirrorWrite_error devs ditto s⟩

/-- A two-way mirror whose first child cannot be read. -/
def pairDevs : MirrorDevs := ⟨fun c => c != 0, fun _ => false, fun _ => false, fun _ => 0⟩

/-- Two children, reads from the first. -/
def pairShape : MirrorShape := ⟨2, 0, false, by decide, by decide⟩

/-- A plain read on a writeable pool. -/
def plainRead : ReadFlags := ⟨false, false, true⟩

theorem mirror_read_write_pair :
    (plainRead.scrub = true → pairShape.replacing = true) ∧
      ((∃ r, vdevMirrorRead pairDevs plainRead pairShape = some r ∧ r.reads.length ≤ pairShape.children ∧
          ReadSpec pairDevs plainRead pairShape r) ∧
        (vdevMirrorWrite pairDevs false pairShape ≠ 0 ↔
          if false = true then ∃ c < pairShape.children, pairDevs.ioError c ≠ 0
          else ∀ c < pairShape.children, pairDevs.ioError c ≠ 0)) :=
  ⟨by decide, mirror_read_write pairDevs plainRead pairShape (by decide) false⟩

end ZfsOsx.Vdev
