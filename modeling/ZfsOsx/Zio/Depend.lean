import Mathlib

/-!
# I/O dependencies (`module/zfs/zio.c`)

A zio waits for its children twice: until each is ready (`ZIO_WAIT_READY`)
and until each is done (`ZIO_WAIT_DONE`). `zio_add_child` counts a child in
`pio->io_children[type][w]` for each `w` it has not reached yet
(`!cio->io_state[w]`). A stage calls `zio_wait_for_children(zio, type, w)`:
with a non-zero count the zio stalls on that count and its thread stops.
`zio_ready` and `zio_done` set `io_state[w]` under the child's lock and then
walk the parent list, calling `zio_notify_parent` for each parent, which
drops the parent's count under the parent's lock and runs the parent again
(`__zio_execute`) when the count reaches zero with the parent stalled on it.
`zio_done` first unlinks each parent (`zio_remove_child`).

Each locked region is one step of `sysStep`, and the steps of all zios
interleave in any order (`Reachable`): a zio's own thread takes the steps of
its pipeline (`ZioPc`), and anyone may link a child to a parent at any time
before either is done. A pipeline is any list of stages with their
`zio_wait_for_children` calls, around `zio_ready` and `zio_done`
(`ZioPipeline`). The error and reexecute fields that `zio_notify_parent`
also updates, the child lists and the link counts, which nothing here reads,
are left out; `counted` and `notified` are ghost histories of the counting
and of the notifications.

* `SysInv`: every count is the number of notifications the children of that
  type still owe the parent (`ZioT.owes`); a child owes one per link until it
  sets `io_state[w]`, then one per entry of the parent list its walk has left;
  each notification and each owed one matches a counting; a zio is stalled
  exactly when `io_stall` is set, on a non-zero count.
* `zio_dependency_counts`: in every reachable state, the counts are exact,
  `zio_notify_parent` finds a non-zero count, a stalled zio's count is not
  zero (it is woken by the notification that empties it), and at a point
  where no walk is under way each count is the number of linked children of
  the type that have not set `io_state[w]`.
-/
namespace ZfsOsx.Zio

/-- `enum zio_child` -/
inductive ZioChild
  | vdev
  | gang
  | ddt
  | logical
  deriving DecidableEq, Repr

/-- `enum zio_wait_type` -/
inductive ZioWait
  | ready
  | done
  deriving DecidableEq, Repr

/-- What a stage does once its waits are over: nothing that matters here,
`zio_ready`'s notification of the parents, or `zio_done`'s. -/
inductive StageAct
  | none
  | ready
  | done
  deriving DecidableEq, Repr

/-- A stage of a pipeline: its `zio_wait_for_children` calls in order, then
what it does. -/
structure Stage where
  waits : List (ZioChild × ZioWait)
  act : StageAct
  deriving DecidableEq, Repr

/-- A zio's pipeline: the waits of the stages before `zio_ready`, of those
between it and `zio_done`, and the two of them. -/
structure ZioPipeline where
  early : List (List (ZioChild × ZioWait))
  late : List (List (ZioChild × ZioWait))
  deriving DecidableEq, Repr

/-- `zio_ready` waits for the gang and dedup children to be ready.
mirrors module/zfs/zio.c:2842-2844 -/
def readyStage : Stage := ⟨[(.gang, .ready), (.ddt, .ready)], .ready⟩

/-- `zio_done` waits for every child to be done.
mirrors module/zfs/zio.c:2904-2908 -/
def doneStage : Stage := ⟨[(.vdev, .done), (.gang, .done), (.ddt, .done), (.logical, .done)], .done⟩

def ZioPipeline.stages (P : ZioPipeline) : List Stage :=
  P.early.map (fun ws => ⟨ws, .none⟩) ++ [readyStage] ++ P.late.map (fun ws => ⟨ws, .none⟩) ++ [doneStage]

/-- The index of `zio_ready` in the pipeline. -/
def ZioPipeline.readyIdx (P : ZioPipeline) : ℕ := P.early.length

/-- The index of `zio_done`, the last stage. -/
def ZioPipeline.doneIdx (P : ZioPipeline) : ℕ := P.early.length + 1 + P.late.length

/-- Where the thread of a zio's pipeline is: not started (`ZIO_STAGE_OPEN`),
at the `i`-th wait of stage `s` (past the waits: at its work), stalled in
stage `s`, walking the parents `pend` left after setting `io_state[w]`
(for `zio_done`, with the first one unlinked), or finished. -/
inductive ZioPc (ι : Type)
  | created
  | run (s i : ℕ)
  | stalled (s : ℕ)
  | walk (s : ℕ) (w : ZioWait) (pend : List ι) (unlinked : Bool)
  | finished
  deriving DecidableEq, Repr

/-- What of a `zio_t` the dependencies use: `io_child_type`, its pipeline,
`io_state[]`, `io_children[][]`, `io_parent_list` (head first) and
`io_stall`, and where its thread is. -/
structure ZioT (ι : Type) where
  childType : ZioChild
  pipeline : ZioPipeline
  state : ZioWait → Bool
  children : ZioChild → ZioWait → ℕ
  parents : List ι
  stall : Option (ZioChild × ZioWait)
  pc : ZioPc ι

/-- The zios `ι` of a run, with the ghost histories: `(child, parent, w)`
for each counting by `zio_add_child` and each `zio_notify_parent`. -/
structure ZioSys (ι : Type) where
  zio : ι → ZioT ι
  counted : List (ι × ι × ZioWait)
  notified : List (ι × ι × ZioWait)

section Model

variable {ι : Type} [DecidableEq ι]

/-- `zio_create`: nothing set, nothing counted, no parent. -/
def zioCreate (t : ZioChild) (P : ZioPipeline) : ZioT ι :=
  ⟨t, P, fun _ => false, fun _ _ => 0, [], none, .created⟩

def ZioSys.init (types : ι → ZioChild) (pipes : ι → ZioPipeline) : ZioSys ι :=
  ⟨fun z => zioCreate (types z) (pipes z), [], []⟩

def ZioSys.setZio (S : ZioSys ι) (z : ι) (zz : ZioT ι) : ZioSys ι :=
  { S with zio := Function.update S.zio z zz }

/-- The counts of `pio` once `zio_add_child` has counted `cio`:
`pio->io_children[cio->io_child_type][w] += !cio->io_state[w]`.
mirrors module/zfs/zio.c:469-470 -/
def ZioT.countChild (pz cz : ZioT ι) : ZioT ι :=
  { pz with children := fun t w => pz.children t w + if t = cz.childType ∧ cz.state w = false then 1 else 0 }

/-- The countings `zio_add_child` makes: one for each wait the child has
not reached. -/
def countings (c p : ι) (st : ZioWait → Bool) : List (ι × ι × ZioWait) :=
  ([ZioWait.ready, .done].filter fun w => !st w).map fun w => (c, p, w)

/-- `zio_add_child(pio, cio)`, for a parent and a child that are not done:
the parent counts the child, and goes to the head of the child's list.
mirrors module/zfs/zio.c:449-480 -/
def addChild (S : ZioSys ι) (p c : ι) : Option (ZioSys ι) :=
  let pz := S.zio p
  let cz := S.zio c
  if p = c ∨ pz.state .done = true ∨ cz.state .done = true then none
  else
    some { S with
      zio := Function.update (Function.update S.zio p (pz.countChild cz)) c { cz with parents := p :: cz.parents }
      counted := S.counted ++ countings c p cz.state }

/-- One locked step of the thread running a zio: the next
`zio_wait_for_children` of its stage, which stalls on a non-zero count and
rolls the stage back, or the stage's work; `zio_ready` and `zio_done` set
`io_state[w]` and take the parent list as it stands.
mirrors module/zfs/zio.c:504-520, 2836-2861, 3150-3152 -/
def ZioT.stage (zz : ZioT ι) : Option (ZioT ι) :=
  match zz.pc with
  | .run s i =>
    match zz.pipeline.stages[s]? with
    | none => none
    | some st =>
      match st.waits[i]? with
      | some (t, w) =>
        if zz.children t w ≠ 0 then some { zz with stall := some (t, w), pc := .stalled s }
        else some { zz with pc := .run s (i + 1) }
      | none =>
        match st.act with
        | .none => some { zz with pc := .run (s + 1) 0 }
        | .ready => some { zz with state := Function.update zz.state .ready true,
                                   pc := .walk s .ready zz.parents false }
        | .done => some { zz with state := Function.update zz.state .done true,
                                  pc := .walk s .done zz.parents false }
  | _ => none

/-- Where the thread goes after the last parent: `zio_ready` on with the
pipeline, `zio_done` out. -/
def walkEnd (s : ℕ) : ZioWait → ZioPc ι
  | .ready => .run (s + 1) 0
  | .done => .finished

/-- `__zio_execute` of a stalled zio: the stage rolled back runs again. -/
def resume : ZioPc ι → ZioPc ι
  | .stalled s => .run s 0
  | pc => pc

/-- What `zio_notify_parent` does to the parent for a child of type `t`:
the count drops, and a parent stalled on that count runs again when it
reaches zero. The count is a `uint64_t` that `ASSERT3U(*countp, >, 0)`
guards.
mirrors module/zfs/zio.c:527-540 -/
def ZioT.dropCount (pz : ZioT ι) (t : ZioChild) (w : ZioWait) : ZioT ι :=
  let n := pz.children t w - 1
  let pz' := { pz with children := Function.update pz.children t (Function.update (pz.children t) w n) }
  if n = 0 ∧ pz.stall = some (t, w) then { pz' with stall := none, pc := resume pz.pc } else pz'

/-- `zio_notify_parent(pio, zio, wait)`.
mirrors module/zfs/zio.c:522-541 -/
def notifyParent (S : ZioSys ι) (c p : ι) (w : ZioWait) : ZioSys ι :=
  { S with zio := Function.update S.zio p ((S.zio p).dropCount (S.zio c).childType w),
           notified := S.notified ++ [(c, p, w)] }

/-- One step of a zio's walk of its parents: past the last one, on; in
`zio_done`, `zio_remove_child` before the notification; then
`zio_notify_parent`.
mirrors module/zfs/zio.c:2853-2861, 3154-3159 -/
def walkStep (S : ZioSys ι) (z : ι) : Option (ZioSys ι) :=
  let zz := S.zio z
  match zz.pc with
  | .walk s w [] _ => some (S.setZio z { zz with pc := walkEnd s w })
  | .walk s .done (p :: pend) false =>
    some (S.setZio z { zz with parents := zz.parents.erase p, pc := .walk s .done (p :: pend) true })
  | .walk s w (p :: pend) _ => some (notifyParent (S.setZio z { zz with pc := .walk s w pend false }) z p w)
  | _ => none

/-- The steps of a run. -/
inductive ZioAction (ι : Type)
  | execute (z : ι)
  | addChild (p c : ι)
  | stage (z : ι)
  | walk (z : ι)

/-- One step: `zio_wait`/`zio_nowait` start a zio's thread, a link, a step
of a zio's thread in its stage, or in its walk of the parents. -/
def sysStep (S : ZioSys ι) : ZioAction ι → Option (ZioSys ι)
  | .execute z =>
    match (S.zio z).pc with
    | .created => some (S.setZio z { S.zio z with pc := .run 0 0 })
    | _ => none
  | .addChild p c => addChild S p c
  | .stage z => (S.zio z).stage.map (S.setZio z)
  | .walk z => walkStep S z

/-- The states some interleaving of steps reaches from created zios. -/
inductive Reachable (types : ι → ZioChild) (pipes : ι → ZioPipeline) : ZioSys ι → Prop
  | init : Reachable types pipes (ZioSys.init types pipes)
  | step {S S' : ZioSys ι} (a : ZioAction ι) :
      Reachable types pipes S → sysStep S a = some S' → Reachable types pipes S'

/-! ## The pipeline -/

/-- What stage `s` of a pipeline does: `zio_ready` at `readyIdx`, `zio_done`
at `doneIdx`, nothing else below it, and there is no stage past it. -/
theorem ZioPipeline.stages_act (P : ZioPipeline) (s : ℕ) :
    (P.stages[s]?).map Stage.act =
      if s = P.readyIdx then some .ready else if s = P.doneIdx then some .done
      else if s < P.doneIdx then some .none else none := by
  unfold stages readyIdx doneIdx
  rcases Nat.lt_or_ge s P.early.length with h | h
  · -- a stage before `zio_ready`
    rw [List.append_assoc, List.append_assoc, List.getElem?_append_left (by simpa using h)]
    simp only [List.getElem?_map, List.getElem?_eq_getElem h, Option.map_some]
    rw [if_neg (by omega), if_neg (by omega), if_pos (by omega)]
  obtain ⟨k, rfl⟩ := Nat.exists_eq_add_of_le h
  rw [List.append_assoc, List.append_assoc, List.getElem?_append_right (by simp),
    List.length_map, Nat.add_sub_cancel_left]
  cases k with
  | zero => simp [readyStage]
  | succ k =>
    rw [List.singleton_append, List.getElem?_cons_succ, if_neg (by omega)]
    rcases Nat.lt_or_ge k P.late.length with h' | h'
    · -- a stage between `zio_ready` and `zio_done`
      rw [List.getElem?_append_left (by simpa using h')]
      simp only [List.getElem?_map, List.getElem?_eq_getElem h', Option.map_some]
      rw [if_neg (by omega), if_pos (by omega)]
    · rw [List.getElem?_append_right (by simpa using h'), List.length_map]
      rcases Nat.eq_or_lt_of_le h' with rfl | h''
      · simp [doneStage]
        omega
      · rw [List.getElem?_eq_none (by simp; omega), if_neg (by omega), if_neg (by omega)]
        rfl

theorem ZioPipeline.readyIdx_lt_doneIdx (P : ZioPipeline) : P.readyIdx < P.doneIdx := by
  unfold readyIdx doneIdx
  omega

/-! ## What the children owe -/

/-- The walk of the parents a zio is in, if any: its wait and the parents
left. -/
@[grind] def ZioT.walking (zz : ZioT ι) : Option (ZioWait × List ι) :=
  match zz.pc with
  | .walk _ w pend _ => some (w, pend)
  | _ => none

/-- The notifications of `w` that a zio owes `p`: one per link to `p` until
it sets `io_state[w]`, then one per entry of `p` that its walk has still to
reach. -/
@[grind] def ZioT.owes (zz : ZioT ι) (p : ι) (w : ZioWait) : ℕ :=
  if zz.state w then
    match zz.walking with
    | some (w', pend) => if w' = w then pend.count p else 0
    | none => 0
  else zz.parents.count p

theorem ZioT.owes_congr {zz zz' : ZioT ι} (hs : zz'.state = zz.state) (hw : zz'.walking = zz.walking)
    (hp : zz'.parents = zz.parents) : zz'.owes = zz.owes := by
  unfold owes
  rw [hs, hw, hp]

theorem ZioT.countChild_owes (pz cz : ZioT ι) : (pz.countChild cz).owes = pz.owes :=
  owes_congr rfl rfl rfl

/-- Where a zio's thread is, against `io_state[]`, `io_stall` and, in
`zio_done`'s walk, the parent list: the walk unlinks the parents it has
passed. -/
@[grind] def ZioT.Phase (zz : ZioT ι) : Prop :=
  match zz.pc with
  | .created => zz.state .ready = false ∧ zz.state .done = false ∧ zz.stall = none
  | .run s _ =>
    s ≤ zz.pipeline.doneIdx ∧ (zz.state .ready = true ↔ zz.pipeline.readyIdx < s) ∧
      zz.state .done = false ∧ zz.stall = none
  | .stalled s =>
    s ≤ zz.pipeline.doneIdx ∧ (zz.state .ready = true ↔ zz.pipeline.readyIdx < s) ∧
      zz.state .done = false ∧ zz.stall.isSome
  | .walk s .ready _ unl =>
    s = zz.pipeline.readyIdx ∧ zz.state .ready = true ∧ zz.state .done = false ∧ unl = false ∧
      zz.stall = none
  | .walk s .done pend unl =>
    s = zz.pipeline.doneIdx ∧ zz.state .ready = true ∧ zz.state .done = true ∧
      zz.parents = (if unl then pend.tail else pend) ∧ (unl = true → pend ≠ []) ∧ zz.stall = none
  | .finished => zz.state .ready = true ∧ zz.state .done = true ∧ zz.parents = [] ∧ zz.stall = none

/-- The parents a zio's walk has left, or none. -/
@[grind] def ZioT.walkList (zz : ZioT ι) : List ι :=
  match zz.walking with
  | some (_, pend) => pend
  | none => []

/-- The invariant of a run: the counts are the notifications owed, every
notification and owed one matches a counting, each thread is where its
`io_state[]` says, no zio is its own parent, and a stall is on a non-zero
count. -/
structure SysInv [Fintype ι] (S : ZioSys ι) : Prop where
  counts : ∀ p t w, (S.zio p).children t w =
    ∑ c, if (S.zio c).childType = t then (S.zio c).owes p w else 0
  ledger : ∀ c p w, S.notified.count (c, p, w) + (S.zio c).owes p w = S.counted.count (c, p, w)
  phase : ∀ z, (S.zio z).Phase
  not_own : ∀ z, z ∉ (S.zio z).parents ∧ z ∉ (S.zio z).walkList
  stall_pos : ∀ z t w, (S.zio z).stall = some (t, w) → 0 < (S.zio z).children t w

@[simp] theorem ZioSys.setZio_self (S : ZioSys ι) (z : ι) (zz : ZioT ι) : (S.setZio z zz).zio z = zz := by
  simp [setZio]

@[simp] theorem ZioSys.setZio_ne (S : ZioSys ι) {z c : ι} (zz : ZioT ι) (h : c ≠ z) :
    (S.setZio z zz).zio c = S.zio c := by
  simp [setZio, h]

@[simp] theorem ZioSys.setZio_counted (S : ZioSys ι) (z : ι) (zz : ZioT ι) :
    (S.setZio z zz).counted = S.counted := rfl

@[simp] theorem ZioSys.setZio_notified (S : ZioSys ι) (z : ι) (zz : ZioT ι) :
    (S.setZio z zz).notified = S.notified := rfl

section Sums

variable [Fintype ι]

/-- A sum in which one term changes. -/
theorem sum_add_of_ne {f g : ι → ℕ} (z : ι) (h : ∀ c, c ≠ z → g c = f c) :
    (∑ c, g c) + f z = (∑ c, f c) + g z := by
  have hg := Finset.add_sum_erase Finset.univ g (Finset.mem_univ z)
  have hf := Finset.add_sum_erase Finset.univ f (Finset.mem_univ z)
  have hrest : ∑ c ∈ Finset.univ.erase z, g c = ∑ c ∈ Finset.univ.erase z, f c :=
    Finset.sum_congr rfl fun c hc => h c (Finset.ne_of_mem_erase hc)
  omega

/-- A zio is owed by a child of its type at most its count. -/
theorem SysInv.owes_le {S : ZioSys ι} (h : SysInv S) (c p : ι) (w : ZioWait) :
    (S.zio c).owes p w ≤ (S.zio p).children (S.zio c).childType w := by
  rw [h.counts]
  have := Finset.single_le_sum (f := fun c' => if (S.zio c').childType = (S.zio c).childType then
    (S.zio c').owes p w else 0) (fun _ _ => Nat.zero_le _) (Finset.mem_univ c)
  simpa using this

end Sums

theorem SysInv.init [Fintype ι] (types : ι → ZioChild) (pipes : ι → ZioPipeline) :
    SysInv (ZioSys.init types pipes) where
  counts p t w := by simp [ZioSys.init, zioCreate, ZioT.owes]
  ledger c p w := by simp [ZioSys.init, zioCreate, ZioT.owes]
  phase z := by simp [ZioSys.init, zioCreate, ZioT.Phase]
  not_own z := by simp [ZioSys.init, zioCreate, ZioT.walkList, ZioT.walking]
  stall_pos z t w h := by simp [ZioSys.init, zioCreate] at h

/-! ## A zio's own steps -/

omit [DecidableEq ι] in
/-- What one step of a zio's thread in a stage can do. -/
theorem ZioT.stage_cases {zz zz' : ZioT ι} (h : zz.stage = some zz') :
    ∃ s i, zz.pc = .run s i ∧ s ≤ zz.pipeline.doneIdx ∧
      ((∃ t w, zz.children t w ≠ 0 ∧ zz' = { zz with stall := some (t, w), pc := .stalled s }) ∨
        zz' = { zz with pc := .run s (i + 1) } ∨
        (s ≠ zz.pipeline.readyIdx ∧ s < zz.pipeline.doneIdx ∧ zz' = { zz with pc := .run (s + 1) 0 }) ∨
        (s = zz.pipeline.readyIdx ∧
          zz' = { zz with state := Function.update zz.state .ready true,
                          pc := .walk s .ready zz.parents false }) ∨
        (s = zz.pipeline.doneIdx ∧
          zz' = { zz with state := Function.update zz.state .done true,
                          pc := .walk s .done zz.parents false })) := by
  unfold stage at h
  split at h
  · rename_i s i hpc
    have hact := zz.pipeline.stages_act s
    cases hst : zz.pipeline.stages[s]? with
    | none => simp [hst] at h
    | some st =>
      rw [hst, Option.map_some] at hact
      have hle : s ≤ zz.pipeline.doneIdx := by
        have := zz.pipeline.readyIdx_lt_doneIdx
        by_contra hgt
        rw [if_neg (by omega), if_neg (by omega), if_neg (by omega)] at hact
        simp at hact
      refine ⟨s, i, hpc, hle, ?_⟩
      simp only [hst] at h
      split at h
      · -- a `zio_wait_for_children`
        split_ifs at h with hc <;> simp only [Option.some.injEq] at h <;> subst h
        · exact .inl ⟨_, _, hc, rfl⟩
        · exact .inr (.inl rfl)
      · -- the stage's work
        split at h <;> simp only [Option.some.injEq] at h <;> subst h <;> rename_i ha <;>
          rw [ha] at hact <;> split_ifs at hact with h1 h2 h3 <;> simp at hact
        · exact .inr (.inr (.inl ⟨h1, by omega, rfl⟩))
        · exact .inr (.inr (.inr (.inl ⟨h1, rfl⟩)))
        · exact .inr (.inr (.inr (.inr ⟨h2, rfl⟩)))
  · simp at h

/-- A step of a zio in a stage keeps its phase and what it owes, touches no
count, stalls only on a non-zero count, and starts a walk only of its
parents. -/
theorem ZioT.stage_spec {zz zz' : ZioT ι} (hph : zz.Phase) (h : zz.stage = some zz') :
    zz'.Phase ∧ zz'.owes = zz.owes ∧ zz'.children = zz.children ∧ zz'.childType = zz.childType ∧
      zz'.parents = zz.parents ∧ (zz'.walkList = [] ∨ zz'.walkList = zz.parents) ∧
      (∀ t w, zz'.stall = some (t, w) → zz.stall = some (t, w) ∨ 0 < zz.children t w) := by
  obtain ⟨s, i, hpc, hle, hc | rfl | ⟨hr, hd, rfl⟩ | ⟨rfl, rfl⟩ | ⟨rfl, rfl⟩⟩ := stage_cases h
  all_goals simp only [Phase, hpc] at hph
  · -- stalled on a non-zero count
    obtain ⟨t, w, hc, rfl⟩ := hc
    refine ⟨by simp [Phase, hle, hph], owes_congr rfl (by simp [walking, hpc]) rfl, rfl, rfl, rfl,
      by simp [walkList, walking], ?_⟩
    simp only [Option.some.injEq, Prod.mk.injEq, and_imp]
    rintro t' w' rfl rfl
    exact .inr (Nat.pos_of_ne_zero hc)
  · refine ⟨by simp only [Phase]; exact hph, owes_congr rfl (by simp [walking, hpc]) rfl, rfl, rfl, rfl,
      by simp [walkList, walking], by simp [hph.2.2.2]⟩
  · -- a stage that is neither `zio_ready` nor `zio_done`
    have hready : zz.pipeline.readyIdx < s + 1 ↔ zz.pipeline.readyIdx < s := by omega
    refine ⟨by simp only [Phase, hready]; exact ⟨Nat.succ_le_of_lt hd, hph.2⟩,
      owes_congr rfl (by simp [walking, hpc]) rfl, rfl, rfl, rfl, by simp [walkList, walking],
      by simp [hph.2.2.2]⟩
  · -- `zio_ready` sets `io_state[READY]` and walks its parents as they stand
    have hnr : zz.state .ready = false := by simpa using hph.2.1
    refine ⟨by simp [Phase, hph.2.2.1, hph.2.2.2], ?_, rfl, rfl, rfl, by simp [walkList, walking],
      fun _ _ h => .inl h⟩
    funext p w
    cases w <;> simp [owes, walking, hpc, hnr, Function.update]
  · -- `zio_done` sets `io_state[DONE]` and walks its parents as they stand
    have hr : zz.state .ready = true := hph.2.1.mpr zz.pipeline.readyIdx_lt_doneIdx
    refine ⟨by simp [Phase, hr, hph.2.2.2], ?_, rfl, rfl, rfl, by simp [walkList, walking],
      fun _ _ h => .inl h⟩
    funext p w
    cases w <;> simp [owes, walking, hpc, hr, hph.2.2.1, Function.update]

section Frame

variable [Fintype ι]

/-- A step that changes one zio, keeping what it owes and its counts, keeps
the invariant if the zio keeps its own parts of it. -/
theorem SysInv.setZio {S : ZioSys ι} (h : SysInv S) {z : ι} {zz' : ZioT ι}
    (howes : zz'.owes = (S.zio z).owes) (hch : zz'.children = (S.zio z).children)
    (hty : zz'.childType = (S.zio z).childType) (hph : zz'.Phase)
    (hown : z ∉ zz'.parents ∧ z ∉ zz'.walkList)
    (hpos : ∀ t w, zz'.stall = some (t, w) → 0 < zz'.children t w) : SysInv (S.setZio z zz') := by
  have hrec : ∀ c, ((S.setZio z zz').zio c).childType = (S.zio c).childType ∧
      ((S.setZio z zz').zio c).owes = (S.zio c).owes ∧
      ((S.setZio z zz').zio c).children = (S.zio c).children := by
    intro c
    by_cases e : c = z
    · subst e
      simp [hty, howes, hch]
    · simp [e]
  refine ⟨fun p t w => ?_, fun c p w => ?_, fun c => ?_, fun c => ?_, fun c t w => ?_⟩
  · rw [(hrec p).2.2, h.counts]
    exact Finset.sum_congr rfl fun c _ => by rw [(hrec c).1, (hrec c).2.1]
  · rw [(hrec c).2.1]
    exact h.ledger c p w
  all_goals by_cases e : c = z
  all_goals first
    | (subst e; simp only [ZioSys.setZio_self]) | simp only [ZioSys.setZio_ne _ _ e]
  · exact hph
  · exact h.phase c
  · exact hown
  · exact h.not_own c
  · exact hpos t w
  · exact h.stall_pos c t w

/-- `zio_wait` or `zio_nowait` starts a created zio. -/
theorem SysInv.execute {S S' : ZioSys ι} (h : SysInv S) {z : ι}
    (hs : sysStep S (.execute z) = some S') : SysInv S' := by
  simp only [sysStep] at hs
  split at hs
  · rename_i hpc
    simp only [Option.some.injEq] at hs
    subst hs
    have hph := h.phase z
    simp only [ZioT.Phase, hpc] at hph
    refine h.setZio (ZioT.owes_congr rfl (by simp [ZioT.walking, hpc]) rfl) rfl rfl
      (by simp [ZioT.Phase, hph]) ?_ (by simp [hph.2.2])
    simpa [ZioT.walkList, ZioT.walking, hpc] using h.not_own z
  · simp at hs

/-- A step of a zio's thread in its stage keeps the invariant. -/
theorem SysInv.stage {S S' : ZioSys ι} (h : SysInv S) {z : ι}
    (hs : sysStep S (.stage z) = some S') : SysInv S' := by
  simp only [sysStep, Option.map_eq_some_iff] at hs
  obtain ⟨zz', hst, rfl⟩ := hs
  obtain ⟨hph, howes, hch, hty, hpar, hwl, hstall⟩ := (S.zio z).stage_spec (h.phase z) hst
  have hown := h.not_own z
  refine h.setZio howes hch hty hph ⟨hpar ▸ hown.1, ?_⟩ fun t w hw => ?_
  · rcases hwl with hwl | hwl <;> rw [hwl]
    · simp
    · exact hown.1
  · rw [hch]
    rcases hstall t w hw with hw | hw
    · exact h.stall_pos z t w hw
    · exact hw

omit [Fintype ι] in
/-- What `zio_add_child` can do. -/
theorem addChild_cases {S S' : ZioSys ι} {p c : ι} (h : addChild S p c = some S') :
    p ≠ c ∧ (S.zio p).state .done = false ∧ (S.zio c).state .done = false ∧
      S' = { S with
        zio := Function.update (Function.update S.zio p ((S.zio p).countChild (S.zio c))) c
          { S.zio c with parents := p :: (S.zio c).parents }
        counted := S.counted ++ countings c p (S.zio c).state } := by
  unfold addChild at h
  dsimp only at h
  split_ifs at h with hg
  simp only [not_or, Bool.not_eq_true] at hg
  exact ⟨hg.1, hg.2.1, hg.2.2, (Option.some.inj h).symm⟩

omit [Fintype ι] in
theorem count_countings (c p : ι) (st : ZioWait → Bool) (c' q : ι) (w : ZioWait) :
    (countings c p st).count (c', q, w) = if c = c' ∧ p = q ∧ st w = false then 1 else 0 := by
  cases w <;> cases h1 : st .ready <;> cases h2 : st .done <;> simp [countings, List.filter, h1, h2, List.count_cons]

omit [Fintype ι] in
/-- A new parent at the head of the list: one more owed of each wait the
child has not reached. -/
theorem ZioT.owes_addParent (zz : ZioT ι) (p q : ι) (w : ZioWait) :
    ({ zz with parents := p :: zz.parents } : ZioT ι).owes q w =
      zz.owes q w + if p = q ∧ zz.state w = false then 1 else 0 := by
  cases hs : zz.state w <;> simp [owes, hs, walking, List.count_cons]

omit [Fintype ι] [DecidableEq ι] in
/-- A zio that is not done is not in `zio_done`'s walk, so a new parent
leaves its phase as it is. -/
theorem ZioT.Phase.addParent {zz : ZioT ι} (hph : zz.Phase) (hd : zz.state .done = false) (p : ι) :
    ({ zz with parents := p :: zz.parents } : ZioT ι).Phase := by
  unfold ZioT.Phase at hph ⊢
  rcases hpc : zz.pc with _ | ⟨s, i⟩ | s | ⟨s, _ | _, pend, unl⟩ | _ <;> simp only [hpc] at hph ⊢
  all_goals first | exact hph | simp [hd] at hph

/-- `zio_add_child` keeps the invariant. -/
theorem SysInv.addChild {S S' : ZioSys ι} (h : SysInv S) {p c : ι}
    (hs : sysStep S (.addChild p c) = some S') : SysInv S' := by
  obtain ⟨hpc, hdp, hdc, rfl⟩ := addChild_cases hs
  set Z' := Function.update (Function.update S.zio p ((S.zio p).countChild (S.zio c))) c
    { S.zio c with parents := p :: (S.zio c).parents }
  have hzc : Z' c = { S.zio c with parents := p :: (S.zio c).parents } := by simp [Z']
  have hzp : Z' p = (S.zio p).countChild (S.zio c) := by simp [Z', hpc]
  have hzo : ∀ x, x ≠ p → x ≠ c → Z' x = S.zio x := fun x h1 h2 => by simp [Z', h1, h2]
  have htype : ∀ x, (Z' x).childType = (S.zio x).childType := by
    intro x
    by_cases e1 : x = c
    · subst e1; rw [hzc]
    by_cases e2 : x = p
    · subst e2; rw [hzp]; rfl
    · rw [hzo x e2 e1]
  -- the child owes the new parent one more of each wait it has not reached
  have howes : ∀ x q w, (Z' x).owes q w =
      (S.zio x).owes q w + if c = x ∧ p = q ∧ (S.zio c).state w = false then 1 else 0 := by
    intro x q w
    by_cases e1 : x = c
    · subst e1
      rw [hzc, ZioT.owes_addParent]
      simp
    have hne : c ≠ x := Ne.symm e1
    by_cases e2 : x = p
    · subst e2
      rw [hzp, ZioT.countChild_owes]
      simp [hne]
    · rw [hzo x e2 e1]
      simp [hne]
  have hchild : ∀ x t w, (Z' x).children t w = (S.zio x).children t w +
      if x = p ∧ t = (S.zio c).childType ∧ (S.zio c).state w = false then 1 else 0 := by
    intro x t w
    by_cases e2 : x = p
    · subst e2
      rw [hzp]
      simp [ZioT.countChild]
    by_cases e1 : x = c
    · subst e1; rw [hzc]; simp [e2]
    · rw [hzo x e2 e1]; simp [e2]
  refine ⟨fun q t w => ?_, fun x q w => ?_, fun x => ?_, fun x => ?_, fun x t w => ?_⟩ <;> dsimp only
  · -- only the child's term of the sum changes
    have hsum := sum_add_of_ne (f := fun x => if (S.zio x).childType = t then (S.zio x).owes q w else 0)
      (g := fun x => if (Z' x).childType = t then (Z' x).owes q w else 0) c fun x hx => by
        simp [htype, howes, Ne.symm hx]
    have hgc : (if (Z' c).childType = t then (Z' c).owes q w else 0) =
        (if (S.zio c).childType = t then (S.zio c).owes q w else 0) +
          if (S.zio c).childType = t ∧ p = q ∧ (S.zio c).state w = false then 1 else 0 := by
      rw [htype, howes]
      by_cases ht : (S.zio c).childType = t <;> simp [ht]
    have hcnt : (if q = p ∧ t = (S.zio c).childType ∧ (S.zio c).state w = false then 1 else 0) =
        if (S.zio c).childType = t ∧ p = q ∧ (S.zio c).state w = false then 1 else 0 :=
      if_congr ⟨fun ⟨a, b, d⟩ => ⟨b.symm, a.symm, d⟩, fun ⟨a, b, d⟩ => ⟨b.symm, a.symm, d⟩⟩ rfl rfl
    rw [hchild, h.counts q t w, hcnt]
    omega
  · simp only [List.count_append, count_countings, howes]
    have := h.ledger x q w
    split_ifs <;> omega
  · by_cases e1 : x = c
    · subst e1; rw [hzc]; exact (h.phase x).addParent hdc p
    by_cases e2 : x = p
    · subst e2; rw [hzp]; exact h.phase x
    · rw [hzo x e2 e1]; exact h.phase x
  · by_cases e1 : x = c
    · subst e1; rw [hzc]
      exact ⟨by simpa [hpc.symm] using (h.not_own x).1, (h.not_own x).2⟩
    by_cases e2 : x = p
    · subst e2; rw [hzp]; exact h.not_own x
    · rw [hzo x e2 e1]; exact h.not_own x
  · intro hw
    rw [hchild]
    by_cases e1 : x = c
    · subst e1; rw [hzc] at hw
      have := h.stall_pos x t w hw
      omega
    by_cases e2 : x = p
    · subst e2; rw [hzp] at hw
      have := h.stall_pos x t w hw
      omega
    · rw [hzo x e2 e1] at hw
      have := h.stall_pos x t w hw
      omega

/-! ## The walk of the parents -/

omit [Fintype ι] in
/-- What one step of a zio's walk of its parents can do. -/
theorem walkStep_cases {S S' : ZioSys ι} {z : ι} (h : walkStep S z = some S') :
    ∃ s w pend unl, (S.zio z).pc = .walk s w pend unl ∧
      ((pend = [] ∧ S' = S.setZio z { S.zio z with pc := walkEnd s w }) ∨
        (∃ p rest, pend = p :: rest ∧ w = .done ∧ unl = false ∧
          S' = S.setZio z { S.zio z with parents := (S.zio z).parents.erase p,
                                         pc := .walk s .done (p :: rest) true }) ∨
        (∃ p rest, pend = p :: rest ∧ (w = .ready ∨ unl = true) ∧
          S' = notifyParent (S.setZio z { S.zio z with pc := .walk s w rest false }) z p w)) := by
  unfold walkStep at h
  dsimp only at h
  split at h <;> simp only [Option.some.injEq, reduceCtorEq] at h <;> subst h
  · exact ⟨_, _, _, _, ‹_›, .inl ⟨rfl, rfl⟩⟩
  · exact ⟨_, _, _, _, ‹_›, .inr (.inl ⟨_, _, rfl, rfl, rfl, rfl⟩)⟩
  · rename_i s w p pend unl hnot hpc
    refine ⟨_, _, _, _, hpc, .inr (.inr ⟨_, _, rfl, ?_, rfl⟩)⟩
    cases w
    · exact .inl rfl
    · cases unl
      · exact absurd rfl (hnot rfl)
      · exact .inr rfl

omit [Fintype ι] [DecidableEq ι] in
theorem ZioT.walking_resume (zz : ZioT ι) :
    ({ zz with pc := resume zz.pc } : ZioT ι).walking = zz.walking := by
  cases hpc : zz.pc <;> simp [resume, walking, hpc]

section DropCount

omit [Fintype ι] [DecidableEq ι]

variable (pz : ZioT ι) (t : ZioChild) (w : ZioWait)

theorem ZioT.dropCount_children (t' : ZioChild) (w' : ZioWait) :
    (pz.dropCount t w).children t' w' =
      if t' = t ∧ w' = w then pz.children t w - 1 else pz.children t' w' := by
  have hch : (pz.dropCount t w).children =
      Function.update pz.children t (Function.update (pz.children t) w (pz.children t w - 1)) := by
    unfold dropCount
    dsimp only
    split_ifs <;> rfl
  rw [hch]
  by_cases ht : t' = t
  · subst ht
    by_cases hw : w' = w
    · subst hw; simp
    · simp [hw]
  · simp [ht]

theorem ZioT.dropCount_childType : (pz.dropCount t w).childType = pz.childType := by
  unfold dropCount; dsimp only; split_ifs <;> rfl

theorem ZioT.dropCount_parents : (pz.dropCount t w).parents = pz.parents := by
  unfold dropCount; dsimp only; split_ifs <;> rfl

theorem ZioT.dropCount_walking : (pz.dropCount t w).walking = pz.walking := by
  unfold dropCount
  dsimp only
  split_ifs
  · exact walking_resume pz
  · rfl

variable [DecidableEq ι]

theorem ZioT.dropCount_owes : (pz.dropCount t w).owes = pz.owes := by
  refine owes_congr ?_ (dropCount_walking pz t w) (dropCount_parents pz t w)
  unfold dropCount; dsimp only; split_ifs <;> rfl

variable {pz t w}

omit [DecidableEq ι] in
/-- The parent `zio_notify_parent` runs again was stalled, and goes back to
the start of its stage. -/
theorem ZioT.Phase.dropCount (hph : pz.Phase) : (pz.dropCount t w).Phase := by
  unfold ZioT.dropCount
  dsimp only
  split_ifs with hr
  · -- only a stalled zio has `io_stall` set
    unfold ZioT.Phase at hph ⊢
    rcases hpc : pz.pc with _ | ⟨s, i⟩ | s | ⟨s, _ | _, pend, unl⟩ | _ <;>
      simp only [hpc] at hph <;> simp [hr.2] at hph
    simpa [resume, hpc] using hph
  · exact hph

omit [DecidableEq ι] in
theorem ZioT.dropCount_stall_pos (hpos : ∀ t' w', pz.stall = some (t', w') → 0 < pz.children t' w')
    (t' : ZioChild) (w' : ZioWait) (hs : (pz.dropCount t w).stall = some (t', w')) :
    0 < (pz.dropCount t w).children t' w' := by
  rw [dropCount_children]
  unfold ZioT.dropCount at hs
  dsimp only at hs
  split_ifs at hs with hr
  simp only at hs
  split_ifs with he
  · obtain ⟨rfl, rfl⟩ := he
    have := hpos _ _ hs
    simp only [hs, and_true] at hr
    omega
  · exact hpos t' w' hs

end DropCount

omit [Fintype ι] in
/-- The next parent of a walk: one notification fewer owed to it. -/
theorem ZioT.owes_walk_next {zz : ZioT ι} {s : ℕ} {w : ZioWait} {p : ι} {rest : List ι} {unl : Bool}
    (hpc : zz.pc = .walk s w (p :: rest) unl) (hw : zz.state w = true) (q : ι) (w' : ZioWait) :
    ({ zz with pc := .walk s w rest false } : ZioT ι).owes q w' + (if p = q ∧ w = w' then 1 else 0) =
      zz.owes q w' := by
  by_cases e : w = w'
  · subst e
    simp [owes, walking, hpc, hw, List.count_cons]
  · cases hs : zz.state w' <;> simp [owes, walking, hpc, hs, e]



/-- A step of a zio's walk of its parents keeps the invariant. -/
theorem SysInv.walk {S S' : ZioSys ι} (h : SysInv S) {z : ι}
    (hs : sysStep S (.walk z) = some S') : SysInv S' := by
  obtain ⟨s, w, pend, unl, hpc, ⟨rfl, rfl⟩ | ⟨p, rest, rfl, rfl, rfl, rfl⟩ | ⟨p, rest, rfl, hw, rfl⟩⟩ :=
    walkStep_cases hs
  · -- past the last parent
    have hph := h.phase z
    have hst : (S.zio z).state w = true := by
      cases w <;> simp only [ZioT.Phase, hpc] at hph <;> simp [hph.2.1, hph.2.2.1]
    refine h.setZio ?_ rfl rfl ?_
      ⟨(h.not_own z).1, by cases w <;> simp [ZioT.walkList, ZioT.walking, walkEnd]⟩ ?_
    · funext q w'
      cases w <;> cases w' <;> cases hs : (S.zio z).state .ready <;> cases hd : (S.zio z).state .done <;>
        simp_all [ZioT.owes, ZioT.walking, walkEnd]
    · have := (S.zio z).pipeline.readyIdx_lt_doneIdx
      cases w <;> simp only [ZioT.Phase, hpc] at hph
      · obtain ⟨rfl, hr, hd, -, hst⟩ := hph
        simp only [ZioT.Phase, walkEnd, hr, hd, hst, true_iff, and_true]
        omega
      · simp [ZioT.Phase, walkEnd, hph]
    · cases w <;> simp only [ZioT.Phase, hpc] at hph <;> simp [hph]
  · -- `zio_remove_child` of the next parent
    have hph := h.phase z
    simp only [ZioT.Phase, hpc, Bool.false_eq_true, if_false] at hph
    have hown := h.not_own z
    simp only [ZioT.walkList, ZioT.walking, hpc] at hown
    refine h.setZio ?_ rfl rfl ?_ ⟨fun hm => hown.1 (List.mem_of_mem_erase hm), by
      simpa [ZioT.walkList, ZioT.walking] using hown.2⟩ (by simp [hph])
    · funext q w'
      cases w' <;> simp [ZioT.owes, ZioT.walking, hpc, hph]
    · simp [ZioT.Phase, hph]
  · -- `zio_notify_parent` of the next parent
    have hph := h.phase z
    have hown := h.not_own z
    simp only [ZioT.walkList, ZioT.walking, hpc, List.mem_cons, not_or] at hown
    have hpz : p ≠ z := Ne.symm hown.2.1
    set zz1 : ZioT ι := { S.zio z with pc := .walk s w rest false } with hzz1
    -- the thread's own record: it is past `p`, in the phase it was
    have hst : (S.zio z).state w = true := by
      cases w <;> simp only [ZioT.Phase, hpc] at hph <;> simp [hph]
    have hph1 : zz1.Phase := by
      cases w
      · simp only [ZioT.Phase, hpc] at hph
        simp [zz1, ZioT.Phase, hph]
      · have hu : unl = true := by simpa using hw
        simp only [ZioT.Phase, hpc, hu, if_true] at hph
        simp [zz1, ZioT.Phase, hph]
    have hstall1 : zz1.stall = none := by
      cases w <;> simp only [ZioT.Phase, hpc] at hph <;> simp [zz1, hph]
    have hzp : (notifyParent (S.setZio z zz1) z p w).zio p = (S.zio p).dropCount (S.zio z).childType w := by
      simp [notifyParent, hpz, zz1]
    have hzz : (notifyParent (S.setZio z zz1) z p w).zio z = zz1 := by
      simp [notifyParent, hpz.symm]
    have hzo : ∀ x, x ≠ p → x ≠ z → (notifyParent (S.setZio z zz1) z p w).zio x = S.zio x :=
      fun x h1 h2 => by simp [notifyParent, h1, h2]
    -- `zio_notify_parent` finds the count at least one: `p` is owed by `z`
    have hpos1 : 1 ≤ (S.zio p).children (S.zio z).childType w := by
      have hle := h.owes_le z p w
      have : 1 ≤ (S.zio z).owes p w := by
        simp [ZioT.owes, ZioT.walking, hpc, hst]
      omega
    have htype : ∀ x, ((notifyParent (S.setZio z zz1) z p w).zio x).childType = (S.zio x).childType := by
      intro x
      by_cases e1 : x = p
      · subst e1; rw [hzp, ZioT.dropCount_childType]
      by_cases e2 : x = z
      · subst e2; rw [hzz]
      · rw [hzo x e1 e2]
    have howes : ∀ x q w', ((notifyParent (S.setZio z zz1) z p w).zio x).owes q w' +
        (if z = x ∧ p = q ∧ w = w' then 1 else 0) = (S.zio x).owes q w' := by
      intro x q w'
      by_cases e2 : x = z
      · subst e2
        rw [hzz, ← ZioT.owes_walk_next hpc hst q w']
        simp [zz1]
      have hne : z ≠ x := Ne.symm e2
      by_cases e1 : x = p
      · subst e1
        rw [hzp, ZioT.dropCount_owes]
        simp [hne]
      · rw [hzo x e1 e2]
        simp [hne]
    have hchild : ∀ x t' w', ((notifyParent (S.setZio z zz1) z p w).zio x).children t' w' +
        (if x = p ∧ t' = (S.zio z).childType ∧ w' = w then 1 else 0) = (S.zio x).children t' w' := by
      intro x t' w'
      by_cases e1 : x = p
      · subst e1
        rw [hzp, ZioT.dropCount_children]
        by_cases he : t' = (S.zio z).childType ∧ w' = w
        · rw [if_pos he, if_pos ⟨rfl, he⟩]
          obtain ⟨rfl, rfl⟩ := he
          omega
        · rw [if_neg he, if_neg fun h' => he h'.2, Nat.add_zero]
      by_cases e2 : x = z
      · subst e2; rw [hzz]; simp [e1, zz1]
      · rw [hzo x e1 e2]; simp [e1]
    set S' := notifyParent (S.setZio z zz1) z p w
    refine ⟨fun q t w' => ?_, fun x q w' => ?_, fun x => ?_, fun x => ?_, fun x t w' => ?_⟩
    · -- only `z`'s term of the sum changes, by the notification `p` had from it
      have hsum := sum_add_of_ne
        (f := fun x => if (S.zio x).childType = t then (S.zio x).owes q w' else 0)
        (g := fun x => if (S'.zio x).childType = t then (S'.zio x).owes q w' else 0) z fun x hx => by
          have := howes x q w'
          simp only [htype, Ne.symm hx, false_and, if_false, add_zero] at this ⊢
          rw [this]
      have hgz : (if (S'.zio z).childType = t then (S'.zio z).owes q w' else 0) +
          (if (S.zio z).childType = t ∧ p = q ∧ w = w' then 1 else 0) =
          if (S.zio z).childType = t then (S.zio z).owes q w' else 0 := by
        have := howes z q w'
        rw [htype]
        by_cases ht : (S.zio z).childType = t
        · simp only [ht, if_true, true_and] at this ⊢
          omega
        · simp [ht]
      have hcond : (if q = p ∧ t = (S.zio z).childType ∧ w' = w then 1 else 0) =
          if (S.zio z).childType = t ∧ p = q ∧ w = w' then 1 else 0 :=
        if_congr ⟨fun ⟨a, b, d⟩ => ⟨b.symm, a.symm, d.symm⟩, fun ⟨a, b, d⟩ => ⟨b.symm, a.symm, d.symm⟩⟩
          rfl rfl
      have hcz := hchild q t w'
      rw [h.counts q t w', hcond] at hcz
      omega
    · have hl := h.ledger x q w'
      have ho := howes x q w'
      have hnotified : S'.notified = S.notified ++ [(z, p, w)] := rfl
      rw [show S'.counted = S.counted from rfl, hnotified, List.count_append, List.count_singleton]
      simp only [beq_iff_eq, Prod.mk.injEq] at ho ⊢
      split_ifs at ho ⊢ <;> omega
    · by_cases e1 : x = p
      · subst e1; rw [hzp]; exact (h.phase x).dropCount
      by_cases e2 : x = z
      · subst e2; rw [hzz]; exact hph1
      · rw [hzo x e1 e2]; exact h.phase x
    · by_cases e1 : x = p
      · subst e1
        rw [hzp]
        simpa [ZioT.walkList, ZioT.dropCount_parents, ZioT.dropCount_walking] using h.not_own x
      by_cases e2 : x = z
      · subst e2
        rw [hzz]
        exact ⟨hown.1, by simpa [zz1, ZioT.walkList, ZioT.walking] using hown.2.2⟩
      · rw [hzo x e1 e2]; exact h.not_own x
    · intro hw2
      by_cases e1 : x = p
      · subst e1
        rw [hzp] at hw2 ⊢
        exact ZioT.dropCount_stall_pos (h.stall_pos x) t w' hw2
      by_cases e2 : x = z
      · subst e2; rw [hzz, hstall1] at hw2; simp at hw2
      · rw [hzo x e1 e2] at hw2 ⊢; exact h.stall_pos x t w' hw2

/-- Every step keeps the invariant. -/
theorem SysInv.step {S S' : ZioSys ι} (h : SysInv S) {a : ZioAction ι} (hs : sysStep S a = some S') :
    SysInv S' := by
  cases a with
  | execute z => exact h.execute hs
  | addChild p c => exact h.addChild hs
  | stage z => exact h.stage hs
  | walk z => exact h.walk hs

/-- The invariant holds in every state an interleaving reaches. -/
theorem SysInv.reachable {types : ι → ZioChild} {pipes : ι → ZioPipeline} {S : ZioSys ι}
    (hS : Reachable types pipes S) : SysInv S := by
  induction hS with
  | init => exact SysInv.init types pipes
  | step a _ hs ih => exact ih.step hs

end Frame

/-! ## The dependency counts -/

/-- What the counts are worth in a state of a run. -/
structure DependencyCounts [Fintype ι] (S : ZioSys ι) : Prop where
  /-- `io_children[t][w]` is the number of notifications of `w` the children
  of type `t` still owe. -/
  counts : ∀ p t w, (S.zio p).children t w =
    ∑ c, if (S.zio c).childType = t then (S.zio c).owes p w else 0
  /-- Each notification made and each owed matches a counting. -/
  notified_add_owes : ∀ c p w,
    S.notified.count (c, p, w) + (S.zio c).owes p w = S.counted.count (c, p, w)
  /-- Once a child has set `io_state[w]` and walked its parents, it has
  notified each parent once for each time that parent counted it. -/
  notified_eq_counted : ∀ c p w, (S.zio c).state w = true →
    ((S.zio c).walking.map Prod.fst ≠ some w) → S.notified.count (c, p, w) = S.counted.count (c, p, w)
  /-- A parent linked after the child set `io_state[w]` is neither counted
  nor owed a notification for `w`. -/
  late_parent : ∀ p c w S', addChild S p c = some S' → (S.zio c).state w = true →
    S'.counted.count (c, p, w) = S.counted.count (c, p, w) ∧ (S'.zio c).owes p w = (S.zio c).owes p w
  /-- `ASSERT3U(*countp, >, 0)` in `zio_notify_parent`. -/
  notify_pos : ∀ z s w p rest unl, (S.zio z).pc = .walk s w (p :: rest) unl → (w = .ready ∨ unl = true) →
    0 < (S.zio p).children (S.zio z).childType w
  /-- `io_stall` is set exactly while the zio is stalled ... -/
  stall_iff : ∀ z, (S.zio z).stall.isSome ↔ ∃ s, (S.zio z).pc = .stalled s
  /-- ... and then on a count some child still owes a notification to. -/
  stall_owed : ∀ z t w, (S.zio z).stall = some (t, w) →
    ∃ c, (S.zio c).childType = t ∧ 0 < (S.zio c).owes z w
  /-- With no walk under way, `io_children[t][w]` is the number of links to
  children of type `t` that have not set `io_state[w]`. -/
  quiescent : (∀ z, (S.zio z).walking = none) → ∀ p t w, (S.zio p).children t w =
    ∑ c, if (S.zio c).childType = t ∧ (S.zio c).state w = false then (S.zio c).parents.count p else 0

section Spec

variable [Fintype ι]

theorem SysInv.notify_pos {S : ZioSys ι} (h : SysInv S) {z p : ι} {s : ℕ} {w : ZioWait} {rest : List ι}
    {unl : Bool} (hpc : (S.zio z).pc = .walk s w (p :: rest) unl) :
    0 < (S.zio p).children (S.zio z).childType w := by
  have hst : (S.zio z).state w = true := by
    have hph := h.phase z
    cases w <;> simp only [ZioT.Phase, hpc] at hph <;> simp [hph]
  have hle := h.owes_le z p w
  have : 0 < (S.zio z).owes p w := by simp [ZioT.owes, ZioT.walking, hpc, hst]
  omega

theorem SysInv.stall_iff {S : ZioSys ι} (h : SysInv S) (z : ι) :
    (S.zio z).stall.isSome ↔ ∃ s, (S.zio z).pc = .stalled s := by
  have hph := h.phase z
  unfold ZioT.Phase at hph
  rcases hpc : (S.zio z).pc with _ | ⟨s, i⟩ | s | ⟨s, _ | _, pend, unl⟩ | _ <;>
    simp only [hpc] at hph <;> simp [hph]

theorem SysInv.stall_owed {S : ZioSys ι} (h : SysInv S) {z : ι} {t : ZioChild} {w : ZioWait}
    (hs : (S.zio z).stall = some (t, w)) : ∃ c, (S.zio c).childType = t ∧ 0 < (S.zio c).owes z w := by
  have hpos := h.stall_pos z t w hs
  rw [h.counts] at hpos
  obtain ⟨c, -, hc⟩ := Finset.exists_ne_zero_of_sum_ne_zero (Nat.pos_iff_ne_zero.mp hpos)
  by_cases ht : (S.zio c).childType = t
  · simp only [ht, if_true] at hc
    exact ⟨c, ht, Nat.pos_of_ne_zero hc⟩
  · simp [ht] at hc

omit [Fintype ι] in
/-- Outside a walk, a zio owes each parent one notification of each wait it
has not reached per link. -/
theorem ZioT.owes_of_walking_none {zz : ZioT ι} (hw : zz.walking = none) (p : ι) (w : ZioWait) :
    zz.owes p w = if zz.state w = false then zz.parents.count p else 0 := by
  cases hs : zz.state w <;> simp [owes, hs, hw]

theorem SysInv.dependencyCounts {S : ZioSys ι} (h : SysInv S) : DependencyCounts S where
  counts := h.counts
  notified_add_owes := h.ledger
  notified_eq_counted c p w hs hw := by
    have hz : (S.zio c).owes p w = 0 := by
      unfold ZioT.owes
      rw [hs, if_pos rfl]
      split
      · rename_i w' pend hwk
        rw [hwk] at hw
        simp only [Option.map_some, ne_eq, Option.some.injEq] at hw
        simp [hw]
      · rfl
    have := h.ledger c p w
    omega
  late_parent p c w S' hs hw := by
    obtain ⟨-, -, -, rfl⟩ := addChild_cases hs
    refine ⟨by simp [List.count_append, count_countings, hw], ?_⟩
    simp only [Function.update_self]
    rw [ZioT.owes_addParent]
    simp [hw]
  notify_pos z s w p rest unl hpc _ := h.notify_pos hpc
  stall_iff := h.stall_iff
  stall_owed z t w hs := h.stall_owed hs
  quiescent hw p t w := by
    rw [h.counts]
    refine Finset.sum_congr rfl fun c _ => ?_
    rw [ZioT.owes_of_walking_none (hw c)]
    by_cases ht : (S.zio c).childType = t <;> by_cases hs : (S.zio c).state w = false <;> simp [ht, hs]

end Spec

end Model

end ZfsOsx.Zio
