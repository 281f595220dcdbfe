import Mathlib

/-!
# Assembling pool configurations from labels (`lib/libzfs/libzfs_import.c`)

`zpool import` reads the label of every device (`zpool_read_label`), files
each label's config under its pool, its top-level vdev and its txg
(`add_config`), and builds one config per pool (`get_configs`): for each
top-level vdev the config of its highest txg; the pool's fields from the
first of these; `ZPOOL_CONFIG_VDEV_CHILDREN` and the hole array from the one
of highest txg; and a root vdev whose children are the top-level vdevs at
their ids in the array `child[]`, with `hole` and `missing` vdevs in the gaps.
A label is whatever bytes lie on a device, so every field these functions
read is chosen by whoever wrote the device.

A config is modelled by what the typed lookups of these functions find in it:
a field is `none` when the nvlist has no pair of that name and type. A
top-level vdev's nvlist is kept whole, as what `nvlist_dup` copies.
`child[]` is its contents and the number of pointers allocated: `zfs_alloc`
of a byte count that wraps at `2^64` allocates what the wrapped count says,
and `children` is a `uint_t`. A `verify` or an `fnvlist_lookup` that fails,
and an access to `child[]` past its allocation, end the run. Allocation
failures (`goto nomem`) are not modelled.

Results:
* `GetState.Good`, `GetState.putChild_safe`, `getConfigs_safe`: when the
  labels' top-level ids and `VDEV_CHILDREN` are below `2^61`, no byte count
  wraps and `get_configs` stays inside `child[]` on every pool list: it builds
  each config, or aborts.
* `get_configs_child_oob`: a label whose top-level vdev has id `2^61` makes
  `get_configs` allocate `(2^61 + 1) * 8` bytes, which wraps to 8, and store
  `child[2^61]` past them. `get_configs_version_abort`: a label without
  `ZPOOL_CONFIG_VERSION`, which `add_config` files, makes it abort.
-/

namespace ZfsOsx.Import

/-- `POOL_STATE_SPARE`.
mirrors include/sys/fs/zfs.h:624-633 -/
def poolStateSpare : ℕ := 3

/-- `POOL_STATE_L2CACHE`. -/
def poolStateL2cache : ℕ := 4

/-- `sizeof (nvlist_t *)`. -/
def ptrSize : ℕ := 8

/-- A top-level vdev's nvlist, `ZPOOL_CONFIG_VDEV_TREE` of a config: its
`ZPOOL_CONFIG_ID`, if it has one, and the rest of its pairs, which
`nvlist_dup` copies as they are. -/
structure VdevTree where
  id : Option ℕ
  rest : ℕ
  deriving DecidableEq, Repr

/-- A label's config, by what the lookups of `zpool_read_label`,
`add_config` and `get_configs` find in it. -/
structure LabelConfig where
  poolState : Option ℕ
  poolTxg : Option ℕ
  poolGuid : Option ℕ
  guid : Option ℕ
  topGuid : Option ℕ
  version : Option ℕ
  poolName : Option String
  hostid : Option ℕ
  hostname : Option String
  vdevChildren : Option ℕ
  holeArray : Option (List ℕ)
  vdevTree : Option VdevTree
  deriving DecidableEq, Repr

/-- The test `zpool_read_label` makes of a config it unpacked: a pool state
up to `POOL_STATE_L2CACHE` and, but for a spare or cache device, a non-zero
txg.
mirrors lib/libzfs/libzfs_import.c:883-894 -/
def labelAccepted (c : LabelConfig) : Bool :=
  match c.poolState with
  | none => false
  | some state =>
    decide (state ≤ poolStateL2cache) &&
      (state == poolStateSpare || state == poolStateL2cache || c.poolTxg.any (· != 0))

/-! ## `add_config` -/

/-- `config_entry_t` -/
structure ConfigEntry where
  txg : ℕ
  config : LabelConfig
  deriving DecidableEq, Repr

/-- `vdev_entry_t` -/
structure VdevEntry where
  guid : ℕ
  configs : List ConfigEntry
  deriving DecidableEq, Repr

/-- `pool_entry_t` -/
structure PoolEntry where
  guid : ℕ
  vdevs : List VdevEntry
  deriving DecidableEq, Repr

/-- `name_entry_t` -/
structure NameEntry where
  name : String
  guid : ℕ
  order : ℕ
  deriving DecidableEq, Repr

/-- `pool_list_t`: each list has its newest entry first. -/
structure PoolList where
  pools : List PoolEntry
  names : List NameEntry
  deriving DecidableEq, Repr

/-- The list with its first element that satisfies `p` replaced by `f` of
it; `none` when no element does. -/
def updateFirst {α : Type*} (p : α → Bool) (f : α → α) : List α → Option (List α)
  | [] => none
  | a :: l => if p a then some (f a :: l) else (updateFirst p f l).map (a :: ·)

/-- The third step of `add_config`: a config of a txg the vdev has no config
of is kept, first. -/
def VdevEntry.addConfig (txg : ℕ) (config : LabelConfig) (ve : VdevEntry) : VdevEntry :=
  if ve.configs.any (·.txg == txg) then ve else { ve with configs := ⟨txg, config⟩ :: ve.configs }

/-- The second step: the config goes to the first vdev of its top-level guid,
or to a new one, first. -/
def PoolEntry.addConfig (topGuid txg : ℕ) (config : LabelConfig) (pe : PoolEntry) : PoolEntry :=
  match updateFirst (·.guid == topGuid) (VdevEntry.addConfig txg config) pe.vdevs with
  | some vs => { pe with vdevs := vs }
  | none => { pe with vdevs := VdevEntry.addConfig txg config ⟨topGuid, []⟩ :: pe.vdevs }

/-- `add_config` for a label of a pool: one without a pool guid, a guid, a
top-level guid or a non-zero txg is dropped; any other goes to the first pool
of its guid, or to a new one, and its path to the names.
mirrors lib/libzfs/libzfs_import.c:235-334 -/
def addPoolConfig (pl : PoolList) (path : String) (order : ℕ) (config : LabelConfig) : PoolList :=
  match config.poolGuid, config.guid, config.topGuid, config.poolTxg with
  | some poolGuid, some vdevGuid, some topGuid, some txg =>
    if txg = 0 then pl
    else
      let pools :=
        match updateFirst (·.guid == poolGuid) (PoolEntry.addConfig topGuid txg config) pl.pools with
        | some ps => ps
        | none => PoolEntry.addConfig topGuid txg config ⟨poolGuid, []⟩ :: pl.pools
      ⟨pools, ⟨path, vdevGuid, order⟩ :: pl.names⟩
  | _, _, _, _ => pl

/-- `add_config(hdl, pl, path, order, config)`: a spare or cache device not in
use only adds its path to the names.
mirrors lib/libzfs/libzfs_import.c:200-335 -/
def addConfig (pl : PoolList) (path : String) (order : ℕ) (config : LabelConfig) : PoolList :=
  match config.poolState, config.guid with
  | some state, some vdevGuid =>
    if state = poolStateSpare ∨ state = poolStateL2cache then
      { pl with names := ⟨path, vdevGuid, order⟩ :: pl.names }
    else addPoolConfig pl path order config
  | _, _ => addPoolConfig pl path order config

/-! ## `get_configs` -/

/-- A child of the root vdev: the copy of a label's top-level vdev, or the
`hole` or `missing` vdev that `get_configs` makes for id `c`. -/
inductive TopChild
  | tree (t : VdevTree)
  | hole (c : ℕ)
  | missing (c : ℕ)
  deriving DecidableEq, Repr

/-- The config `get_configs` builds for a pool, field by field. -/
structure PoolConfig where
  version : Option ℕ
  poolGuid : Option ℕ
  name : Option String
  txg : Option ℕ
  state : Option ℕ
  hostid : Option ℕ
  hostname : Option String
  vdevChildren : Option ℕ
  holeArray : Option (List ℕ)
  children : List TopChild
  deriving DecidableEq, Repr

/-- The config `nvlist_alloc` makes. -/
def PoolConfig.empty : PoolConfig := ⟨none, none, none, none, none, none, none, none, none, []⟩

/-- How `get_configs` fails: a `verify` or an `fnvlist_lookup` aborts, or
`child[index]` is accessed with `slots` pointers allocated. -/
inductive GetFail
  | abort
  | oob (index slots : ℕ)
  deriving DecidableEq, Repr

/-- The locals of `get_configs`: `tmp`, `max_txg`, `max_id`, the hole array,
`valid_top_config`, the config being built and `config_seen`, and `child[]`:
the pointers allocated, `children` and the entries. -/
structure GetState where
  tmp : Option LabelConfig
  maxTxg : ℕ
  maxId : ℕ
  holes : List ℕ
  validTop : Bool
  config : PoolConfig
  seen : Bool
  slots : ℕ
  children : ℕ
  child : ℕ → Option TopChild

namespace GetState

/-- The best config of a vdev: the first of the highest txg, `tmp` staying as
it was when no txg is above 0.
mirrors lib/libzfs/libzfs_import.c:468-475 -/
def best (configs : List ConfigEntry) (st : GetState) : ℕ × Option LabelConfig :=
  configs.foldl (fun acc ce => if ce.txg > acc.1 then (ce.txg, some ce.config) else acc) (0, st.tmp)

/-- `max_id` and `valid_top_config` from `tmp`'s `VDEV_CHILDREN`, which the
config takes.
mirrors lib/libzfs/libzfs_import.c:497-502 -/
def setChildren (st : GetState) : GetState :=
  match st.tmp.bind (·.vdevChildren) with
  | some v => { st with maxId := v, config := { st.config with vdevChildren := some v }, validTop := true }
  | none => st

/-- The hole array from `tmp`'s, which the config takes.
mirrors lib/libzfs/libzfs_import.c:504-509 -/
def setHoles (st : GetState) : GetState :=
  match st.tmp.bind (·.holeArray) with
  | some arr => { st with holes := arr, config := { st.config with holeArray := some arr } }
  | none => st

/-- A best config of a higher txg than any before resets `VDEV_CHILDREN` and
the hole array to its own.
mirrors lib/libzfs/libzfs_import.c:482-509 -/
def newMax (bestTxg : ℕ) (st : GetState) : GetState :=
  if st.maxTxg < bestTxg then
    setHoles (setChildren { st with
      config := { st.config with vdevChildren := none, holeArray := none }
      maxTxg := bestTxg
      holes := []
      maxId := 0
      validTop := false })
  else st

/-- The pool's fields, copied from the first best config; the
`fnvlist_lookup`s abort on a field that is missing.
mirrors lib/libzfs/libzfs_import.c:511-565 -/
def copyPool (st : GetState) : Except GetFail GetState :=
  if st.seen then .ok st
  else
    match st.tmp with
    | none => .error .abort
    | some c =>
      match c.version, c.poolGuid, c.poolName, c.poolState with
      | some v, some g, some n, some s =>
        let config := { st.config with
          version := some v
          poolGuid := some g
          name := some n
          txg := c.poolTxg
          state := some s }
        match c.hostid with
        | none => .ok { st with config := config, seen := true }
        | some h =>
          match c.hostname with
          | some hn => .ok { st with config := { config with hostid := some h, hostname := some hn }, seen := true }
          | none => .error .abort
      | _, _, _, _ => .error .abort

/-- `child[]` regrown to `bytes` bytes and a count of `count`: the copy loop
reads the old `child[c]` and writes the new one for every `c < children`.
mirrors lib/libzfs/libzfs_import.c:577-588 -/
def grow (bytes count : ℕ) (st : GetState) : Except GetFail GetState :=
  let slots := bytes / ptrSize
  if st.slots < st.children then .error (.oob st.slots st.slots)
  else if slots < st.children then .error (.oob slots slots)
  else .ok { st with slots := slots, children := count, child := fun c => if c < st.children then st.child c else none }

/-- `nvlist_dup(nvtop, &child[id], 0)`. -/
def write (id : ℕ) (x : TopChild) (st : GetState) : Except GetFail GetState :=
  if id < st.slots then .ok { st with child := Function.update st.child id (some x) }
  else .error (.oob id st.slots)

/-- A top-level vdev of id `id` goes to `child[id]`, the array regrown to
`(id + 1) * sizeof (nvlist_t *)` bytes in `uint64_t` and `children = id + 1`
in `uint_t` when `id >= children`.
mirrors lib/libzfs/libzfs_import.c:571-592 -/
def putChild (id : ℕ) (t : VdevTree) (st : GetState) : Except GetFail GetState := do
  let st ← if st.children ≤ id then st.grow ((id + 1) * ptrSize % 2 ^ 64) ((id + 1) % 2 ^ 32)
    else pure st
  st.write id (.tree t)

/-- One round of the loop over a pool's top-level vdevs.
mirrors lib/libzfs/libzfs_import.c:462-594 -/
def addVdev (st : GetState) (ve : VdevEntry) : Except GetFail GetState := do
  let b := st.best ve.configs
  let st := newMax b.1 { st with tmp := b.2 }
  let st ← st.copyPool
  match st.tmp.bind (·.vdevTree) with
  | none => .error .abort
  | some nvtop =>
    match nvtop.id with
    | none => .error .abort
    | some id => st.putChild id nvtop

/-- Every `child[c]` for `c < n` is read or written: the first one past the
allocation fails. -/
def touch (n : ℕ) (st : GetState) : Except GetFail Unit :=
  if n ≤ st.slots then .ok () else .error (.oob st.slots st.slots)

/-- After the loop, the array cut or extended to `VDEV_CHILDREN` when the
highest-txg config has it; a cut frees the entries past it.
mirrors lib/libzfs/libzfs_import.c:597-626 -/
def fitChildren (st : GetState) : Except GetFail GetState :=
  if st.validTop then
    if st.maxId < st.children then touch st.children st >>= fun _ => pure { st with children := st.maxId }
    else if st.children < st.maxId then st.grow (st.maxId * ptrSize % 2 ^ 64) (st.maxId % 2 ^ 32)
    else pure st
  else pure st

/-- The root's child `c`: the entry of `child[]`, or else a `hole` vdev when
`c` is in the hole array and a `missing` vdev when it is not.
mirrors lib/libzfs/libzfs_import.c:636-682 -/
@[grind] def fill (st : GetState) (c : ℕ) : TopChild :=
  match st.child c with
  | some x => x
  | none => if st.holes.contains c then .hole c else .missing c

/-- The end of a pool's round: the array fitted, the pool guid looked up with
a `verify`, and the filled array as the root's children.
mirrors lib/libzfs/libzfs_import.c:597-692 -/
def finish (st : GetState) : Except GetFail PoolConfig :=
  st.fitChildren >>= fun st =>
    if st.config.poolGuid.isNone then .error .abort
    else touch st.children st >>= fun _ =>
      pure { st.config with children := (List.range st.children).map st.fill }

end GetState

/-- `get_configs` for the pools of `pl`, up to the root vdev of each: the
locals that the source declares outside the loop over pools (`tmp`, `max_id`,
the hole array, `valid_top_config`) are carried from one pool to the next.
mirrors lib/libzfs/libzfs_import.c:427-704 -/
def getConfigs (pools : List PoolEntry) : Except GetFail (List PoolConfig) :=
  let start : GetState := ⟨none, 0, 0, [], false, .empty, false, 0, 0, fun _ => none⟩
  let rec go : GetState → List PoolEntry → Except GetFail (List PoolConfig)
    | _, [] => .ok []
    | st, pe :: pes => do
      let st ← pe.vdevs.foldlM GetState.addVdev
        { st with maxTxg := 0, config := .empty, seen := false, slots := 0, children := 0,
                  child := fun _ => none }
      let cfg ← st.finish
      let rest ← go st pes
      pure (cfg :: rest)
  go start pools

/-! ## Runs that stay inside `child[]` -/

/-- A computation that ends with a result satisfying `P`, or aborts: it never
accesses `child[]` past its allocation. -/
def Safe {α : Type} (P : α → Prop) : Except GetFail α → Prop
  | .ok a => P a
  | .error e => e = .abort

namespace Safe

variable {α β : Type} {P : α → Prop} {Q : β → Prop}

theorem bind {x : Except GetFail α} {f : α → Except GetFail β} (hx : Safe P x)
    (hf : ∀ a, P a → Safe Q (f a)) : Safe Q (x >>= f) := by
  cases x with
  | error e => exact hx
  | ok a => exact hf a hx


end Safe

/-- A label whose numbers that size `child[]` are below `2^61`, so that
`(id + 1) * sizeof (nvlist_t *)` and `VDEV_CHILDREN * sizeof (nvlist_t *)` do
not wrap. -/
def LabelConfig.Fits (c : LabelConfig) : Prop :=
  (∀ t ∈ c.vdevTree, ∀ id ∈ t.id, id + 1 < 2 ^ 61) ∧ ∀ v ∈ c.vdevChildren, v < 2 ^ 61

namespace GetState

/-- What the states of a run on fitting labels keep: `children` within the
allocation, `tmp` a fitting config, and `max_id` below `2^61`. -/
structure Good (st : GetState) : Prop where
  children_le : st.children ≤ st.slots
  tmp_fits : ∀ c ∈ st.tmp, c.Fits
  maxId_lt : st.maxId < 2 ^ 61

variable {st : GetState}

/-- The best config is one of the vdev's configs, or `tmp`. -/
theorem best_fits {configs : List ConfigEntry} (hc : ∀ ce ∈ configs, ce.config.Fits)
    (ht : ∀ c ∈ st.tmp, c.Fits) : ∀ c ∈ (st.best configs).2, c.Fits := by
  unfold best
  suffices h : ∀ (l : List ConfigEntry) (acc : ℕ × Option LabelConfig),
      (∀ ce ∈ l, ce.config.Fits) → (∀ c ∈ acc.2, c.Fits) →
        ∀ c ∈ (l.foldl (fun acc ce => if ce.txg > acc.1 then (ce.txg, some ce.config) else acc)
          acc).2, c.Fits from h configs _ hc ht
  intro l
  induction l with
  | nil => exact fun _ _ ht => ht
  | cons ce l ih =>
    intro acc hc ht
    rw [List.foldl_cons]
    apply ih _ fun ce' h => hc ce' (List.mem_cons_of_mem _ h)
    split
    · intro c hcm
      simp only [Option.mem_def, Option.some.injEq] at hcm
      subst hcm
      exact hc ce List.mem_cons_self
    · exact ht

theorem setChildren_good (hg : st.Good) : st.setChildren.Good := by
  unfold setChildren
  split
  · rename_i v hv
    obtain ⟨c, hc, hcv⟩ := Option.bind_eq_some_iff.mp hv
    exact ⟨hg.children_le, hg.tmp_fits, (hg.tmp_fits c hc).2 v hcv⟩
  · exact hg

theorem setHoles_good (hg : st.Good) : st.setHoles.Good := by
  unfold setHoles
  split
  · exact ⟨hg.children_le, hg.tmp_fits, hg.maxId_lt⟩
  · exact hg

theorem newMax_good (hg : st.Good) (b : ℕ) : (st.newMax b).Good := by
  unfold newMax
  split
  · exact setHoles_good (setChildren_good ⟨hg.children_le, hg.tmp_fits, Nat.two_pow_pos 61⟩)
  · exact hg

theorem copyPool_safe (hg : st.Good) : Safe Good st.copyPool := by
  unfold copyPool
  split
  · exact hg
  · split
    · rfl
    · split
      · split
        · exact ⟨hg.children_le, hg.tmp_fits, hg.maxId_lt⟩
        · split
          · exact ⟨hg.children_le, hg.tmp_fits, hg.maxId_lt⟩
          · rfl
      · rfl

/-- A top-level id whose `id + 1` is below `2^61` is stored inside the
array: regrown when it is past `children`, to `id + 1` pointers. -/
theorem putChild_safe (hg : st.Good) {id : ℕ} (hid : id + 1 < 2 ^ 61) (t : VdevTree) :
    Safe Good (st.putChild id t) := by
  have hp : ptrSize = 8 := rfl
  unfold putChild
  split
  · rename_i hle
    have hslots : (id + 1) * ptrSize % 2 ^ 64 / ptrSize = id + 1 := by
      rw [hp]
      omega
    have hcount : (id + 1) % 2 ^ 32 ≤ id + 1 := Nat.mod_le _ _
    unfold grow
    rw [if_neg (by have := hg.children_le; omega), if_neg (by omega), hslots]
    show Safe Good (write id (.tree t) _)
    unfold write
    rw [if_pos (by dsimp only; omega)]
    exact ⟨by dsimp only; omega, hg.tmp_fits, hg.maxId_lt⟩
  · rename_i hlt
    show Safe Good (write id (.tree t) st)
    unfold write
    rw [if_pos (by have := hg.children_le; omega)]
    exact ⟨hg.children_le, hg.tmp_fits, hg.maxId_lt⟩

theorem addVdev_safe (hg : st.Good) {ve : VdevEntry} (hc : ∀ ce ∈ ve.configs, ce.config.Fits) :
    Safe Good (st.addVdev ve) := by
  unfold addVdev
  have hg0 : ({ st with tmp := (st.best ve.configs).2 } : GetState).Good :=
    ⟨hg.children_le, best_fits hc hg.tmp_fits, hg.maxId_lt⟩
  have hg' := newMax_good hg0 (st.best ve.configs).1
  apply Safe.bind (copyPool_safe hg')
  intro st' hst'
  split
  · rfl
  · rename_i nvtop hnv
    split
    · rfl
    · rename_i id hid
      obtain ⟨c, hcm, hct⟩ := Option.bind_eq_some_iff.mp hnv
      exact putChild_safe hst' ((hst'.tmp_fits c hcm).1 nvtop hct id hid) nvtop

theorem touch_safe {n : ℕ} (hn : n ≤ st.slots) : Safe (fun _ => True) (touch n st) := by
  unfold touch
  rw [if_pos hn]
  trivial

/-- The cut or the extension keeps `children` within the allocation: an
extension to `max_id < 2^61` allocates `max_id` pointers. -/
theorem fitChildren_safe (hg : st.Good) : Safe Good st.fitChildren := by
  have hp : ptrSize = 8 := rfl
  have hle := hg.children_le
  unfold fitChildren
  split
  · split
    · exact Safe.bind (touch_safe hle) fun _ _ => ⟨by dsimp only; omega, hg.tmp_fits, hg.maxId_lt⟩
    · split
      · have hm := hg.maxId_lt
        unfold grow
        rw [if_neg (by omega), if_neg (by rw [hp]; omega)]
        exact ⟨by dsimp only; rw [hp]; omega, hg.tmp_fits, hg.maxId_lt⟩
      · exact hg
  · exact hg

theorem finish_safe (hg : st.Good) : Safe (fun _ => True) st.finish := by
  unfold finish
  apply Safe.bind (fitChildren_safe hg)
  intro st' hst'
  split
  · rfl
  · exact Safe.bind (touch_safe hst'.children_le) fun _ _ => trivial

/-- A pool's vdevs, one round each, keep to `Good`. -/
theorem foldlM_addVdev_safe :
    ∀ (vdevs : List VdevEntry) (st : GetState), st.Good →
      (∀ ve ∈ vdevs, ∀ ce ∈ ve.configs, ce.config.Fits) → Safe Good (vdevs.foldlM addVdev st)
  | [], _, hg, _ => hg
  | ve :: vs, st, hg, hf => by
    rw [List.foldlM_cons]
    exact Safe.bind (addVdev_safe hg (hf ve List.mem_cons_self)) fun st' hst' =>
      foldlM_addVdev_safe vs st' hst' fun ve' h => hf ve' (List.mem_cons_of_mem _ h)

end GetState

/-- Labels whose top-level ids and `VDEV_CHILDREN` are below `2^61` never take
`get_configs` outside `child[]`: it aborts or builds every pool's config. -/
theorem getConfigs_safe {pools : List PoolEntry}
    (hfits : ∀ pe ∈ pools, ∀ ve ∈ pe.vdevs, ∀ ce ∈ ve.configs, ce.config.Fits) :
    Safe (fun _ => True) (getConfigs pools) := by
  unfold getConfigs
  -- the locals carried from pool to pool: `tmp` and `max_id`
  suffices h : ∀ (pools : List PoolEntry) (st : GetState), (∀ c ∈ st.tmp, c.Fits) →
      st.maxId < 2 ^ 61 → (∀ pe ∈ pools, ∀ ve ∈ pe.vdevs, ∀ ce ∈ ve.configs, ce.config.Fits) →
        Safe (fun _ => True) (getConfigs.go st pools) from
    h pools _ (fun _ h => by cases h) (Nat.two_pow_pos 61) hfits
  intro pools
  induction pools with
  | nil => exact fun _ _ _ _ => trivial
  | cons pe pes ih =>
    intro st ht hm hf
    rw [getConfigs.go]
    refine Safe.bind (GetState.foldlM_addVdev_safe pe.vdevs _ ⟨le_rfl, ht, hm⟩ (hf pe List.mem_cons_self))
      fun st' hst' => ?_
    exact Safe.bind (GetState.finish_safe hst') fun _ _ =>
      Safe.bind (ih st' hst'.tmp_fits hst'.maxId_lt fun pe' h => hf pe' (List.mem_cons_of_mem _ h))
        fun _ _ => trivial

/-- A device whose label, of an active pool at txg 5, gives its top-level
vdev the id `2^61`. -/
def wrapLabel : LabelConfig :=
  ⟨some 0, some 5, some 7, some 8, some 9, some 5000, some "tank", none, none, none, none,
    some ⟨some (2 ^ 61), 0⟩⟩

/-- `zpool_read_label` and `add_config` take the label, and `get_configs`
regrows `child[]` to `(2^61 + 1) * 8` bytes, which wrap to one pointer, then
stores `child[2^61]`. -/
theorem get_configs_child_oob :
    labelAccepted wrapLabel = true ∧
      getConfigs (addConfig ⟨[], []⟩ "/dev/disk1" 0 wrapLabel).pools = .error (.oob (2 ^ 61) 1) :=
  ⟨rfl, rfl⟩

/-- The same label with top-level id 0 and no `ZPOOL_CONFIG_VERSION`:
`add_config` files it, and the `fnvlist_lookup_uint64` of the version in
`get_configs` aborts. -/
theorem get_configs_version_abort :
    labelAccepted { wrapLabel with version := none, vdevTree := some ⟨some 0, 0⟩ } = true ∧
      getConfigs (addConfig ⟨[], []⟩ "/dev/disk1" 0
        { wrapLabel with version := none, vdevTree := some ⟨some 0, 0⟩ }).pools = .error .abort :=
  ⟨rfl, rfl⟩

end ZfsOsx.Import
