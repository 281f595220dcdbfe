import Mathlib

/-!
# Dataset properties (`module/zfs/dsl_prop.c`)

A directory keeps its properties in a ZAP (`dd_props_zapobj`): a property
`name` can have a value there, an explicit-inheritance marker
`name$inherit`, and a received value `name$recvd`. A snapshot has a ZAP of
its own (`ds_props_obj`) once a property is set on it. `dsl_prop_get_dd`
reads a property from the directory up: a value, else (unless a marker
says to inherit) a received value, else the parent, as long as the property
is inheritable; else the default. `dsl_prop_set_sync` edits the three
entries for each source of a setting, and then tells the registered
callbacks the new value through `dsl_prop_changed_notify`, which walks the
directories below and stops where the property has a value.
`dsl_prop_predict_sync` computes ahead of the setting the value that
`dsl_dir_set_reservation_check` and its kin base their space decisions on.

Only integer properties are modelled; a ZAP entry is a `PropKey` and a
number. A property is a `ZProp`: its name, whether it is inheritable, and
the default `dodefault` gives. Sources are the bit masks of
`zprop_source_t`.

* `dsl_prop_predict_sync_agrees`: for quota, reservation, refquota and
  refreservation, the prediction is the value `dsl_prop_get_dd` reads after
  the setting. This holds from every property ZAP that settings from the
  sources the kernel uses for them make, and for every source
  `dsl_prop_predict_sync` handles. The exception is quota and reservation on
  pools older than `SPA_VERSION_RECVD_PROPS`, which the setting does not
  store. The ZAPs carry no `$inherit` marker for these properties, as
  `zfs_ioc_inherit_prop` refuses to inherit them explicitly. With one, a
  received setting would be predicted as the new value and read as the
  default.
* `dsl_prop_changed_notify_stale_value`: the notification tells a child
  directory's callbacks the parent's new value even where the child's own
  received value is what `dsl_prop_get_ds` reads there.
-/

namespace ZfsOsx.Dsl

/-- The entries a property `name` can have in a property ZAP: its value
`name`, its explicit-inheritance marker `name$inherit`, and its received
value `name$recvd` (dsl_prop.c:39-40). Property names hold no `$`, so the
three kinds never meet. -/
inductive PropKey
  | value (name : String)
  | inherit (name : String)
  | recvd (name : String)
  deriving DecidableEq, Repr

/-- A property ZAP with integer values: `dd_props_zapobj`, or a snapshot's
`ds_props_obj`. -/
abbrev PropZap := List (PropKey × ℕ)

/-- `zap_lookup`; `none` is its `ENOENT`. -/
@[grind] def zapLookup : PropZap → PropKey → Option ℕ
  | [], _ => none
  | (k', v) :: z, k => if k' = k then some v else zapLookup z k

/-- `zap_contains` is 0. -/
def zapContains (z : PropZap) (k : PropKey) : Bool := (zapLookup z k).isSome

/-- `zap_remove`, which leaves a ZAP without the entry as it is. -/
def zapRemove (z : PropZap) (k : PropKey) : PropZap := z.filter fun e => e.1 ≠ k

/-- `zap_update`. -/
def zapUpdate (z : PropZap) (k : PropKey) (v : ℕ) : PropZap := (k, v) :: zapRemove z k

@[simp] theorem zapLookup_nil (k : PropKey) : zapLookup [] k = none := rfl

theorem zapLookup_remove (z : PropZap) (k k' : PropKey) :
    zapLookup (zapRemove z k) k' = if k = k' then none else zapLookup z k' := by
  induction z with
  | nil => simp [zapRemove, zapLookup]
  | cons e z ih =>
    obtain ⟨a, v⟩ := e
    unfold zapRemove at ih ⊢
    by_cases ha : a = k
    · subst ha
      rw [List.filter_cons_of_neg (by simp), ih]
      by_cases h : a = k' <;> simp [zapLookup, h]
    · rw [List.filter_cons_of_pos (by simpa using ha), zapLookup, ih, zapLookup]
      by_cases h : a = k' <;> by_cases h' : k = k' <;> simp_all

@[simp] theorem zapLookup_remove_self (z : PropZap) (k : PropKey) :
    zapLookup (zapRemove z k) k = none := by
  simp [zapLookup_remove]

@[simp] theorem zapLookup_remove_ne (z : PropZap) {k k' : PropKey} (h : k ≠ k') :
    zapLookup (zapRemove z k) k' = zapLookup z k' := by
  simp [zapLookup_remove, h]

@[simp] theorem zapLookup_update_self (z : PropZap) (k : PropKey) (v : ℕ) :
    zapLookup (zapUpdate z k v) k = some v := by
  simp [zapUpdate, zapLookup]

@[simp] theorem zapLookup_update_ne (z : PropZap) {k k' : PropKey} (h : k ≠ k') (v : ℕ) :
    zapLookup (zapUpdate z k v) k' = zapLookup z k' := by
  simp [zapUpdate, zapLookup, h]

/-- What `dsl_prop_get_dd` knows of a property: its name, whether it is
inheritable (`zfs_prop_inheritable`, or a user property), and what
`dodefault` gives, `none` for its `ENOENT`. -/
structure ZProp where
  name : String
  inheritable : Bool
  dflt : Option ℕ
  deriving DecidableEq, Repr

/-! ## Reading a property -/

/-- The loop of `dsl_prop_get_dd` over the property ZAPs of the directory
and its ancestors, nearest first; `atTarget` while at the directory asked
about. A non-inheritable property stops the loop at the parent, and an
`$inherit` marker makes it skip the received value.
mirrors module/zfs/dsl_prop.c:95-149 -/
def getDdLoop (p : ZProp) (snapshot : Bool) : Bool → List PropZap → Option ℕ
  | _, [] => p.dflt
  | atTarget, z :: zs =>
    if (!atTarget || snapshot) && !p.inheritable then p.dflt
    else
      match zapLookup z (.value p.name) with
      | some v => some v
      | none =>
        if zapContains z (.inherit p.name) then getDdLoop p snapshot false zs
        else
          match zapLookup z (.recvd p.name) with
          | some v => some v
          | none => getDdLoop p snapshot false zs

/-- Past the directory asked about, a property that is not inheritable is
its default. -/
theorem getDdLoop_not_inheritable {p : ZProp} (hp : p.inheritable = false) (snapshot : Bool)
    (zs : List PropZap) : getDdLoop p snapshot false zs = p.dflt := by
  cases zs with
  | nil => rfl
  | cons z zs => simp [getDdLoop, hp]

/-- `dsl_prop_get_dd(dd, propname, 8, 1, buf, NULL, snapshot)` over the
property ZAPs of `dd` and its ancestors, nearest first.
mirrors module/zfs/dsl_prop.c:71-158 -/
def dslPropGetDd (p : ZProp) (chain : List PropZap) (snapshot : Bool) : Option ℕ :=
  getDdLoop p snapshot true chain

/-- What `dsl_prop_get_ds` reads of a dataset: whether it is a snapshot, and
its `ds_props_obj`, `none` while it is 0. -/
structure DslDataset where
  isSnapshot : Bool
  propsObj : Option PropZap
  deriving DecidableEq, Repr

/-- `dsl_prop_get_ds`: a snapshot's own ZAP first, then its directory's
chain.
mirrors module/zfs/dsl_prop.c:160-219 -/
def dslPropGetDs (p : ZProp) (ds : DslDataset) (chain : List PropZap) : Option ℕ :=
  match ds.propsObj with
  | some z =>
    match zapLookup z (.value p.name) with
    | some v => some v
    | none =>
      if p.inheritable && zapContains z (.inherit p.name) then dslPropGetDd p chain ds.isSnapshot
      else
        match zapLookup z (.recvd p.name) with
        | some v => some v
        | none => dslPropGetDd p chain ds.isSnapshot
  | none => dslPropGetDd p chain ds.isSnapshot

/-! ## Setting a property -/

/-- `ZPROP_SRC_NONE` (include/sys/fs/zfs.h:187). -/
def zpropSrcNone : ℕ := 0x1
/-- `ZPROP_SRC_LOCAL` (include/sys/fs/zfs.h:190). -/
def zpropSrcLocal : ℕ := 0x8
/-- `ZPROP_SRC_INHERITED` (include/sys/fs/zfs.h:191). -/
def zpropSrcInherited : ℕ := 0x10
/-- `ZPROP_SRC_RECEIVED` (include/sys/fs/zfs.h:192). -/
def zpropSrcReceived : ℕ := 0x20

/-- `SPA_VERSION_RECVD_PROPS` (include/sys/fs/zfs.h:414). -/
def spaVersionRecvdProps : ℕ := 22

/-- On a pool older than `SPA_VERSION_RECVD_PROPS` a source with `NONE` is
`NONE`, and one with `RECEIVED` is `LOCAL`.
mirrors module/zfs/dsl_prop.c:351-356, 582-586 -/
def foldSource (version source : ℕ) : ℕ :=
  if version < spaVersionRecvdProps then
    if source &&& zpropSrcNone ≠ 0 then zpropSrcNone
    else if source &&& zpropSrcReceived ≠ 0 then zpropSrcLocal
    else source
  else source

/-- The property ZAP after `dsl_prop_set_sync` sets property `name` from
`source` to `value`; `hasRecvd` is whether the dataset has `$hasrecvd`.
Quota and reservation are not stored on a pool older than
`SPA_VERSION_RECVD_PROPS`. `none` is the panic of an unexpected source.
mirrors module/zfs/dsl_prop.c:578-663 -/
def propSetZap (version : ℕ) (name : String) (source value : ℕ) (hasRecvd : Bool)
    (z : PropZap) : Option PropZap :=
  if version < spaVersionRecvdProps ∧ (name = "quota" ∨ name = "reservation") then some z
  else
    let source := foldSource version source
    if source = zpropSrcNone then
      some (zapRemove (zapRemove z (.value name)) (.inherit name))
    else if source = zpropSrcLocal then
      some (zapUpdate (zapRemove z (.inherit name)) (.value name) value)
    else if source = zpropSrcInherited then
      let z := zapRemove z (.value name)
      some (if spaVersionRecvdProps ≤ version ∧ hasRecvd then zapUpdate z (.inherit name) 0 else z)
    else if source = zpropSrcReceived then
      some (zapUpdate z (.recvd name) value)
    else if source = zpropSrcNone ||| zpropSrcLocal ||| zpropSrcReceived then
      some (zapRemove (zapRemove (zapRemove z (.value name)) (.inherit name)) (.recvd name))
    else if source = zpropSrcNone ||| zpropSrcReceived then
      some (zapRemove z (.recvd name))
    else none

/-! ## Predicting the space properties -/

/-- The properties `dsl_prop_predict_sync` handles; it returns -1 for any
other.
mirrors module/zfs/dsl_prop.c:336-345 -/
def isSpaceProp (name : String) : Bool :=
  name = "quota" || name = "reservation" || name = "refquota" || name = "refreservation"

/-- A space property: not inheritable, with the default 0
(zfs_prop.c:348-358). -/
def spaceProp (name : String) : ZProp := ⟨name, false, some 0⟩

/-- `psa_effective_value` as `dsl_prop_predict_sync` computes it for a
space property from the directory's property ZAP; `none` is its panic.
mirrors module/zfs/dsl_prop.c:324-399 -/
def dslPropPredictSync (version : ℕ) (name : String) (source value : ℕ) (z : PropZap) :
    Option ℕ :=
  let source := foldSource version source
  if source = zpropSrcNone then some ((zapLookup z (.recvd name)).getD 0)
  else if source = zpropSrcLocal then some value
  else if source = zpropSrcReceived then some ((zapLookup z (.value name)).getD value)
  else if source = zpropSrcNone ||| zpropSrcReceived then some ((zapLookup z (.value name)).getD 0)
  else none

/-- The property ZAPs that `dsl_prop_set_sync` makes from an empty one with
the settings the kernel makes of the space properties: any source but an
explicit inheritance, which `zfs_ioc_inherit_prop` refuses for a property
that is not inheritable (zfs_ioctl.c:2562-2570). Other properties may be
set from any source. -/
inductive SpaceZapReachable : PropZap → Prop
  | empty : SpaceZapReachable []
  | set {z z' : PropZap} {version : ℕ} {name : String} {source value : ℕ} {hasRecvd : Bool} :
      SpaceZapReachable z → (isSpaceProp name = true → source ≠ zpropSrcInherited) →
      propSetZap version name source value hasRecvd z = some z' → SpaceZapReachable z'

/-- Only an explicit inheritance writes an `$inherit` marker. -/
theorem propSetZap_inherit {version : ℕ} {name name' : String} {source value : ℕ}
    {hasRecvd : Bool} {z z' : PropZap} (h : propSetZap version name source value hasRecvd z = some z')
    (hz : zapLookup z (.inherit name') = none)
    (hsrc : name = name' → source ≠ zpropSrcInherited) : zapLookup z' (.inherit name') = none := by
  unfold propSetZap at h
  by_cases hq : version < spaVersionRecvdProps ∧ (name = "quota" ∨ name = "reservation")
  · rw [if_pos hq] at h
    cases h
    exact hz
  rw [if_neg hq] at h
  dsimp only at h
  by_cases hn : name = name'
  · -- the folded source is an explicit inheritance only when the source is one
    subst hn
    have hs : source ≠ 16 := hsrc rfl
    have hfold : foldSource version source ≠ zpropSrcInherited := by
      unfold foldSource
      split_ifs <;> simp [zpropSrcNone, zpropSrcLocal, zpropSrcInherited, hs]
    split_ifs at h
    all_goals first
      | exact absurd ‹foldSource version source = zpropSrcInherited› hfold
      | (cases h; simp [hz])
  · split_ifs at h <;> cases h <;> simp [hz, hn]

/-- A reachable ZAP has no `$inherit` marker for a space property. -/
theorem SpaceZapReachable.no_inherit {z : PropZap} (hz : SpaceZapReachable z) {name : String}
    (hname : isSpaceProp name = true) : zapLookup z (.inherit name) = none := by
  induction hz with
  | empty => rfl
  | set _ hsrc hset ih => exact propSetZap_inherit hset ih fun h => hsrc (h ▸ hname)

/-- `dsl_prop_predict_sync` against `dsl_prop_set_sync` and then
`dsl_prop_get_dd(dd, name, 8, 1, ..., B_FALSE)`, for a space property, from
any reachable property ZAP and any parents, for each source the prediction
handles, except quota and reservation on pools older than
`SPA_VERSION_RECVD_PROPS`: both succeed, and the prediction is the value
read. -/
theorem dsl_prop_predict_sync_agrees {z : PropZap} (hz : SpaceZapReachable z) (version : ℕ)
    (name : String) (source value : ℕ) (hasRecvd : Bool) (parents : List PropZap)
    (hname : isSpaceProp name = true)
    (hsrc : source = zpropSrcNone ∨ source = zpropSrcLocal ∨ source = zpropSrcReceived ∨
      source = zpropSrcNone ||| zpropSrcReceived)
    (hold : ¬(version < spaVersionRecvdProps ∧ (name = "quota" ∨ name = "reservation"))) :
    ∃ z' e, propSetZap version name source value hasRecvd z = some z' ∧
      dslPropPredictSync version name source value z = some e ∧
      dslPropGetDd (spaceProp name) (z' :: parents) false = some e := by
  have hinh := hz.no_inherit hname
  -- the folded source is one of the four
  have hfold : foldSource version source = zpropSrcNone ∨ foldSource version source = zpropSrcLocal ∨
      (spaVersionRecvdProps ≤ version ∧ (source = zpropSrcReceived ∨
        source = zpropSrcNone ||| zpropSrcReceived)) := by
    unfold foldSource
    rcases hsrc with rfl | rfl | rfl | rfl <;> split_ifs with hv <;>
      simp_all [zpropSrcNone, zpropSrcLocal, zpropSrcReceived]
  unfold propSetZap dslPropPredictSync
  rw [if_neg hold]
  rcases hfold with hf | hf | ⟨hv, hs | hs⟩
  · -- reverting: the received value, if any, is read
    simp only [hf, if_true]
    refine ⟨_, _, rfl, rfl, ?_⟩
    cases hr : zapLookup z (.recvd name) with
    | none =>
      simp [dslPropGetDd, getDdLoop, spaceProp, zapContains, hr]
      exact getDdLoop_not_inheritable (p := spaceProp name) rfl false parents
    | some r => simp [dslPropGetDd, getDdLoop, spaceProp, zapContains, hr]
  · simp only [hf, if_true, show zpropSrcLocal ≠ zpropSrcNone by decide, if_false]
    exact ⟨_, _, rfl, rfl, by simp [dslPropGetDd, getDdLoop, spaceProp]⟩
  · -- receiving: a value set here stays the one read
    have hf : foldSource version source = zpropSrcReceived := by
      simp [foldSource, not_lt.2 hv, hs]
    simp only [hf, show zpropSrcReceived ≠ zpropSrcNone by decide,
      show zpropSrcReceived ≠ zpropSrcLocal by decide,
      show zpropSrcReceived ≠ zpropSrcInherited by decide, if_false, if_true]
    refine ⟨_, _, rfl, rfl, ?_⟩
    cases hl : zapLookup z (.value name) <;>
      simp [dslPropGetDd, getDdLoop, spaceProp, zapContains, hl, hinh]
  · -- clearing the received value: a value set here stays the one read
    have hf : foldSource version source = zpropSrcNone ||| zpropSrcReceived := by
      simp [foldSource, not_lt.2 hv, hs]
    simp only [hf, show zpropSrcNone ||| zpropSrcReceived ≠ zpropSrcNone by decide,
      show zpropSrcNone ||| zpropSrcReceived ≠ zpropSrcLocal by decide,
      show zpropSrcNone ||| zpropSrcReceived ≠ zpropSrcInherited by decide,
      show zpropSrcNone ||| zpropSrcReceived ≠ zpropSrcReceived by decide,
      show zpropSrcNone ||| zpropSrcReceived ≠ zpropSrcNone ||| zpropSrcLocal ||| zpropSrcReceived by
        decide, if_false, if_true]
    refine ⟨_, _, rfl, rfl, ?_⟩
    cases hl : zapLookup z (.value name) with
    | none =>
      simp [dslPropGetDd, getDdLoop, spaceProp, zapContains, hl, hinh]
      exact getDdLoop_not_inheritable (p := spaceProp name) rfl false parents
    | some l => simp [dslPropGetDd, getDdLoop, spaceProp, hl]

theorem dsl_prop_predict_sync_agrees_revert :
    SpaceZapReachable [(.recvd "refquota", 7)] ∧ isSpaceProp "refquota" = true ∧
      (zpropSrcNone = zpropSrcNone ∨ zpropSrcNone = zpropSrcLocal ∨
        zpropSrcNone = zpropSrcReceived ∨ zpropSrcNone = zpropSrcNone ||| zpropSrcReceived) ∧
      ¬(28 < spaVersionRecvdProps ∧ ("refquota" = "quota" ∨ "refquota" = "reservation")) ∧
      ∃ z' e, propSetZap 28 "refquota" zpropSrcNone 0 false [(.recvd "refquota", 7)] = some z' ∧
        dslPropPredictSync 28 "refquota" zpropSrcNone 0 [(.recvd "refquota", 7)] = some e ∧
        dslPropGetDd (spaceProp "refquota") (z' :: []) false = some e := by
  have hset : propSetZap 28 "refquota" zpropSrcReceived 7 false [] = some [(.recvd "refquota", 7)] :=
    rfl
  have hz : SpaceZapReachable [(.recvd "refquota", 7)] := .set .empty (fun _ => by decide) hset
  exact ⟨hz, rfl, .inl rfl, by decide,
    dsl_prop_predict_sync_agrees hz 28 "refquota" zpropSrcNone 0 false [] rfl (.inl rfl) (by decide)⟩

/-- Why the reachable ZAPs matter: after an explicit inheritance, which the
kernel never makes of a space property, a received refquota is predicted as
the new value but read as the default. -/
example :
    (propSetZap 28 "refquota" zpropSrcInherited 0 true []).bind (fun z =>
      (propSetZap 28 "refquota" zpropSrcReceived 5 false z).map fun z' =>
        (dslPropPredictSync 28 "refquota" zpropSrcReceived 5 z,
          dslPropGetDd (spaceProp "refquota") [z'] false)) = some (some 5, some 0) := by
  decide

/-! ## Telling the callbacks -/

/-- `dsl_prop_cb_record_t`: the dataset it watches (its index among its
directory's datasets), the property, and an id standing for `cbr_func`
with `cbr_arg`. -/
structure PropCb where
  ds : ℕ
  propname : String
  id : ℕ
  deriving DecidableEq, Repr

/-- A directory as `dsl_prop_changed_notify` walks it: its property ZAP, its
datasets (the head and its snapshots), the callbacks registered on them
(`dd_prop_cbs`), and its child directories (`dd_child_dir_zapobj`). -/
structure PropDir where
  props : PropZap
  datasets : List DslDataset
  cbs : List PropCb
  children : List PropDir

/-- Whether a callback is told of a change of `name`: it watches the
property, and its dataset is not a snapshot with its own value.
mirrors module/zfs/dsl_prop.c:516-529 -/
def cbTold (name : String) (dss : List DslDataset) (cbr : PropCb) : Bool :=
  cbr.propname == name &&
    !((dss[cbr.ds]?.bind (·.propsObj)).any fun z => zapContains z (.value name))

mutual

/-- `dsl_prop_changed_notify`: the callbacks it calls, in order, each with
the value it is told. Below the first directory it stops where the property
has a value.
mirrors module/zfs/dsl_prop.c:489-548 -/
def changedNotify (name : String) (value : ℕ) (first : Bool) : PropDir → List (ℕ × ℕ)
  | ⟨props, dss, cbs, children⟩ =>
    if !first && zapContains props (.value name) then []
    else (cbs.filter (cbTold name dss)).map (fun cbr => (cbr.id, value)) ++
      notifyChildren name value children

/-- The walk of `dd_child_dir_zapobj`. -/
def notifyChildren (name : String) (value : ℕ) : List PropDir → List (ℕ × ℕ)
  | [] => []
  | d :: ds => changedNotify name value false d ++ notifyChildren name value ds

end

/-- `dsl_prop_set_sync` on the head dataset of directory `d`, whose
ancestors' property ZAPs are `parents`, nearest first: the directory after
the setting, and the callbacks told with their values. An integer property
is read back with `dsl_prop_get_ds` and the change told from `d` down.
mirrors module/zfs/dsl_prop.c:550-685 -/
def dslPropSetSync (version : ℕ) (p : ZProp) (source value : ℕ) (hasRecvd : Bool) (d : PropDir)
    (parents : List PropZap) : Option (PropDir × List (ℕ × ℕ)) := do
  let z ← propSetZap version p.name source value hasRecvd d.props
  let d' := { d with props := z }
  match p.dflt with
  | none => pure (d', [])
  | some _ =>
    let intval ← dslPropGetDs p ⟨false, none⟩ (z :: parents)
    pure (d', changedNotify p.name intval true d')

/-- The notification tells a child's callback the parent's new value though
the child reads its own received value. A child directory received
`atime=off`; setting `atime=on` on its parent tells the child's callback 1,
while `dsl_prop_get_ds` of the child's head dataset still reads 0. -/
theorem dsl_prop_changed_notify_stale_value :
    let atime : ZProp := ⟨"atime", true, some 1⟩
    let child : PropDir := ⟨[(.recvd "atime", 0)], [⟨false, none⟩], [⟨0, "atime", 7⟩], []⟩
    let parent : PropDir := ⟨[], [⟨false, none⟩], [], [child]⟩
    (dslPropSetSync 28 atime zpropSrcLocal 1 false parent []).map (fun r =>
      (r.2, dslPropGetDs atime ⟨false, none⟩ [child.props, r.1.props])) = some ([(7, 1)], some 0) := by
  decide

end ZfsOsx.Dsl
