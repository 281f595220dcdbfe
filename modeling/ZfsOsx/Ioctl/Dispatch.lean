import ZfsOsx.Ioctl.Namecheck
/-!
# The ioctl dispatcher (`zfsdev_ioctl`, zfs_ioctl.c:5107-5159)

Every request from userland passes through `zfsdev_ioctl`: the command
number selects an entry of `zfs_ioc_vec`, the entry's security policy is
evaluated, the name in `zc_name` is NUL-terminated and checked as the entry
asks, and only then does the entry's handler run; the handler's error is
returned in `zc_ioc_error`.

The handlers and policies are arbitrary functions of the request, the
system state `σ` and, for the policies, a credential of type `κ`; the rest
of `zfs_cmd_t`, which only they read, is the type `ρ`. The credential the
dispatcher passes is its local `cr`, which it never assigns: the model takes
that value as an argument. The process `p` is never read, and neither is an
entry's `zvec_pool_check` column: `pool_status_check` (zfs_ioctl.c:4946-4967),
which would enforce it, is defined and has no caller.

Results:
* `zfsdevIoctl_called`: a handler runs only for the entry the command
  selects, after its policy returned 0 and the terminated name passed the
  entry's name check.
* `zfsdevIoctl_refused`: a request whose handler does not run leaves the
  state as it was and reports a nonzero error, through the return value when
  the command is outside the table and through `zc_ioc_error` otherwise.
* `zfsdevIoctl_reported`: for a command inside the table the ioctl returns 0
  and the error the handler returned is in `zc_ioc_error`.
-/
namespace ZfsOsx.Ioctl

/-- `EINVAL`. -/
def einval : Int := 22

/-- `EAGAIN` (35 on this platform). -/
def eagain : Int := 35

/-- `EROFS`. -/
def erofs : Int := 30

/-- `zfs_ioc_namecheck_t` (zfs_ioctl.c:96-100). -/
inductive IocNamecheck
  | noName
  | poolName
  | datasetName
  deriving DecidableEq, Repr

/-- `POOL_CHECK_NONE` (zfs_ioctl.c:103). -/
def poolCheckNone : Nat := 1 <<< 0

/-- `POOL_CHECK_SUSPENDED` (zfs_ioctl.c:104). -/
def poolCheckSuspended : Nat := 1 <<< 1

/-- `POOL_CHECK_READONLY` (zfs_ioctl.c:105). -/
def poolCheckReadonly : Nat := 1 <<< 2

/-- `zfs_cmd_t` (zfs_ioctl.h:264-300): the name buffer `zc_name`, the error
`zc_ioc_error` and the device `zc_dev` that the dispatcher writes, and the
other fields as `zcRest`. -/
structure ZfsCmd (ρ : Type) where
  zcName : List Char
  zcIocError : Int
  zcDev : Nat
  zcRest : ρ

/-- `zfs_ioc_vec_t` (zfs_ioctl.c:109-115). -/
structure IocVec (ρ σ κ : Type) where
  zvecFunc : ZfsCmd ρ → σ → Int × ZfsCmd ρ × σ
  zvecSecpolicy : ZfsCmd ρ → κ → σ → Int
  zvecNamecheck : IocNamecheck
  zvecHisLog : Bool
  zvecPoolCheck : Nat

/-- The name, his-log and pool-check columns of `zfs_ioc_vec`
(zfs_ioctl.c:4808-4943), in table order. -/
def zfsIocColumns : List (IocNamecheck × Bool × Nat) := [
  (.poolName, false, poolCheckNone),  -- zfs_ioc_pool_create
  (.poolName, false, poolCheckNone),  -- zfs_ioc_pool_destroy
  (.poolName, true, poolCheckNone),  -- zfs_ioc_pool_import
  (.poolName, false, poolCheckNone),  -- zfs_ioc_pool_export
  (.noName, false, poolCheckNone),  -- zfs_ioc_pool_configs
  (.poolName, false, poolCheckNone),  -- zfs_ioc_pool_stats
  (.noName, false, poolCheckNone),  -- zfs_ioc_pool_tryimport
  (.poolName, true, poolCheckSuspended ||| poolCheckReadonly),  -- zfs_ioc_pool_scan
  (.noName, false, poolCheckReadonly),  -- zfs_ioc_pool_freeze
  (.poolName, true, poolCheckSuspended ||| poolCheckReadonly),  -- zfs_ioc_pool_upgrade
  (.poolName, false, poolCheckNone),  -- zfs_ioc_pool_get_history
  (.poolName, true, poolCheckSuspended ||| poolCheckReadonly),  -- zfs_ioc_vdev_add
  (.poolName, true, poolCheckSuspended ||| poolCheckReadonly),  -- zfs_ioc_vdev_remove
  (.poolName, true, poolCheckSuspended ||| poolCheckReadonly),  -- zfs_ioc_vdev_set_state
  (.poolName, true, poolCheckSuspended ||| poolCheckReadonly),  -- zfs_ioc_vdev_attach
  (.poolName, true, poolCheckSuspended ||| poolCheckReadonly),  -- zfs_ioc_vdev_detach
  (.poolName, false, poolCheckSuspended ||| poolCheckReadonly),  -- zfs_ioc_vdev_setpath
  (.poolName, false, poolCheckSuspended ||| poolCheckReadonly),  -- zfs_ioc_vdev_setfru
  (.datasetName, false, poolCheckSuspended),  -- zfs_ioc_objset_stats
  (.datasetName, false, poolCheckNone),  -- zfs_ioc_objset_zplprops
  (.datasetName, false, poolCheckSuspended),  -- zfs_ioc_dataset_list_next
  (.datasetName, false, poolCheckSuspended),  -- zfs_ioc_snapshot_list_next
  (.datasetName, true, poolCheckSuspended ||| poolCheckReadonly),  -- zfs_ioc_set_prop
  (.datasetName, false, poolCheckNone),  -- zfs_ioc_create_minor
  (.datasetName, false, poolCheckNone),  -- zfs_ioc_remove_minor
  (.datasetName, true, poolCheckSuspended ||| poolCheckReadonly),  -- zfs_ioc_create
  (.datasetName, true, poolCheckSuspended ||| poolCheckReadonly),  -- zfs_ioc_destroy
  (.datasetName, true, poolCheckSuspended ||| poolCheckReadonly),  -- zfs_ioc_rollback
  (.datasetName, true, poolCheckSuspended ||| poolCheckReadonly),  -- zfs_ioc_rename
  (.datasetName, true, poolCheckSuspended ||| poolCheckReadonly),  -- zfs_ioc_recv
  (.datasetName, false, poolCheckNone),  -- zfs_ioc_send
  (.noName, false, poolCheckNone),  -- zfs_ioc_inject_fault
  (.noName, false, poolCheckNone),  -- zfs_ioc_clear_fault
  (.noName, false, poolCheckNone),  -- zfs_ioc_inject_list_next
  (.poolName, false, poolCheckNone),  -- zfs_ioc_error_log
  (.poolName, true, poolCheckNone),  -- zfs_ioc_clear
  (.datasetName, true, poolCheckSuspended ||| poolCheckReadonly),  -- zfs_ioc_promote
  (.datasetName, true, poolCheckSuspended ||| poolCheckReadonly),  -- zfs_ioc_destroy_snaps_nvl
  (.datasetName, true, poolCheckSuspended ||| poolCheckReadonly),  -- zfs_ioc_snapshot
  (.poolName, false, poolCheckNone),  -- zfs_ioc_dsobj_to_dsname
  (.datasetName, false, poolCheckSuspended),  -- zfs_ioc_obj_to_path
  (.poolName, true, poolCheckSuspended ||| poolCheckReadonly),  -- zfs_ioc_pool_set_props
  (.poolName, false, poolCheckNone),  -- zfs_ioc_pool_get_props
  (.datasetName, true, poolCheckSuspended ||| poolCheckReadonly),  -- zfs_ioc_set_fsacl
  (.datasetName, false, poolCheckNone),  -- zfs_ioc_get_fsacl
  (.datasetName, false, poolCheckNone),  -- zfs_ioc_share
  (.datasetName, true, poolCheckSuspended ||| poolCheckReadonly),  -- zfs_ioc_inherit_prop
  (.datasetName, false, poolCheckNone),  -- zfs_ioc_smb_acl
  (.datasetName, false, poolCheckNone),  -- zfs_ioc_userspace_one
  (.datasetName, false, poolCheckNone),  -- zfs_ioc_userspace_many
  (.datasetName, false, poolCheckSuspended ||| poolCheckReadonly),  -- zfs_ioc_userspace_upgrade
  (.datasetName, true, poolCheckSuspended ||| poolCheckReadonly),  -- zfs_ioc_hold
  (.datasetName, true, poolCheckSuspended ||| poolCheckReadonly),  -- zfs_ioc_release
  (.datasetName, false, poolCheckSuspended),  -- zfs_ioc_get_holds
  (.datasetName, false, poolCheckNone),  -- zfs_ioc_objset_recvd_props
  (.poolName, true, poolCheckSuspended ||| poolCheckReadonly),  -- zfs_ioc_vdev_split
  (.datasetName, false, poolCheckNone),  -- zfs_ioc_next_obj
  (.datasetName, false, poolCheckNone),  -- zfs_ioc_diff
  (.datasetName, false, poolCheckSuspended ||| poolCheckReadonly),  -- zfs_ioc_tmp_snapshot
  (.datasetName, false, poolCheckSuspended),  -- zfs_ioc_obj_to_stats
  (.noName, false, poolCheckNone),  -- zfs_ioc_events_next
  (.noName, false, poolCheckNone),  -- zfs_ioc_events_clear
  (.poolName, true, poolCheckSuspended ||| poolCheckReadonly),  -- zfs_ioc_pool_reguid
  (.datasetName, false, poolCheckSuspended),  -- zfs_ioc_space_written
  (.datasetName, false, poolCheckSuspended),  -- zfs_ioc_space_snaps
  (.poolName, true, poolCheckSuspended),  -- zfs_ioc_pool_reopen
  (.datasetName, false, poolCheckNone)]  -- zfs_ioc_send_progress

/-- `zfs_ioc_vec`: entry `i` has the `i`-th handler and policy and the
`i`-th row of `zfsIocColumns`. -/
def zfsIocVec {ρ σ κ : Type} (func : Nat → ZfsCmd ρ → σ → Int × ZfsCmd ρ × σ)
    (secpolicy : Nat → ZfsCmd ρ → κ → σ → Int) : List (IocVec ρ σ κ) :=
  zfsIocColumns.mapIdx fun i c => ⟨func i, secpolicy i, c.1, c.2.1, c.2.2⟩

/-- What `spa_open` finds of a pool: `spa_suspended` and `spa_writeable`. -/
structure SpaStatus where
  suspended : Bool
  writeable : Bool

/-- `pool_status_check` (zfs_ioctl.c:4946-4967), with `spa_open` of the
current state as `spaOpen`. The name type is only `ASSERT`ed. -/
def poolStatusCheck (spaOpen : List Char → Except Int SpaStatus) (name : List Char)
    (check : Nat) : Int :=
  if check &&& poolCheckNone ≠ 0 then 0
  else match spaOpen name with
    | .error e => e
    | .ok spa =>
      if check &&& poolCheckSuspended ≠ 0 ∧ spa.suspended then eagain
      else if check &&& poolCheckReadonly ≠ 0 ∧ !spa.writeable then erofs
      else 0

/-- The name check an entry asks for, `EINVAL` when it fails
(zfs_ioctl.c:5127-5140). -/
def iocNamecheck : IocNamecheck → List Char → Int
  | .poolName, name => if poolNamecheck name = .ok () then 0 else einval
  | .datasetName, name => if datasetNamecheck name = .ok () then 0 else einval
  | .noName, _ => 0

/-- `vec = cmd - ZFS_IOC`: an `u_long` difference stored in an `uint_t`. -/
def vecOfCmd (zfsIoc cmd : UInt64) : Nat := (cmd - zfsIoc).toUInt32.toNat

/-- The name buffer with `zc_name[sizeof (zc_name) - 1] = '\0'`. -/
def terminateName (buf : List Char) : List Char := buf.set (buf.length - 1) '\x00'

/-- What the dispatcher leaves behind: its return value, the request as it
is copied out, the state, and the entry whose handler ran, if any. -/
structure IoctlResult (ρ σ : Type) where
  ret : Int
  zc : ZfsCmd ρ
  st : σ
  called : Option Nat

section

variable {ρ σ κ : Type}

/-- The checks before the handler (zfs_ioctl.c:5120-5141): the entry's
policy on the request and `cr`; if it passed, the name is terminated and
checked. -/
def ioctlCheck (v : IocVec ρ σ κ) (zc : ZfsCmd ρ) (cr : κ) (st : σ) : Int × ZfsCmd ρ :=
  let error := v.zvecSecpolicy zc cr st
  if error = 0 then
    let zc := { zc with zcName := terminateName zc.zcName }
    (iocNamecheck v.zvecNamecheck (cstr zc.zcName), zc)
  else (error, zc)

/-- The handler of entry `vec` and the history log (zfs_ioctl.c:5143-5157),
once the checks gave `error`; the error goes to `zc_ioc_error`. -/
def ioctlRun (v : IocVec ρ σ κ) (logHistory : ZfsCmd ρ → σ → σ) (vec : Nat) (error : Int)
    (zc : ZfsCmd ρ) (st : σ) : IoctlResult ρ σ :=
  if error = 0 then
    let r := v.zvecFunc zc st
    let st := if r.1 = 0 ∧ v.zvecHisLog = true then logHistory r.2.1 r.2.2 else r.2.2
    ⟨0, { r.2.1 with zcIocError := r.1 }, st, some vec⟩
  else ⟨0, { zc with zcIocError := error }, st, none⟩

/-- `zfsdev_ioctl` (zfs_ioctl.c:5107-5159) on the table `vecs`, with
`zfs_log_history` as `logHistory` and `ZFS_IOC` as `zfsIoc`. `cr` is the
value of the uninitialized local the policies receive. -/
def zfsdevIoctl (vecs : List (IocVec ρ σ κ)) (logHistory : ZfsCmd ρ → σ → σ) (zfsIoc : UInt64)
    (dev : Nat) (cmd : UInt64) (zc : ZfsCmd ρ) (cr : κ) (st : σ) : IoctlResult ρ σ :=
  match vecs[vecOfCmd zfsIoc cmd]? with
  | none => ⟨einval, zc, st, none⟩
  | some v =>
    let zc := { zc with zcDev := dev }
    let c := ioctlCheck v zc cr st
    ioctlRun v logHistory (vecOfCmd zfsIoc cmd) c.1 c.2 st

variable (vecs : List (IocVec ρ σ κ)) (logHistory : ZfsCmd ρ → σ → σ) (zfsIoc : UInt64)

theorem zfsdevIoctl_of_none {dev : Nat} {cmd : UInt64} (zc : ZfsCmd ρ) (cr : κ) (st : σ)
    (h : vecs[vecOfCmd zfsIoc cmd]? = none) :
    zfsdevIoctl vecs logHistory zfsIoc dev cmd zc cr st = ⟨einval, zc, st, none⟩ := by
  simp [zfsdevIoctl, h]

theorem zfsdevIoctl_of_some {dev : Nat} {cmd : UInt64} {v : IocVec ρ σ κ} (zc : ZfsCmd ρ)
    (cr : κ) (st : σ) (h : vecs[vecOfCmd zfsIoc cmd]? = some v) :
    zfsdevIoctl vecs logHistory zfsIoc dev cmd zc cr st =
      ioctlRun v logHistory (vecOfCmd zfsIoc cmd) (ioctlCheck v { zc with zcDev := dev } cr st).1
        (ioctlCheck v { zc with zcDev := dev } cr st).2 st := by
  simp [zfsdevIoctl, h]

/-- The checks pass exactly when the policy returns 0 on the request and the
terminated name passes the entry's name check. -/
theorem ioctlCheck_eq_zero {v : IocVec ρ σ κ} {zc : ZfsCmd ρ} {cr : κ} {st : σ} :
    (ioctlCheck v zc cr st).1 = 0 ↔
      v.zvecSecpolicy zc cr st = 0 ∧ iocNamecheck v.zvecNamecheck (cstr (terminateName zc.zcName)) = 0 := by
  unfold ioctlCheck
  by_cases hp : v.zvecSecpolicy zc cr st = 0 <;> simp [hp]

theorem ioctlRun_called {v : IocVec ρ σ κ} {vec : Nat} {error : Int} {zc : ZfsCmd ρ} {st : σ} :
    (ioctlRun v logHistory vec error zc st).called = if error = 0 then some vec else none := by
  unfold ioctlRun
  split <;> rfl

/-- A handler runs only for the entry the command selects, once that entry's
policy returned 0 on the request (with `zc_dev` set) and the credential
passed, and the terminated name passed the entry's name check. -/
theorem zfsdevIoctl_called {dev : Nat} {cmd : UInt64} {zc : ZfsCmd ρ} {cr : κ} {st : σ} {i : Nat}
    (h : (zfsdevIoctl vecs logHistory zfsIoc dev cmd zc cr st).called = some i) :
    i = vecOfCmd zfsIoc cmd ∧ ∃ v, vecs[i]? = some v ∧
      v.zvecSecpolicy { zc with zcDev := dev } cr st = 0 ∧
      iocNamecheck v.zvecNamecheck (cstr (terminateName zc.zcName)) = 0 := by
  cases hv : vecs[vecOfCmd zfsIoc cmd]? with
  | none => simp [zfsdevIoctl_of_none vecs logHistory zfsIoc zc cr st hv] at h
  | some v =>
    rw [zfsdevIoctl_of_some vecs logHistory zfsIoc zc cr st hv, ioctlRun_called] at h
    -- the handler ran, so the checks returned 0
    split_ifs at h with hc
    cases h
    exact ⟨rfl, v, hv, ioctlCheck_eq_zero.1 hc⟩

/-- A request whose handler does not run leaves the state as it was and
reports a nonzero error: outside the table through the return value, with
the request untouched, and inside it through `zc_ioc_error`. -/
theorem zfsdevIoctl_refused {dev : Nat} {cmd : UInt64} {zc : ZfsCmd ρ} {cr : κ} {st : σ}
    (h : (zfsdevIoctl vecs logHistory zfsIoc dev cmd zc cr st).called = none) :
    (zfsdevIoctl vecs logHistory zfsIoc dev cmd zc cr st).st = st ∧
      ((vecs.length ≤ vecOfCmd zfsIoc cmd ∧
          zfsdevIoctl vecs logHistory zfsIoc dev cmd zc cr st = ⟨einval, zc, st, none⟩) ∨
        (vecOfCmd zfsIoc cmd < vecs.length ∧
          (zfsdevIoctl vecs logHistory zfsIoc dev cmd zc cr st).ret = 0 ∧
          (zfsdevIoctl vecs logHistory zfsIoc dev cmd zc cr st).zc.zcIocError ≠ 0)) := by
  cases hv : vecs[vecOfCmd zfsIoc cmd]? with
  | none =>
    rw [zfsdevIoctl_of_none vecs logHistory zfsIoc zc cr st hv]
    exact ⟨rfl, Or.inl ⟨List.getElem?_eq_none_iff.1 hv, rfl⟩⟩
  | some v =>
    have hlt : vecOfCmd zfsIoc cmd < vecs.length := (List.getElem?_eq_some_iff.1 hv).1
    rw [zfsdevIoctl_of_some vecs logHistory zfsIoc zc cr st hv] at h ⊢
    rw [ioctlRun_called] at h
    -- the checks failed, so `ioctlRun` only stores their error
    split_ifs at h with hc
    simp [ioctlRun, hc, hlt]

/-- For a command inside the table the ioctl returns 0, and `zc_ioc_error`
holds the error of the checks, or the handler's when they passed. -/
theorem zfsdevIoctl_reported {dev : Nat} {cmd : UInt64} {v : IocVec ρ σ κ} {zc : ZfsCmd ρ}
    {cr : κ} {st : σ} (hv : vecs[vecOfCmd zfsIoc cmd]? = some v) :
    (zfsdevIoctl vecs logHistory zfsIoc dev cmd zc cr st).ret = 0 ∧
      (zfsdevIoctl vecs logHistory zfsIoc dev cmd zc cr st).zc.zcIocError =
        if (ioctlCheck v { zc with zcDev := dev } cr st).1 = 0 then
          (v.zvecFunc (ioctlCheck v { zc with zcDev := dev } cr st).2 st).1
        else (ioctlCheck v { zc with zcDev := dev } cr st).1 := by
  rw [zfsdevIoctl_of_some vecs logHistory zfsIoc zc cr st hv]
  unfold ioctlRun
  split_ifs <;> simp

end

theorem vecOfCmd_add (zfsIoc : UInt64) (n : Nat) (hn : n < 2 ^ 32) :
    vecOfCmd zfsIoc (zfsIoc + UInt64.ofNat n) = n := by
  simp only [vecOfCmd, add_sub_cancel_left, UInt64.toNat_toUInt32, UInt64.toNat_ofNat']
  omega

set_option maxRecDepth 8000 in
/-- `ZFS_IOC_POOL_SCAN` (entry 7) from a caller its policy admits, naming
the pool `tank` while it is suspended. The entry asks for
`POOL_CHECK_SUSPENDED | POOL_CHECK_READONLY`, so `pool_status_check` would
refuse the request with `EAGAIN`; `zfsdev_ioctl` runs the handler all the
same. -/
theorem zfsdev_ioctl_skips_pool_check (zfsIoc : UInt64) :
    let vecs : List (IocVec Unit Unit Unit) :=
      zfsIocVec (fun _ zc st => (0, zc, st)) (fun _ _ _ _ => 0)
    let zc : ZfsCmd Unit := ⟨"tank".toList ++ List.replicate 1020 '\x00', 0, 0, ()⟩
    vecs[7]?.map IocVec.zvecPoolCheck = some (poolCheckSuspended ||| poolCheckReadonly) ∧
      poolStatusCheck (fun _ => .ok ⟨true, true⟩) (cstr zc.zcName)
        (poolCheckSuspended ||| poolCheckReadonly) = eagain ∧
      (zfsdevIoctl vecs (fun _ st => st) zfsIoc 0 (zfsIoc + UInt64.ofNat 7) zc () ()).called =
        some 7 := by
  intro vecs zc
  refine ⟨by decide, by decide, ?_⟩
  unfold zfsdevIoctl
  rw [vecOfCmd_add zfsIoc 7 (by decide)]
  rfl

end ZfsOsx.Ioctl
