import ZfsOsx.Acl.Execute
/-!
# chmod ACLs (`zfs_acl.c`)

`zfs_acl_chmod` rewrites an ACL for a new mode. `acl_trivial_access_masks`
turns the nine permission bits into up to three prefix entries (an `owner@`
allow, an `owner@` deny and a `group@` deny) that give POSIX's class
precedence under first match, and into the masks of the trailing `owner@`,
`group@` and `everyone@` allows. Of the old entries, the user and group
entries and the inherit-only ones stay between the two. `zfs_acl_chmod_setattr`
applies it to a fresh, empty ACL.

The mode bits the masks read are nine, so the facts about the rebuilt ACL
are checked over the 512 values of those bits (`chmodAces_*`), once the
rest has been shown not to matter: the other bits of the mode, the file type
`zfs_mode_compute` starts from, and of the caller only whether it is the
owner.

Results:
* `zfsModeCompute_chmodSetattr`: `zfs_mode_compute` over the new ACL gives
  back the mode's permission bits, with the type and set-id bits of its own
  argument, and sets `ZFS_NO_EXECS_DENIED` exactly when all three execute
  bits are set.
* `aceTrivialCommon_chmodSetattr`: `ace_trivial_common` finds it trivial.
* `zfsZaccessAcesCheck_chmodSetattr`: `zfs_zaccess_aces_check` grants read,
  write or execute to the owner when the owner bit is set, and to every other
  caller when the group bit is set: `zfs_groupmember` is true for every id in
  this build, so the `group@` entries match every caller.
* `zfs_zaccess_chmod_other_class`: for a caller who is neither the owner nor
  in the owning group, mode 040 grants read and mode 004 does not.
-/
namespace ZfsOsx.Acl

open FlagWord

/-! ## Masks and flags -/

/-- `ACE_APPEND_DATA` (sys/acl.h). -/
def aceAppendData : ℕ := 0x4
/-- `ACE_READ_NAMED_ATTRS`. -/
def aceReadNamedAttrs : ℕ := 0x8
/-- `ACE_WRITE_NAMED_ATTRS`. -/
def aceWriteNamedAttrs : ℕ := 0x10
/-- `ACE_DELETE_CHILD`. -/
def aceDeleteChild : ℕ := 0x40
/-- `ACE_READ_ATTRIBUTES`. -/
def aceReadAttributes : ℕ := 0x80
/-- `ACE_WRITE_ATTRIBUTES`. -/
def aceWriteAttributes : ℕ := 0x100
/-- `ACE_DELETE`. -/
def aceDelete : ℕ := 0x10000
/-- `ACE_READ_ACL`. -/
def aceReadAcl : ℕ := 0x20000
/-- `ACE_WRITE_ACL`. -/
def aceWriteAcl : ℕ := 0x40000
/-- `ACE_WRITE_OWNER`. -/
def aceWriteOwner : ℕ := 0x80000
/-- `ACE_SYNCHRONIZE`. -/
def aceSynchronize : ℕ := 0x100000

/-- `ACE_FILE_INHERIT_ACE`. -/
def aceFileInheritAce : ℕ := 0x1
/-- `ACE_DIRECTORY_INHERIT_ACE`. -/
def aceDirectoryInheritAce : ℕ := 0x2
/-- `ACE_NO_PROPAGATE_INHERIT_ACE`. -/
def aceNoPropagateInheritAce : ℕ := 0x4
/-- `ACE_INHERITED_ACE`. -/
def aceInheritedAce : ℕ := 0x80
/-- `ALL_INHERIT` (zfs_acl.c:85). -/
def allInherit : ℕ :=
  aceFileInheritAce ||| aceDirectoryInheritAce ||| aceNoPropagateInheritAce |||
    aceInheritOnlyAce ||| aceInheritedAce

/-- `ACE_ACCESS_ALLOWED_OBJECT_ACE_TYPE`. -/
def aceAccessAllowedObjectAceType : ℕ := 0x5
/-- `ACE_SYSTEM_ALARM_OBJECT_ACE_TYPE`; the object types are 5 to 8. -/
def aceSystemAlarmObjectAceType : ℕ := 0x8

/-- `ZFS_INHERIT_ACE` (zfs_znode.h:82). -/
def zfsInheritAce : ℕ := 0x2
/-- `ZFS_ACL_OBJ_ACE` (zfs_znode.h:84). -/
def zfsAclObjAce : ℕ := 0x8
/-- `V4_ACL_WIDE_FLAGS`: `ZFS_ACL_AUTO_INHERIT`, `ZFS_ACL_DEFAULTED` and
`ZFS_ACL_PROTECTED` (zfs_acl.c:90). -/
def v4AclWideFlags : ℕ := 0x40 ||| 0x20 ||| 0x10

/-- The `aclinherit` property, `z_acl_inherit` (zfs_acl.h:197-203). -/
inductive AclInherit
  | discard
  | noallow
  | groupmask
  | passthrough
  | restricted
  | passthroughX
  deriving DecidableEq, Repr

/-- The `who` that `zfs_acl_next_ace` reads back for an `owner@`, `group@` or
`everyone@` entry: -1 as a `uint64_t` (zfs_acl.c:216-218). -/
def whoNone : ℕ := 2 ^ 64 - 1

/-! ## `zfs_acl_chmod` -/

/-- The masks `acl_trivial_access_masks` computes. -/
structure TrivialMasks where
  allow0 : ℕ
  deny1 : ℕ
  deny2 : ℕ
  owner : ℕ
  group : ℕ
  everyone : ℕ
  deriving DecidableEq, Repr

/-- `acl_trivial_access_masks(mode, ...)`. The cast to `mode_t` keeps every
bit it tests.
mirrors module/zfs/zfs_acl.c:1184-1238 -/
def aclTrivialAccessMasks (mode : ℕ) : TrivialMasks :=
  let has (b : ℕ) : Prop := mode &&& b ≠ 0
  { allow0 := (if has sIrusr ∧ ¬has sIrgrp ∧ has sIroth then aceReadData else 0) |||
      (if has sIwusr ∧ ¬has sIwgrp ∧ has sIwoth then aceWriteData else 0) |||
      (if has sIxusr ∧ ¬has sIxgrp ∧ has sIxoth then aceExecute else 0)
    deny1 := (if ¬has sIrusr ∧ has (sIrgrp ||| sIroth) then aceReadData else 0) |||
      (if ¬has sIwusr ∧ has (sIwgrp ||| sIwoth) then aceWriteData else 0) |||
      (if ¬has sIxusr ∧ has (sIxgrp ||| sIxoth) then aceExecute else 0)
    deny2 := (if ¬has sIrgrp ∧ has sIroth then aceReadData else 0) |||
      (if ¬has sIwgrp ∧ has sIwoth then aceWriteData else 0) |||
      (if ¬has sIxgrp ∧ has sIxoth then aceExecute else 0)
    owner := aceWriteAttributes ||| aceWriteOwner ||| aceWriteAcl ||| aceWriteNamedAttrs |||
      aceReadAcl ||| aceReadAttributes ||| aceReadNamedAttrs ||| aceSynchronize |||
      (if has sIrusr then aceReadData else 0) |||
      (if has sIwusr then aceWriteData ||| aceAppendData else 0) |||
      (if has sIxusr then aceExecute else 0)
    group := aceReadAcl ||| aceReadAttributes ||| aceReadNamedAttrs ||| aceSynchronize |||
      (if has sIrgrp then aceReadData else 0) |||
      (if has sIwgrp then aceWriteData ||| aceAppendData else 0) |||
      (if has sIxgrp then aceExecute else 0)
    everyone := aceReadAcl ||| aceReadAttributes ||| aceReadNamedAttrs ||| aceSynchronize |||
      (if has sIroth then aceReadData else 0) |||
      (if has sIwoth then aceWriteData ||| aceAppendData else 0) |||
      (if has sIxoth then aceExecute else 0) }

/-- `zfs_set_ace(aclp, acep, access_mask, access_type, fuid, entry_type)`, as
`zfs_acl_next_ace` reads the entry back: the `who` is stored only for a user
or group entry.
mirrors module/zfs/zfs_acl.c:883-894 -/
def zfsSetAce (accessMask accessType fuid entryType : ℕ) : Ace :=
  let type := entryType &&& aceTypeFlags
  ⟨if type ≠ aceOwner ∧ type ≠ owningGroup ∧ type ≠ aceEveryone then fuid else whoNone,
    accessMask, entryType, accessType⟩

@[simp] theorem zfsSetAce_accessMask (accessMask accessType fuid entryType : ℕ) :
    (zfsSetAce accessMask accessType fuid entryType).accessMask = accessMask := rfl

@[simp] theorem zfsSetAce_iflags (accessMask accessType fuid entryType : ℕ) :
    (zfsSetAce accessMask accessType fuid entryType).iflags = entryType := rfl

@[simp] theorem zfsSetAce_type (accessMask accessType fuid entryType : ℕ) :
    (zfsSetAce accessMask accessType fuid entryType).type = accessType := rfl

/-- The entries `zfs_acl_chmod` puts in front: those of `allow0`, `deny1` and
`deny2` that are not empty.
mirrors module/zfs/zfs_acl.c:1489-1507 -/
def prefixAces (m : TrivialMasks) : List Ace :=
  (if m.allow0 ≠ 0 then [zfsSetAce m.allow0 allow whoNone aceOwner] else []) ++
    (if m.deny1 ≠ 0 then [zfsSetAce m.deny1 deny whoNone aceOwner] else []) ++
    (if m.deny2 ≠ 0 then [zfsSetAce m.deny2 deny whoNone owningGroup] else [])

/-- The `owner@`, `group@` and `everyone@` allows `zfs_acl_chmod` ends with.
mirrors module/zfs/zfs_acl.c:1561-1565 -/
def trailerAces (m : TrivialMasks) : List Ace :=
  [zfsSetAce m.owner allow whoNone aceOwner, zfsSetAce m.group allow whoNone owningGroup,
    zfsSetAce m.everyone allow whoNone aceEveryone]

/-- Under `aclinherit=restricted` a kept allow or deny gets no more than the
group bits, and never `write_owner`, `write_acl` or the attribute writes.
mirrors module/zfs/zfs_acl.c:1537-1551 -/
def restrictedMask (mode mask : ℕ) : ℕ :=
  let mask := if mode &&& sIrgrp = 0 then clearBits mask aceReadData else mask
  let mask := if mode &&& sIwgrp = 0 then clearBits mask (aceWriteData ||| aceAppendData) else mask
  let mask := if mode &&& sIxgrp = 0 then clearBits mask aceExecute else mask
  clearBits mask (aceWriteOwner ||| aceWriteAcl ||| aceWriteAttributes ||| aceWriteNamedAttrs)

/-- One round of the loop of `zfs_acl_chmod` over the old entries: the ACL's
`z_hints` and the entries written so far.
mirrors module/zfs/zfs_acl.c:1509-1560 -/
def zfsAclChmodStep (aclInherit : AclInherit) (mode : ℕ) (st : ℕ × List Ace) (a : Ace) :
    ℕ × List Ace :=
  let entryType := a.iflags &&& aceTypeFlags
  let inheritFlags := a.iflags &&& allInherit
  if (entryType = aceOwner ∨ entryType = aceEveryone ∨ entryType = owningGroup) ∧
      inheritFlags &&& aceInheritOnlyAce = 0 then st
  else if (a.type ≠ allow ∧ a.type ≠ deny) ∨ inheritFlags &&& aceInheritOnlyAce ≠ 0 then
    let hints := if inheritFlags ≠ 0 then st.1 ||| zfsInheritAce else st.1
    let hints := if aceAccessAllowedObjectAceType ≤ a.type ∧ a.type ≤ aceSystemAlarmObjectAceType
      then hints ||| zfsAclObjAce else hints
    (hints, st.2 ++ [zfsSetAce a.accessMask a.type a.who a.iflags])
  else
    let mask := if aclInherit = .restricted then restrictedMask mode a.accessMask else a.accessMask
    (st.1, st.2 ++ [zfsSetAce mask a.type a.who a.iflags])

/-- `zfs_acl_chmod(zfsvfs, mode, aclp)` on an ACL with hints `hints` and
entries `acl`: the new hints and entries.
mirrors module/zfs/zfs_acl.c:1465-1573 -/
def zfsAclChmod (aclInherit : AclInherit) (mode hints : ℕ) (acl : List Ace) : ℕ × List Ace :=
  let m := aclTrivialAccessMasks mode
  let st := acl.foldl (zfsAclChmodStep aclInherit mode) (hints, prefixAces m)
  (st.1, st.2 ++ trailerAces m)

/-- `zfs_acl_chmod_setattr(zp, &aclp, mode)`: a fresh ACL, with the
ACL-wide flags of `z_pflags` as its hints.
mirrors module/zfs/zfs_acl.c:1575-1584 -/
def zfsAclChmodSetattr (aclInherit : AclInherit) (zPflags mode : ℕ) : ℕ × List Ace :=
  zfsAclChmod aclInherit mode (zPflags &&& v4AclWideFlags) []

/-! ## `ace_trivial_common` -/

/-- An entry that makes `ace_trivial_common` return 1: not `owner@`,
`group@` or `everyone@`; with inheritance flags; a deny of `read_acl` or
`read_attributes`; a delete permission; or an allow of an owner-only write to
another entry kind.
mirrors module/zfs/zfs_acl.c:1259-1297 -/
def aceNonTrivial (a : Ace) : Bool :=
  let kind := a.iflags &&& aceTypeFlags
  !(kind == aceOwner || kind == owningGroup || kind == aceEveryone) ||
    a.iflags &&& (aceFileInheritAce ||| aceDirectoryInheritAce ||| aceNoPropagateInheritAce |||
      aceInheritOnlyAce) != 0 ||
    (a.accessMask &&& (aceReadAcl ||| aceReadAttributes) != 0 && a.type == deny) ||
    a.accessMask &&& (aceDelete ||| aceDeleteChild) != 0 ||
    (a.type == allow && a.iflags &&& aceOwner == 0 &&
      a.accessMask &&& (aceWriteOwner ||| aceWriteAcl ||| aceWriteAttributes |||
        aceWriteNamedAttrs) != 0)

/-- `ace_trivial_common(aclp, 0, zfs_ace_walk)`: 1 at the first entry that is
not trivial, 0 when there is none.
mirrors module/zfs/zfs_acl.c:1250-1300 -/
def aceTrivialCommon : List Ace → ℕ
  | [] => 0
  | a :: acl => if aceNonTrivial a then 1 else aceTrivialCommon acl

/-! ## The rebuilt fresh ACL -/

/-- The entries of a fresh ACL after `zfs_acl_chmod`. -/
def trivialAces (mode : ℕ) : List Ace :=
  prefixAces (aclTrivialAccessMasks mode) ++ trailerAces (aclTrivialAccessMasks mode)

theorem aclTrivialAccessMasks_mod (mode : ℕ) :
    aclTrivialAccessMasks (mode % 2 ^ 9) = aclTrivialAccessMasks mode := by
  have h : ∀ b, b < 2 ^ 9 → mode % 2 ^ 9 &&& b = mode &&& b := fun _ hb => mod_two_pow_and hb
  simp (disch := decide) only [aclTrivialAccessMasks, h]

theorem zfsAclChmodSetattr_entries (aclInherit : AclInherit) (zPflags mode : ℕ) :
    (zfsAclChmodSetattr aclInherit zPflags mode).2 = trivialAces (mode % 2 ^ 9) := by
  rw [trivialAces, aclTrivialAccessMasks_mod]
  rfl

/-- An `owner@`, `group@` or `everyone@` entry that is not inherit-only: all
that `zfs_acl_chmod` writes into a fresh ACL. -/
def Ace.Special (a : Ace) : Prop :=
  (a.entryType = aceOwner ∨ a.entryType = owningGroup ∨ a.entryType = aceEveryone) ∧
    a.inheritOnly = false

theorem zfsSetAce_special {e : ℕ} (he : e = aceOwner ∨ e = owningGroup ∨ e = aceEveryone)
    (mask type fuid : ℕ) : (zfsSetAce mask type fuid e).Special := by
  simp only [Ace.Special, Ace.entryType, Ace.inheritOnly, zfsSetAce]
  rcases he with rfl | rfl | rfl <;> decide

theorem trivialAces_special (mode : ℕ) : ∀ a ∈ trivialAces mode, a.Special := by
  have ho := zfsSetAce_special (.inl rfl)
  have hg := zfsSetAce_special (.inr (.inl rfl))
  have he := zfsSetAce_special (.inr (.inr rfl))
  intro a ha
  simp only [trivialAces, prefixAces, trailerAces, List.mem_append, List.mem_cons,
    List.not_mem_nil, or_false] at ha
  -- each entry is one of the six `zfs_set_ace` calls
  rcases ha with ((ha | ha) | ha) | ha | ha | ha
  · split at ha <;> simp_all
  · split at ha <;> simp_all
  · split at ha <;> simp_all
  all_goals subst ha; first | exact ho _ _ _ | exact hg _ _ _ | exact he _ _ _

/-! ## What `zfs_mode_compute` reads of it -/

/-- The mode with the bits `m0` added. -/
def ModeState.orMode (m0 : ℕ) (s : ModeState) : ModeState := { s with mode := m0 ||| s.mode }

section ModeCompute

variable {fuid fgid : ℕ} {a : Ace}

/-- `zfs_mode_compute` only adds bits to the mode: the bits it starts from
change nothing else. -/
theorem modeBit_orMode (mask type m b m0 : ℕ) (s : ModeState) :
    modeBit mask type m b (s.orMode m0) = (modeBit mask type m b s).orMode m0 := by
  unfold modeBit ModeState.orMode
  by_cases h : mask &&& m ≠ 0 ∧ s.seen &&& b = 0
  · rw [if_pos h, if_pos h]
    split <;> simp [Nat.or_assoc]
  · rw [if_neg h, if_neg h]

theorem classBits_orMode (bits : List (ℕ × ℕ)) (m0 : ℕ) (s : ModeState) :
    classBits a bits (s.orMode m0) = (classBits a bits s).orMode m0 := by
  induction bits generalizing s with
  | nil => rfl
  | cons p bits ih =>
    rw [classBits, List.foldl_cons, ← classBits, modeBit_orMode, ih]
    rfl

theorem modeComputeStep_orMode (m0 : ℕ) (s : ModeState) :
    modeComputeStep fuid fgid (s.orMode m0) a = (modeComputeStep fuid fgid s a).orMode m0 := by
  unfold modeComputeStep
  by_cases hv : (!zfsAclValidAceType a.type a.iflags || skipInMode a) = true
  · rw [if_pos hv, if_pos hv]
  rw [if_neg hv, if_neg hv]
  cases modeClass fuid fgid a with
  | owner => exact classBits_orMode _ _ _
  | group => exact classBits_orMode _ _ _
  | everyone => exact classBits_orMode _ _ _
  | other =>
    dsimp only
    split <;> rfl

theorem foldl_orMode (acl : List Ace) (m0 : ℕ) (s : ModeState) :
    acl.foldl (modeComputeStep fuid fgid) (s.orMode m0) =
      (acl.foldl (modeComputeStep fuid fgid) s).orMode m0 := by
  induction acl generalizing s with
  | nil => rfl
  | cons a acl ih => rw [List.foldl_cons, modeComputeStep_orMode, ih, List.foldl_cons]

/-- The class of an `owner@`, `group@` or `everyone@` entry does not depend
on the file's owner and group. -/
theorem modeClass_special (ha : a.Special) : modeClass fuid fgid a = modeClass 0 0 a := by
  obtain ⟨h | h | h, -⟩ := ha <;>
    simp [modeClass, h, aceOwner, owningGroup, aceGroup, aceIdentifierGroup, aceEveryone]

theorem foldl_special {acl : List Ace} (h : ∀ a ∈ acl, a.Special) (s : ModeState) :
    acl.foldl (modeComputeStep fuid fgid) s = acl.foldl (modeComputeStep 0 0) s := by
  induction acl generalizing s with
  | nil => rfl
  | cons a acl ih =>
    rw [List.foldl_cons, List.foldl_cons, ih fun b hb => h b (List.mem_cons_of_mem a hb)]
    unfold modeComputeStep
    rw [modeClass_special (h a List.mem_cons_self)]

end ModeCompute

/-- Over the 512 values of the permission bits: `zfs_mode_compute` from an
empty mode sets exactly those bits, and finds execute denied exactly when one
of the three execute bits is clear. -/
theorem chmodAces_modeCompute : ∀ k < 2 ^ 9,
    let s := (trivialAces k).foldl (modeComputeStep 0 0) ⟨0, 0, false⟩
    s.mode = k ∧ (s.anExecDenied || (s.seen &&& allModeExecs != allModeExecs ||
      s.mode &&& allModeExecs != allModeExecs)) = (k &&& allModeExecs != allModeExecs) := by
  decide +kernel

/-- `zfs_mode_compute` over the ACL `zfs_acl_chmod_setattr` builds gives back
the permission bits of the mode, and sets `ZFS_NO_EXECS_DENIED` exactly when
all three execute bits are set. -/
theorem zfsModeCompute_chmodSetattr (aclInherit : AclInherit) (zPflags mode fmode pflags fuid fgid : ℕ) :
    zfsModeCompute fmode (zfsAclChmodSetattr aclInherit zPflags mode).2 pflags fuid fgid =
      (fmode &&& (sIfmt ||| sIsuid ||| sIsgid ||| sIsvtx) ||| mode &&& 0o777,
        if mode &&& allModeExecs = allModeExecs then pflags ||| zfsNoExecsDenied
        else clearBits pflags zfsNoExecsDenied) := by
  set m0 := fmode &&& (sIfmt ||| sIsuid ||| sIsgid ||| sIsvtx)
  have hk : mode % 2 ^ 9 < 2 ^ 9 := Nat.mod_lt _ (by decide)
  obtain ⟨hmode, hden⟩ := chmodAces_modeCompute _ hk
  have hinit : (⟨m0, 0, false⟩ : ModeState) = (⟨0, 0, false⟩ : ModeState).orMode m0 := by
    simp [ModeState.orMode]
  -- the type bits `zfs_mode_compute` starts from miss every execute bit
  have hm0 : m0 &&& allModeExecs = 0 := by
    rw [Nat.and_assoc]
    simp [allModeExecs, sIfmt, sIsuid, sIsgid, sIsvtx, sIxusr, sIxgrp, sIxoth]
  have hexec : mode % 2 ^ 9 &&& allModeExecs = mode &&& allModeExecs :=
    mod_two_pow_and (by decide)
  unfold zfsModeCompute
  rw [zfsAclChmodSetattr_entries, foldl_special (trivialAces_special _), hinit, foldl_orMode]
  simp only [ModeState.orMode, Nat.and_or_distrib_right, hm0, Nat.zero_or] at hden ⊢
  rw [hden, hmode, hexec, ← Nat.and_two_pow_sub_one_eq_mod]
  by_cases h : mode &&& allModeExecs = allModeExecs <;> simp [h]

/-! ## `ace_trivial_common` -/

theorem chmodAces_trivial : ∀ k < 2 ^ 9, aceTrivialCommon (trivialAces k) = 0 := by
  decide +kernel

/-- The ACL `zfs_acl_chmod_setattr` builds is trivial. -/
theorem aceTrivialCommon_chmodSetattr (aclInherit : AclInherit) (zPflags mode : ℕ) :
    aceTrivialCommon (zfsAclChmodSetattr aclInherit zPflags mode).2 = 0 := by
  rw [zfsAclChmodSetattr_entries]
  exact chmodAces_trivial _ (Nat.mod_lt _ (by decide))

/-! ## What `zfs_zaccess_aces_check` grants -/

section Access

variable {cr : Cred} {fowner gowner : ℕ} {a : Ace}

/-- The caller as the chmod ACL's entries see it: `owner@` matches the owner
only, and `group@` and `everyone@` match every caller, since
`zfs_groupmember` is true for every id. -/
def ownerCred (cr : Cred) (fowner : ℕ) : Cred := ⟨if cr.uid = fowner then 0 else 1, []⟩

theorem aceCheckit_special (ha : a.Special) :
    aceCheckit cr fowner gowner a = aceCheckit (ownerCred cr fowner) 0 0 a := by
  obtain ⟨h | h | h, -⟩ := ha
  · by_cases hu : cr.uid = fowner <;>
      simp [aceCheckit, ownerCred, h, hu]
  all_goals simp [aceCheckit, h, owningGroup, aceOwner, aceGroup, aceIdentifierGroup,
    aceEveryone, zfsGroupmember]

/-- Over `owner@`, `group@` and `everyone@` entries that are not inherit-only,
the check depends on the caller only through whether it is the owner. -/
theorem acesCheckLoop_special {isDir anyaccess : Bool} {acl : List Ace}
    (h : ∀ a ∈ acl, a.Special) (workingMode denyMask : ℕ) :
    acesCheckLoop isDir anyaccess cr fowner gowner acl workingMode denyMask =
      acesCheckLoop false anyaccess (ownerCred cr fowner) 0 0 acl workingMode denyMask := by
  induction acl generalizing workingMode denyMask with
  | nil => rfl
  | cons a acl ih =>
    have ha := h a List.mem_cons_self
    have ih' := ih fun b hb => h b (List.mem_cons_of_mem a hb)
    simp only [acesCheckLoop, ha.2, Bool.and_false, Bool.and_self,
      @aceCheckit_special cr fowner gowner a ha, ih']

end Access

/-- Over the 512 values of the permission bits, for the owner (`u = 0`) and
any other caller (`u = 1`): read, write and execute, each asked alone, are
granted exactly when the owner's, or the group's, bit is set. -/
theorem chmodAces_access : ∀ k < 2 ^ 9, ∀ u < 2, ∀ any : Bool,
    ∀ p ∈ (if u = 0 then ownerModeBits else groupModeBits),
      (acesCheckLoop false any ⟨u, []⟩ 0 0 (trivialAces k) p.1 0).1 = 0 ↔ k &&& p.2 ≠ 0 := by
  decide +kernel

/-- `zfs_zaccess_aces_check(zp, mask, anyaccess, cr)` on a znode whose ACL
`zfs_acl_chmod_setattr` built from `mode`, for read, write or execute: the
owner is granted what the owner bits of `mode` give, every other caller what
the group bits give. -/
theorem zfsZaccessAcesCheck_chmodSetattr (zp : Znode) (cr : Cred) (anyaccess : Bool)
    (aclInherit : AclInherit) (zPflags mode : ℕ)
    (hacl : zp.zAcl = (zfsAclChmodSetattr aclInherit zPflags mode).2) :
    ∀ p ∈ (if cr.uid = zfsFuidMapId zp.zUid then ownerModeBits else groupModeBits),
      (zfsZaccessAcesCheck zp p.1 anyaccess cr).1 = 0 ↔ mode &&& p.2 ≠ 0 := by
  intro p hp
  have hk : mode % 2 ^ 9 < 2 ^ 9 := Nat.mod_lt _ (by decide)
  have hu : (if cr.uid = zfsFuidMapId zp.zUid then 0 else 1) < 2 := by split <;> decide
  -- the bit asked for is one of the nine permission bits
  have hbit : mode % 2 ^ 9 &&& p.2 = mode &&& p.2 := by
    apply mod_two_pow_and
    split at hp <;>
      simp only [ownerModeBits, groupModeBits, List.mem_cons, List.not_mem_nil, or_false] at hp <;>
      rcases hp with rfl | rfl | rfl <;> decide
  have hp' : p ∈ (if (if cr.uid = zfsFuidMapId zp.zUid then 0 else 1) = 0 then ownerModeBits
      else groupModeBits) := by
    by_cases h : cr.uid = zfsFuidMapId zp.zUid <;> simp_all
  unfold zfsZaccessAcesCheck
  rw [hacl, zfsAclChmodSetattr_entries, acesCheckLoop_special (trivialAces_special _), ← hbit]
  exact chmodAces_access _ hk _ hu anyaccess p hp'

/-- A file of mode 040 and one of mode 004, both owned by uid 0 and group 0,
and a caller with uid 1 in no group: POSIX gives it the other bits. The full
check grants it read on the first, whose other bits are clear, and refuses it
read on the second, whose other read bit is set, since `group@` matches it. -/
theorem zfs_zaccess_chmod_other_class :
    groupmember 0 ⟨1, []⟩ = false ∧ 0o40 &&& sIroth = 0 ∧
      (zfsZaccessAcesCheck ⟨0, 0o40, 0, 0, false, (zfsAclChmodSetattr .passthrough 0 0o40).2⟩
        aceReadData false ⟨1, []⟩).1 = 0 ∧
      0o4 &&& sIroth ≠ 0 ∧
      (zfsZaccessAcesCheck ⟨0, 0o4, 0, 0, false, (zfsAclChmodSetattr .passthrough 0 0o4).2⟩
        aceReadData false ⟨1, []⟩).1 = eacces := by
  decide

end ZfsOsx.Acl
