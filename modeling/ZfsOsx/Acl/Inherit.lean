import ZfsOsx.Acl.Chmod
/-!
# ACL inheritance (`zfs_acl.c`)

`zfs_acl_inherit` builds the ACL of a new object from its parent directory's
ACL. Under `aclinherit=discard`, and for a symlink, the ACL is empty.
Otherwise the loop walks the parent's entries. It skips those that are not
valid, the allows under `noallow`, and those `zfs_ace_can_use` says the object
does not inherit. Each other entry is copied with `ACE_INHERITED_ACE`, its
opaque object data and a rewritten set of inheritance flags. Under
`passthrough-x`, a copy on a non-directory loses execute when the creation
mode has no execute bit. `need_chmod` stays set unless a `passthrough` entry
for `owner@`, `group@` or `everyone@` reaches the object.

The copy's flags follow the NFSv4 rules. On a non-directory, and for an
entry with `NO_PROPAGATE`, the inheritance flags are cleared, and only then
does `zfs_restricted_update` take `write_acl` and `write_owner` from an
allow. On a directory the other copies keep the inheritance flags, with
`INHERIT_ONLY` set for an entry that only file-inherits and cleared
otherwise, and keep their mask under `restricted`. (`zfs_acl_ids_create` then
runs `zfs_acl_chmod` on the new ACL, which under `restricted` strips those
bits from the allows and denies that are not inherit-only.)

Results:
* `zfsAclInherit_entries`: the loop is a filter and a map.
* `zfs_acl_inherit_rules`: what each inherited entry is, against its parent
  entry, in order.
* `zfsAclInherit_needChmod`: when `need_chmod` is cleared.
* `zfs_acl_inherit_restricted_dir`: under `restricted`, a new directory
  inherits an `everyone@` allow of `write_acl` that keeps `write_acl`.
-/
namespace ZfsOsx.Acl

open FlagWord

/-- `S_IFDIR`. -/
def sIfdir : ℕ := 0o040000
/-- `S_IFREG`. -/
def sIfreg : ℕ := 0o100000
/-- `S_IFLNK`. -/
def sIflnk : ℕ := 0o120000

/-- `S_ISDIR(m)`. -/
def sIsdir (m : ℕ) : Bool := m &&& sIfmt == sIfdir
/-- `S_ISREG(m)`. -/
def sIsreg (m : ℕ) : Bool := m &&& sIfmt == sIfreg
/-- `S_ISLNK(m)`. -/
def sIslnk (m : ℕ) : Bool := m &&& sIfmt == sIflnk

/-- `RESTRICTED_CLEAR` (zfs_acl.c:88). -/
def restrictedClear : ℕ := aceWriteAcl ||| aceWriteOwner

/-- An entry of an ACL as `zfs_acl_inherit` reads it: what
`zfs_acl_next_ace` returns, and the opaque data `ace_data` gives for an object
ACE (none for the others). -/
structure AclEntry where
  ace : Ace
  data : List UInt8
  deriving DecidableEq, Repr

/-- `zfs_ace_can_use(obj_mode, acep_flags)`.
mirrors module/zfs/zfs_acl.c:1604-1615 -/
def zfsAceCanUse (objMode aceFlags : ℕ) : Bool :=
  let iflags := aceFlags &&& 0xf
  if sIsdir objMode && iflags &&& aceDirectoryInheritAce != 0 then true
  else if iflags &&& aceFileInheritAce != 0 then
    !(sIsdir objMode && iflags &&& aceNoPropagateInheritAce != 0)
  else false

/-- `zfs_restricted_update(zfsvfs, aclp, acep)`.
mirrors module/zfs/zfs_acl.c:1589-1600 -/
def zfsRestrictedUpdate (aclInherit : AclInherit) (a : Ace) : Ace :=
  if aclInherit = .restricted ∧ a.type = allow then
    { a with accessMask := clearBits a.accessMask restrictedClear }
  else a

/-- What `zfs_acl_inherit` gives back: the new ACL's `z_hints` and entries,
and `need_chmod`. -/
structure InheritResult where
  hints : ℕ
  entries : List AclEntry
  needChmod : Bool
  deriving DecidableEq, Repr

/-- The copy of a parent entry the loop appends: the mask after the
`passthrough-x` rule, `zfs_set_ace` with `ACE_INHERITED_ACE`, the opaque data,
and the rewrite of the flags.
mirrors module/zfs/zfs_acl.c:1679-1728 -/
@[grind] def zfsAclInheritCopy (aclInherit : AclInherit) (objMode mode : ℕ) (e : AclEntry) : AclEntry :=
  let vdir := sIsdir objMode
  let iflags := e.ace.iflags
  let accessMask := if !vdir ∧ aclInherit = .passthroughX ∧ mode &&& allModeExecs = 0 then
    clearBits e.ace.accessMask aceExecute else e.ace.accessMask
  let acep := zfsSetAce accessMask e.ace.type e.ace.who (iflags ||| aceInheritedAce)
  let newflags := acep.iflags
  let acep :=
    if iflags &&& aceNoPropagateInheritAce ≠ 0 ∨ !vdir then
      zfsRestrictedUpdate aclInherit { acep with iflags := clearBits newflags allInherit ||| aceInheritedAce }
    -- only FILE_INHERIT: the copy is inherit-only on the directory
    else if iflags &&& (aceFileInheritAce ||| aceDirectoryInheritAce) = aceFileInheritAce then
      { acep with iflags := newflags ||| aceInheritOnlyAce ||| aceInheritedAce }
    else { acep with iflags := clearBits newflags aceInheritOnlyAce ||| aceInheritedAce }
  ⟨acep, e.data⟩

/-- One round of the loop of `zfs_acl_inherit` over the parent's entries.
mirrors module/zfs/zfs_acl.c:1648-1728 -/
def zfsAclInheritStep (aclInherit : AclInherit) (objMode mode : ℕ) (st : InheritResult)
    (e : AclEntry) : InheritResult :=
  let vdir := sIsdir objMode
  let vreg := sIsreg objMode
  let passthrough := aclInherit = .passthroughX ∨ aclInherit = .passthrough
  let iflags := e.ace.iflags
  if !zfsAclValidAceType e.ace.type iflags then st
  else if aclInherit = .noallow ∧ e.ace.type = allow then st
  else if !zfsAceCanUse objMode iflags then st
  else
    let needChmod :=
      if passthrough ∧ (iflags &&& (aceOwner ||| aceEveryone) ≠ 0 ∨
          iflags &&& owningGroup = owningGroup) ∧
          (vreg ∨ (vdir ∧ iflags &&& aceDirectoryInheritAce ≠ 0)) then false
      else st.needChmod
    { hints := if vdir then st.hints ||| zfsInheritAce else st.hints
      entries := st.entries ++ [zfsAclInheritCopy aclInherit objMode mode e]
      needChmod }

/-- `zfs_acl_inherit(zfsvfs, obj_mode, paclp, mode, &need_chmod)` over the
parent's entries `parent`.
mirrors module/zfs/zfs_acl.c:1620-1734 -/
def zfsAclInherit (aclInherit : AclInherit) (objMode : ℕ) (parent : List AclEntry) (mode : ℕ) :
    InheritResult :=
  if aclInherit = .discard ∨ sIslnk objMode then ⟨0, [], true⟩
  else parent.foldl (zfsAclInheritStep aclInherit objMode mode) ⟨0, [], true⟩

/-! ## The rules the loop implements -/

/-- The parent entries a new object inherits, as the NFSv4 rules and
`aclinherit` say: a valid entry, not an allow under `noallow`, marked
`FILE_INHERIT` for a file, and `DIRECTORY_INHERIT`, or `FILE_INHERIT` without
`NO_PROPAGATE`, for a directory. -/
def inheritable (aclInherit : AclInherit) (objMode : ℕ) (a : Ace) : Bool :=
  zfsAclValidAceType a.type a.iflags && !(aclInherit == .noallow && a.type == allow) &&
    if sIsdir objMode then
      a.iflags &&& aceDirectoryInheritAce != 0 ||
        a.iflags &&& aceFileInheritAce != 0 && a.iflags &&& aceNoPropagateInheritAce == 0
    else a.iflags &&& aceFileInheritAce != 0

/-- What the parent entry `p` becomes on the new object: the copy `c` keeps
the who (none for `owner@`, `group@` and `everyone@`), the type and the
object data, and carries `INHERITED`. On a non-directory, or with
`NO_PROPAGATE`, it has no other inheritance flag; on a directory it is
inherit-only exactly when `p` only file-inherits. Its mask loses execute under
`passthrough-x` on a non-directory created without execute, and loses
`write_acl` and `write_owner` under `restricted` for an allow whose inheritance
flags are cleared. -/
structure InheritedFrom (aclInherit : AclInherit) (objMode mode : ℕ) (p c : AclEntry) : Prop where
  who_eq : c.ace.who = if p.ace.entryType = aceOwner ∨ p.ace.entryType = owningGroup ∨
    p.ace.entryType = aceEveryone then whoNone else p.ace.who
  type_eq : c.ace.type = p.ace.type
  data_eq : c.data = p.data
  iflags_eq : c.ace.iflags =
    if p.ace.iflags &&& aceNoPropagateInheritAce ≠ 0 ∨ sIsdir objMode = false then
      clearBits p.ace.iflags allInherit ||| aceInheritedAce
    else if p.ace.iflags &&& (aceFileInheritAce ||| aceDirectoryInheritAce) = aceFileInheritAce then
      p.ace.iflags ||| aceInheritOnlyAce ||| aceInheritedAce
    else clearBits p.ace.iflags aceInheritOnlyAce ||| aceInheritedAce
  accessMask_eq : c.ace.accessMask =
    let m := if aclInherit = .passthroughX ∧ sIsdir objMode = false ∧ mode &&& allModeExecs = 0
      then clearBits p.ace.accessMask aceExecute else p.ace.accessMask
    if aclInherit = .restricted ∧ p.ace.type = allow ∧
        (p.ace.iflags &&& aceNoPropagateInheritAce ≠ 0 ∨ sIsdir objMode = false)
      then clearBits m restrictedClear else m

/-! ## One copy -/

section Copy

variable (aclInherit : AclInherit) (objMode mode : ℕ) (e : AclEntry)

@[simp] theorem zfsRestrictedUpdate_who (a : Ace) : (zfsRestrictedUpdate aclInherit a).who = a.who := by
  unfold zfsRestrictedUpdate; split <;> rfl

@[simp] theorem zfsRestrictedUpdate_type (a : Ace) :
    (zfsRestrictedUpdate aclInherit a).type = a.type := by
  unfold zfsRestrictedUpdate; split <;> rfl

@[simp] theorem zfsRestrictedUpdate_iflags (a : Ace) :
    (zfsRestrictedUpdate aclInherit a).iflags = a.iflags := by
  unfold zfsRestrictedUpdate; split <;> rfl

theorem zfsRestrictedUpdate_accessMask (a : Ace) :
    (zfsRestrictedUpdate aclInherit a).accessMask =
      if aclInherit = .restricted ∧ a.type = allow then clearBits a.accessMask restrictedClear
      else a.accessMask := by
  unfold zfsRestrictedUpdate; split <;> rfl

theorem entryType_or_inherited (f : ℕ) : (f ||| aceInheritedAce) &&& aceTypeFlags = f &&& aceTypeFlags :=
  or_and_of_and_eq_zero (by decide)

theorem zfsSetAce_who (accessMask accessType fuid entryType : ℕ) :
    (zfsSetAce accessMask accessType fuid entryType).who =
      if entryType &&& aceTypeFlags = aceOwner ∨ entryType &&& aceTypeFlags = owningGroup ∨
        entryType &&& aceTypeFlags = aceEveryone then whoNone else fuid := by
  simp only [zfsSetAce]
  by_cases h : entryType &&& aceTypeFlags = aceOwner ∨ entryType &&& aceTypeFlags = owningGroup ∨
      entryType &&& aceTypeFlags = aceEveryone
  · rw [if_pos h, if_neg (by tauto)]
  · rw [if_neg h, if_pos (by tauto)]

theorem zfsAclInheritCopy_who : (zfsAclInheritCopy aclInherit objMode mode e).ace.who =
    if e.ace.entryType = aceOwner ∨ e.ace.entryType = owningGroup ∨
      e.ace.entryType = aceEveryone then whoNone else e.ace.who := by
  -- every branch keeps the who that zfs_set_ace wrote
  have hset : (zfsAclInheritCopy aclInherit objMode mode e).ace.who =
      (zfsSetAce 0 e.ace.type e.ace.who (e.ace.iflags ||| aceInheritedAce)).who := by
    simp only [zfsAclInheritCopy]
    split_ifs <;> simp [zfsSetAce]
  rw [hset, zfsSetAce_who, entryType_or_inherited]
  rfl

theorem zfsAclInheritCopy_type : (zfsAclInheritCopy aclInherit objMode mode e).ace.type = e.ace.type := by
  simp only [zfsAclInheritCopy]
  split_ifs <;> simp [zfsSetAce]

theorem zfsAclInheritCopy_data : (zfsAclInheritCopy aclInherit objMode mode e).data = e.data := rfl

/-- The flags of the copy: `zfs_set_ace` writes `iflags | ACE_INHERITED_ACE`,
and each branch rewrites them and sets `ACE_INHERITED_ACE` once more. -/
theorem zfsAclInheritCopy_iflags : (zfsAclInheritCopy aclInherit objMode mode e).ace.iflags =
    if e.ace.iflags &&& aceNoPropagateInheritAce ≠ 0 ∨ sIsdir objMode = false then
      clearBits e.ace.iflags allInherit ||| aceInheritedAce
    else if e.ace.iflags &&& (aceFileInheritAce ||| aceDirectoryInheritAce) = aceFileInheritAce then
      e.ace.iflags ||| aceInheritOnlyAce ||| aceInheritedAce
    else clearBits e.ace.iflags aceInheritOnlyAce ||| aceInheritedAce := by
  simp only [zfsAclInheritCopy, Bool.not_eq_true']
  split_ifs <;> simp [zfsSetAce, clearBits_or_or, or_or_or_self]

theorem zfsAclInheritCopy_accessMask : (zfsAclInheritCopy aclInherit objMode mode e).ace.accessMask =
    let m := if aclInherit = .passthroughX ∧ sIsdir objMode = false ∧ mode &&& allModeExecs = 0
      then clearBits e.ace.accessMask aceExecute else e.ace.accessMask
    if aclInherit = .restricted ∧ e.ace.type = allow ∧
        (e.ace.iflags &&& aceNoPropagateInheritAce ≠ 0 ∨ sIsdir objMode = false)
      then clearBits m restrictedClear else m := by
  simp only [zfsAclInheritCopy, Bool.not_eq_true']
  split_ifs <;> simp_all [zfsRestrictedUpdate_accessMask, zfsSetAce]

/-- Each copy the loop appends is what the rules make of its parent entry. -/
theorem zfsAclInheritCopy_inheritedFrom :
    InheritedFrom aclInherit objMode mode e (zfsAclInheritCopy aclInherit objMode mode e) :=
  ⟨zfsAclInheritCopy_who .., zfsAclInheritCopy_type .., zfsAclInheritCopy_data ..,
    zfsAclInheritCopy_iflags .., zfsAclInheritCopy_accessMask ..⟩

end Copy

/-! ## The loop -/

/-- `zfs_ace_can_use` tests the flags below `0x10` only, and those are the
inheritance flags it reads: it is the marking half of `inheritable`. -/
theorem zfsAceCanUse_eq (objMode f : ℕ) : zfsAceCanUse objMode f =
    if sIsdir objMode then
      f &&& aceDirectoryInheritAce != 0 ||
        f &&& aceFileInheritAce != 0 && f &&& aceNoPropagateInheritAce == 0
    else f &&& aceFileInheritAce != 0 := by
  have low : ∀ b, b &&& 0xf = b → f &&& 0xf &&& b = f &&& b := fun b hb => by
    rw [Nat.and_assoc, Nat.and_comm 0xf, hb]
  simp only [zfsAceCanUse, low aceDirectoryInheritAce (by decide), low aceFileInheritAce (by decide),
    low aceNoPropagateInheritAce (by decide), bne]
  -- what is left is a truth table in the three flag tests
  cases sIsdir objMode <;> cases f &&& aceDirectoryInheritAce == 0 <;>
    cases f &&& aceFileInheritAce == 0 <;> cases f &&& aceNoPropagateInheritAce == 0 <;> rfl

/-- The entries that make `zfs_acl_chmod` unneeded under `passthrough`:
`owner@`, `group@` or `everyone@`, reaching a regular file, or a directory
through `DIRECTORY_INHERIT`. -/
def passesThrough (objMode : ℕ) (a : Ace) : Bool :=
  (a.iflags &&& (aceOwner ||| aceEveryone) != 0 || a.iflags &&& owningGroup == owningGroup) &&
    (sIsreg objMode || sIsdir objMode && a.iflags &&& aceDirectoryInheritAce != 0)

section Loop

variable (aclInherit : AclInherit) (objMode mode : ℕ)

/-- One round of the loop: an entry that is not inheritable changes nothing;
one that is marks a directory's ACL `ZFS_INHERIT_ACE`, appends its copy, and
under `passthrough` clears `need_chmod` when it passes through. -/
theorem zfsAclInheritStep_eq (st : InheritResult) (e : AclEntry) :
    zfsAclInheritStep aclInherit objMode mode st e =
      if inheritable aclInherit objMode e.ace then
        { hints := if sIsdir objMode then st.hints ||| zfsInheritAce else st.hints
          entries := st.entries ++ [zfsAclInheritCopy aclInherit objMode mode e]
          needChmod := if (aclInherit = .passthroughX ∨ aclInherit = .passthrough) ∧
            passesThrough objMode e.ace then false else st.needChmod }
      else st := by
  have huse : inheritable aclInherit objMode e.ace =
      (zfsAclValidAceType e.ace.type e.ace.iflags &&
        !decide (aclInherit = .noallow ∧ e.ace.type = allow) &&
        zfsAceCanUse objMode e.ace.iflags) := by
    simp [inheritable, zfsAceCanUse_eq, Bool.beq_eq_decide_eq]
  have hpass : passesThrough objMode e.ace = true ↔
      (e.ace.iflags &&& (aceOwner ||| aceEveryone) ≠ 0 ∨
        e.ace.iflags &&& owningGroup = owningGroup) ∧
      (sIsreg objMode = true ∨ (sIsdir objMode = true ∧ e.ace.iflags &&& aceDirectoryInheritAce ≠ 0)) := by
    simp [passesThrough]
  rw [huse]
  unfold zfsAclInheritStep
  -- the three guards of the loop, in the order it tests them
  by_cases hv : zfsAclValidAceType e.ace.type e.ace.iflags = true
  · by_cases hn : aclInherit = .noallow ∧ e.ace.type = allow
    · simp [hn]
    · by_cases hc : zfsAceCanUse objMode e.ace.iflags = true
      · simp [hv, hn, hc, hpass]
      · simp [hv, hn, hc]
  · simp [hv]

/-- The run lemma: the loop appends the copies of the inheritable entries, in
order. -/
theorem foldl_zfsAclInheritStep_entries (l : List AclEntry) (st : InheritResult) :
    (l.foldl (zfsAclInheritStep aclInherit objMode mode) st).entries =
      st.entries ++ (l.filter (inheritable aclInherit objMode ·.ace)).map
        (zfsAclInheritCopy aclInherit objMode mode) := by
  induction l generalizing st with
  | nil => simp
  | cons e l ih =>
    rw [List.foldl_cons, ih, zfsAclInheritStep_eq, List.filter_cons]
    split <;> simp

theorem zfsAclInherit_entries (parent : List AclEntry) :
    (zfsAclInherit aclInherit objMode parent mode).entries =
      if aclInherit = .discard ∨ sIslnk objMode then []
      else (parent.filter (inheritable aclInherit objMode ·.ace)).map
        (zfsAclInheritCopy aclInherit objMode mode) := by
  unfold zfsAclInherit
  split
  · rfl
  · rw [foldl_zfsAclInheritStep_entries, List.nil_append]

/-- The run lemma for `need_chmod`: the loop clears it exactly when, under
`passthrough`, some inheritable entry passes through. -/
theorem foldl_zfsAclInheritStep_needChmod (l : List AclEntry) (st : InheritResult) :
    (l.foldl (zfsAclInheritStep aclInherit objMode mode) st).needChmod = false ↔
      st.needChmod = false ∨ ((aclInherit = .passthroughX ∨ aclInherit = .passthrough) ∧
        ∃ e ∈ l, inheritable aclInherit objMode e.ace ∧ passesThrough objMode e.ace) := by
  induction l generalizing st with
  | nil => simp
  | cons e l ih =>
    rw [List.foldl_cons, ih, zfsAclInheritStep_eq, List.exists_mem_cons_iff]
    by_cases hu : inheritable aclInherit objMode e.ace = true
    · by_cases hp : (aclInherit = .passthroughX ∨ aclInherit = .passthrough) ∧
          passesThrough objMode e.ace = true
      · simp only [hu, hp, and_self, if_true]
        tauto
      · simp only [hu, hp, if_true, if_false]
        tauto
    · simp only [hu, Bool.false_eq_true, if_false, false_and, false_or]

/-- The run lemma for the hints: a directory's ACL is marked
`ZFS_INHERIT_ACE` once it inherits an entry. -/
theorem foldl_zfsAclInheritStep_hints (l : List AclEntry) (st : InheritResult) :
    (l.foldl (zfsAclInheritStep aclInherit objMode mode) st).hints =
      if sIsdir objMode ∧ l.any (inheritable aclInherit objMode ·.ace) then
        st.hints ||| zfsInheritAce else st.hints := by
  induction l generalizing st with
  | nil => simp
  | cons e l ih =>
    rw [List.foldl_cons, ih, zfsAclInheritStep_eq]
    by_cases hu : inheritable aclInherit objMode e.ace = true
    · by_cases hd : sIsdir objMode = true
      · simp [hu, hd]
      · simp [hu, hd]
    · simp [hu]

/-- `need_chmod` is cleared exactly under `passthrough`, when an inheritable
entry passes through. -/
theorem zfsAclInherit_needChmod (parent : List AclEntry) :
    (zfsAclInherit aclInherit objMode parent mode).needChmod = false ↔
      ¬(aclInherit = .discard ∨ sIslnk objMode) ∧
        (aclInherit = .passthroughX ∨ aclInherit = .passthrough) ∧
        ∃ e ∈ parent, inheritable aclInherit objMode e.ace ∧ passesThrough objMode e.ace := by
  unfold zfsAclInherit
  split
  case isTrue h => simp [h]
  case isFalse h =>
    rw [foldl_zfsAclInheritStep_needChmod]
    simp [h]

/-- The new ACL is marked `ZFS_INHERIT_ACE` exactly when it is a directory's
and it inherited an entry. -/
theorem zfsAclInherit_hints (parent : List AclEntry) :
    (zfsAclInherit aclInherit objMode parent mode).hints =
      if sIsdir objMode ∧ (zfsAclInherit aclInherit objMode parent mode).entries ≠ [] then
        zfsInheritAce else 0 := by
  rw [zfsAclInherit_entries]
  unfold zfsAclInherit
  split
  case isTrue h => simp
  case isFalse h =>
    rw [foldl_zfsAclInheritStep_hints]
    simp [List.filter_eq_nil_iff]

end Loop

/-- `zfs_acl_inherit` against the NFSv4 and `aclinherit` rules: nothing under
`discard` or for a symlink; otherwise one entry for each inheritable parent
entry, in order, each what `InheritedFrom` says of it. -/
theorem zfs_acl_inherit_rules (aclInherit : AclInherit) (objMode : ℕ) (parent : List AclEntry)
    (mode : ℕ) :
    (aclInherit = .discard ∨ sIslnk objMode →
      (zfsAclInherit aclInherit objMode parent mode).entries = []) ∧
    (¬(aclInherit = .discard ∨ sIslnk objMode) →
      List.Forall₂ (InheritedFrom aclInherit objMode mode)
        (parent.filter (inheritable aclInherit objMode ·.ace))
        (zfsAclInherit aclInherit objMode parent mode).entries) := by
  rw [zfsAclInherit_entries]
  refine ⟨fun h => if_pos h, fun h => ?_⟩
  rw [if_neg h, List.forall₂_map_right_iff, List.forall₂_same]
  exact fun e _ => zfsAclInheritCopy_inheritedFrom aclInherit objMode mode e

/-- An `everyone@` allow of `write_acl` that directories inherit. -/
def everyoneWriteAcl : AclEntry :=
  ⟨⟨whoNone, aceWriteAcl, aceEveryone ||| aceDirectoryInheritAce, allow⟩, []⟩

theorem zfs_acl_inherit_rules_dir :
    List.Forall₂ (InheritedFrom .restricted 0o040755 0o755)
      ([everyoneWriteAcl].filter (inheritable .restricted 0o040755 ·.ace))
      (zfsAclInherit .restricted 0o040755 [everyoneWriteAcl] 0o755).entries :=
  (zfs_acl_inherit_rules .restricted 0o040755 [everyoneWriteAcl] 0o755).2 (by decide)

/-- Under `restricted`, a new directory inherits the `everyone@` allow with
`write_acl` still in its mask, and not inherit-only. -/
theorem zfs_acl_inherit_restricted_dir :
    (zfsAclInherit .restricted 0o040755 [everyoneWriteAcl] 0o755).entries =
      [⟨⟨whoNone, aceWriteAcl, aceEveryone ||| aceDirectoryInheritAce ||| aceInheritedAce, allow⟩, []⟩] := by
  decide

/-! ## Creation under `restricted`

`zfs_acl_ids_create` runs `zfs_acl_chmod` on the inherited ACL whenever
`need_chmod` is set, which it always is under `restricted`; under
`restricted`, `zfs_acl_chmod` strips `write_acl` and `write_owner` from the
allows it keeps. So the ACL a new object starts with grants them only to
`owner@`, what `restricted` is for. -/

/-- `ZFS_ACL_AUTO_INHERIT` (zfs_znode.h:87). -/
def zfsAclAutoInherit : ℕ := 0x40

/-- The ACL `zfs_acl_ids_create` builds for an object that inherits from its
parent directory: its hints and entries. `mode` is the creation mode
`acl_ids->z_mode`, `objMode` the `va_mode` of the request.
mirrors module/zfs/zfs_acl.c:1838-1858 -/
def zfsAclIdsCreateInherit (aclInherit : AclInherit) (objMode : ℕ) (parent : List AclEntry)
    (mode : ℕ) : ℕ × List Ace :=
  let r := zfsAclInherit aclInherit objMode parent mode
  let aces := r.entries.map (·.ace)
  if r.needChmod then
    zfsAclChmod aclInherit mode (if sIsdir objMode then r.hints ||| zfsAclAutoInherit else r.hints) aces
  else (r.hints, aces)

theorem restrictedMask_and_restrictedClear (mode mask : ℕ) :
    restrictedMask mode mask &&& restrictedClear = 0 :=
  clearBits_and_eq_zero (by decide)

/-- An allow that is not inherit-only and has `write_acl` or `write_owner`. -/
def Ace.GrantsAclWrite (a : Ace) : Prop :=
  a.type = allow ∧ a.inheritOnly = false ∧ a.accessMask &&& restrictedClear ≠ 0

/-- One round of `zfs_acl_chmod` under `restricted` adds no entry that grants
`write_acl` or `write_owner`. -/
theorem zfsAclChmodStep_restricted (mode : ℕ) (st : ℕ × List Ace) (a : Ace) :
    ∀ b ∈ (zfsAclChmodStep .restricted mode st a).2, b ∈ st.2 ∨ ¬b.GrantsAclWrite := by
  intro b hb
  unfold zfsAclChmodStep at hb
  dsimp only at hb
  split at hb
  · exact .inl hb
  split at hb
  -- kept as it was: not an allow, or inherit-only
  case isTrue hkeep =>
    rcases List.mem_append.1 hb with hb | hb
    · exact .inl hb
    · right
      rintro ⟨htype, hio, -⟩
      simp only [List.mem_singleton] at hb
      subst hb
      simp only [zfsSetAce, Ace.inheritOnly, bne_eq_false_iff_eq] at htype hio
      rw [Nat.and_assoc, show allInherit &&& aceInheritOnlyAce = aceInheritOnlyAce by decide] at hkeep
      omega
  -- an allow or deny: masked by restrictedMask
  case isFalse =>
    rcases List.mem_append.1 hb with hb | hb
    · exact .inl hb
    · right
      rintro ⟨-, -, hmask⟩
      simp only [List.mem_singleton] at hb
      subst hb
      exact hmask (restrictedMask_and_restrictedClear mode a.accessMask)

/-- The run lemma: every entry the loop of `zfs_acl_chmod` writes under
`restricted` was there before or grants neither `write_acl` nor `write_owner`. -/
theorem foldl_zfsAclChmodStep_restricted (mode : ℕ) (acl : List Ace) (st : ℕ × List Ace) :
    ∀ b ∈ (acl.foldl (zfsAclChmodStep .restricted mode) st).2, b ∈ st.2 ∨ ¬b.GrantsAclWrite := by
  induction acl generalizing st with
  | nil => exact fun b hb => .inl hb
  | cons a acl ih =>
    intro b hb
    rcases ih _ b hb with hb | hb
    · exact zfsAclChmodStep_restricted mode st a b hb
    · exact .inr hb

theorem prefixAces_grantsAclWrite (m : TrivialMasks) :
    ∀ a ∈ prefixAces m, a.GrantsAclWrite → a.entryType = aceOwner := by
  intro a ha hg
  simp only [prefixAces, List.mem_append] at ha
  -- the first entry is owner@'s allow; the other two are denies
  rcases ha with (ha | ha) | ha <;> split_ifs at ha <;> simp at ha <;> subst ha
  · simp only [Ace.entryType, zfsSetAce_iflags]
    decide
  · exact absurd hg.1 (by simp only [zfsSetAce_type]; decide)
  · exact absurd hg.1 (by simp only [zfsSetAce_type]; decide)

theorem trailerAces_grantsAclWrite (mode : ℕ) :
    ∀ a ∈ trailerAces (aclTrivialAccessMasks mode), a.GrantsAclWrite → a.entryType = aceOwner := by
  intro a ha hg
  simp only [trailerAces, List.mem_cons, List.not_mem_nil, or_false] at ha
  -- the group@ and everyone@ masks carry no bit of restrictedClear
  rcases ha with rfl | rfl | rfl
  · simp only [Ace.entryType, zfsSetAce_iflags]
    decide
  · refine absurd ?_ hg.2.2
    simp only [zfsSetAce, aclTrivialAccessMasks]
    split_ifs <;> decide
  · refine absurd ?_ hg.2.2
    simp only [zfsSetAce, aclTrivialAccessMasks]
    split_ifs <;> decide

/-- Under `restricted`, `zfs_acl_chmod` leaves `write_acl` and `write_owner`
to `owner@` entries alone, whatever ACL it starts from. -/
theorem zfsAclChmod_restricted (mode hints : ℕ) (acl : List Ace) :
    ∀ a ∈ (zfsAclChmod .restricted mode hints acl).2, a.GrantsAclWrite → a.entryType = aceOwner := by
  intro a ha hg
  simp only [zfsAclChmod, List.mem_append] at ha
  rcases ha with ha | ha
  · rcases foldl_zfsAclChmodStep_restricted mode acl _ a ha with hp | hn
    · exact prefixAces_grantsAclWrite _ a hp hg
    · exact absurd hg hn
  · exact trailerAces_grantsAclWrite mode a ha hg

/-- A new object that inherits its ACL under `restricted` starts with
`write_acl` and `write_owner` granted to `owner@` only. -/
theorem zfs_acl_ids_create_restricted (objMode : ℕ) (parent : List AclEntry) (mode : ℕ) :
    ∀ a ∈ (zfsAclIdsCreateInherit .restricted objMode parent mode).2,
      a.GrantsAclWrite → a.entryType = aceOwner := by
  have hneed : (zfsAclInherit .restricted objMode parent mode).needChmod = true := by
    cases h : (zfsAclInherit .restricted objMode parent mode).needChmod
    · obtain ⟨-, hp, -⟩ := (zfsAclInherit_needChmod .restricted objMode mode parent).1 h
      simp at hp
    · rfl
  simp only [zfsAclIdsCreateInherit, hneed, if_true]
  exact zfsAclChmod_restricted _ _ _

end ZfsOsx.Acl
