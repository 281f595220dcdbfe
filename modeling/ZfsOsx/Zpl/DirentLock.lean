import Mathlib
import ZfsOsx.Lib.Kmem

/-!
# Directory-entry name locks (`module/zfs/zfs_dir.c:95-364`)

A caller that looks up, creates or removes a name in a directory first locks
the name with `zfs_dirent_lock` and later drops it with `zfs_dirent_unlock`.
The locks of a directory znode are the list `z_dirlocks` of
`zfs_dirlock_t` entries, each with the name it locks (`dl_name`) and its
count of shared holders (`dl_sharecnt`, 0 for an exclusive holder). Every
change to the list is made under `z_lock`; a caller that finds its name taken
sleeps in `cv_wait` on the entry and searches again when woken. A shared
(`ZSHARED`) caller joins an entry that other shared callers hold, and the
second of them copies `dl_name` into a buffer of the entry's own, so that the
first may return and release its buffer. On Mac OS X a name that is not ASCII
is first normalized to NFC into a buffer of the call's own; a new entry takes
that buffer over, and otherwise the call frees it.

The model runs any number of threads on one directory, each with a program
of calls (`DirentCall`): `zfs_dirent_lock`, then, when it returns 0, one use
of the entry (callers such as `zfs_link_create` read `dl->dl_name`), then
`zfs_dirent_unlock`. A step is one pass of the lock's loop or one call of the
unlock, atomic under `z_lock`; the part of `zfs_dirent_lock` before the loop
and its lookup after it are steps of their own. A thread in `cv_wait` cannot
step while its entry is in the list. Entries and name buffers live in
`Kmem` arenas, so a read or a free of freed memory is a fault of the step
(`DlFault`). The caller's buffer (`cnp->cn_nameptr`) is allocated when the call
starts and freed when it ends. What the name cache, the ZAP (or, for
`ZXATTR`, the SA lookup) and `zfs_zget` answer is part of each call.
`is_ascii_str` and `utf8_normalizestr` are parameters.

* `zfs_dirent_lock_nfc_freed`: two shared lookups of one non-ASCII name. The
  first creates the entry with its NFC buffer as `dl_name`. The second finds
  the entry, frees its own NFC buffer as unused, and joins without a copy
  because `dl_namesize` is already set. Its local `name` still points to the
  freed buffer, and its `zap_lookup` reads it.
-/

namespace ZfsOsx.Zpl

open Kmem (Arena)

/-- `ZNEW`, `ZEXISTS`, `ZSHARED` and `ZXATTR` (sys/zfs_dir.h:38-41). -/
def zNew : ℕ := 0x0001
def zExists : ℕ := 0x0002
def zShared : ℕ := 0x0004
def zXattr : ℕ := 0x0008

/-- `ENOENT` and `EEXIST` (sys/errno.h). -/
def enoent : ℕ := 2
def eexist : ℕ := 17

/-- What the name cache answers: a vnode (`cache_lookup` returns -1), a
negative entry (`ENOENT`), or nothing (0). -/
inductive CacheAnswer
  | hit
  | negative
  | miss
  deriving DecidableEq, Repr

/-- One call of a caller: the name and flags of its `zfs_dirent_lock`, and
what the name cache, `zap_lookup` (`sa_lookup` for `ZXATTR`, with the object
it finds) and `zfs_zget` answer it. -/
structure DirentCall where
  name : List UInt8
  flag : ℕ
  cache : CacheAnswer
  zapErr : ℕ
  zoid : ℕ
  zgetErr : ℕ
  deriving DecidableEq, Repr

namespace DirentCall

/-- The call is `ZSHARED`. -/
def shared (c : DirentCall) : Bool := c.flag &&& zShared != 0

/-- The name the call locks: `""` for `ZXATTR`, whose `cnp` is NULL.
mirrors module/zfs/zfs_dir.c:118 -/
def lockName (c : DirentCall) : List UInt8 := if c.flag &&& zXattr != 0 then [] else c.name

end DirentCall

/-- A `zfs_dirlock_t`: the address of its name buffer, `dl_sharecnt` and
`dl_namesize` (set when the entry owns its name buffer).
mirrors include/sys/zfs_znode.h:180-188 -/
structure Dirlock where
  name : ℕ
  sharecnt : ℕ
  namesize : ℕ
  deriving DecidableEq, Repr

/-- Where a thread is: between calls; in the loop of `zfs_dirent_lock` with
its local `name` and the NFC buffer it still owns; in `cv_wait` on entry
`dl`; past the loop holding `dl`, before the lookup; on an error path, about
to unlock `dl` and return `err`; holding `dl` after a return of 0; about to
unlock `dl` after using it. -/
inductive DlPc
  | idle
  | loop (name : ℕ) (nfc : Option ℕ)
  | wait (dl name : ℕ) (nfc : Option ℕ)
  | lookup (dl name : ℕ)
  | unlock (dl err : ℕ)
  | held (dl : ℕ)
  | release (dl : ℕ)
  deriving DecidableEq, Repr

/-- A thread: the calls it still makes (the current one first), where it is,
the address of its caller's name buffer, and what its calls returned. -/
structure DlThread where
  prog : List DirentCall
  pc : DlPc
  caller : ℕ
  rets : List ℕ
  deriving DecidableEq, Repr

/-- A directory znode and the threads that lock its names: `z_dirlocks` (the
addresses of its entries, head first), the arenas of entries and of name
buffers, `z_unlinked`, whether it has the `.zfs` directory, the read holds on
`z_name_lock`, and the threads. -/
structure DirSys where
  dirlocks : List ℕ
  dls : Arena Dirlock
  bufs : Arena (List UInt8)
  unlinked : Bool
  hasCtldir : Bool
  nameLock : ℕ
  threads : List DlThread
  deriving DecidableEq, Repr

/-- What a step touches after it was freed: an entry or a name buffer. -/
inductive DlFault
  | dlFreed (dl : ℕ)
  | nameFreed (b : ℕ)
  deriving DecidableEq, Repr

namespace DirSys

/-- A directory with no entry, whose threads are about to make the calls
`progs`. -/
def init (unlinked hasCtldir : Bool) (progs : List (List DirentCall)) : DirSys :=
  ⟨[], Kmem.empty, Kmem.empty, unlinked, hasCtldir, 0, progs.map fun p => ⟨p, .idle, 0, []⟩⟩

/-- Thread `t` becomes `th`. -/
def setThread (s : DirSys) (t : ℕ) (th : DlThread) : DirSys :=
  { s with threads := s.threads.set t th }

/-- Thread `t` returns from its call with `ret`, and the caller frees its
name buffer. -/
def finish (s : DirSys) (t : ℕ) (th : DlThread) (ret : Option ℕ) : DirSys :=
  { s with bufs := s.bufs.free th.caller }.setThread t
    { th with pc := .idle, prog := th.prog.tail, rets := th.rets ++ ret.toList }

end DirSys

/-- The name is `.`, `..`, or `.zfs` in a directory that has it.
mirrors module/zfs/zfs_dir.c:125-128 -/
def reservedName (hasCtldir : Bool) (name : List UInt8) : Bool :=
  name == [46] || name == [46, 46] || hasCtldir && name == [46, 122, 102, 115]

/-- Free `b` if it is live, or the fault of freeing a freed buffer. -/
def kfree (bufs : Arena (List UInt8)) (b : ℕ) : Except DlFault (Arena (List UInt8)) :=
  match bufs.get b with
  | some _ => .ok (bufs.free b)
  | none => .error (.nameFreed b)

/-- The search of `z_dirlocks` for `name` with `strcmp`, which reads each
entry and its `dl_name`.
mirrors module/zfs/zfs_dir.c:178-180 -/
def findDirlock (s : DirSys) (name : List UInt8) : List ℕ → Except DlFault (Option ℕ)
  | [] => .ok none
  | d :: ds =>
    match s.dls.get d with
    | none => .error (.dlFreed d)
    | some dl =>
      match s.bufs.get dl.name with
      | none => .error (.nameFreed dl.name)
      | some n => if name = n then .ok (some d) else findDirlock s name ds

section Steps

variable (isAscii : List UInt8 → Bool) (normalize : List UInt8 → Option (List UInt8))

/-- The part of `zfs_dirent_lock` before its loop: the check for reserved
names, the NFC normalization of a name that is not ASCII, and
`rw_enter(&dzp->z_name_lock, RW_READER)`. A failed normalization frees the
buffer it used at once, which is left out.
mirrors module/zfs/zfs_dir.c:115-169 -/
def direntStart (s : DirSys) (t : ℕ) (th : DlThread) (c : DirentCall) : DirSys :=
  let raw := c.lockName
  let caller := s.bufs.next
  let s := { s with bufs := s.bufs.alloc raw }
  let th := { th with caller := caller }
  if reservedName s.hasCtldir raw then s.finish t th (some eexist)
  else if isAscii raw then
    { s with nameLock := s.nameLock + 1 }.setThread t { th with pc := .loop caller none }
  else
    match normalize raw with
    | some n =>
      let nfc := s.bufs.next
      { s with bufs := s.bufs.alloc n, nameLock := s.nameLock + 1 }.setThread t
        { th with pc := .loop nfc (some nfc) }
    | none => { s with nameLock := s.nameLock + 1 }.setThread t { th with pc := .loop caller none }

/-- Past the loop with entry `d`: an NFC buffer still owned is freed, and a
shared caller counts itself in `dl_sharecnt`; the second shared holder of an
entry whose name is not its own copies `dl_name` into a new buffer and points
both `dl_name` and its local `name` at it.
mirrors module/zfs/zfs_dir.c:207-231 -/
def direntJoin (s : DirSys) (t : ℕ) (th : DlThread) (c : DirentCall) (d name : ℕ)
    (nfc : Option ℕ) : Except DlFault DirSys := do
  let bufs ← match nfc with
    | some b => kfree s.bufs b
    | none => pure s.bufs
  let s := { s with bufs := bufs }
  if c.shared then
    let some dl := s.dls.get d | throw (.dlFreed d)
    let dl := { dl with sharecnt := dl.sharecnt + 1 }
    if 1 < dl.sharecnt ∧ dl.namesize = 0 then
      let some n := s.bufs.get dl.name | throw (.nameFreed dl.name)
      let b := s.bufs.next
      return { s with bufs := s.bufs.alloc n, dls := s.dls.set d { dl with name := b, namesize := n.length + 1 } }.setThread t
        { th with pc := .lookup d b }
    else return { s with dls := s.dls.set d dl }.setThread t { th with pc := .lookup d name }
  else return s.setThread t { th with pc := .lookup d name }

/-- One pass of the loop of `zfs_dirent_lock` under `z_lock`: `ENOENT` in an
unlinked directory; a new entry when no entry has the name, taking over the
NFC buffer; joining a shared entry; else `cv_wait`.
mirrors module/zfs/zfs_dir.c:170-205 -/
def direntLoop (s : DirSys) (t : ℕ) (th : DlThread) (c : DirentCall) (name : ℕ)
    (nfc : Option ℕ) : Except DlFault DirSys := do
  if s.unlinked then
    -- mutex_exit, rw_exit, free the NFC name and return ENOENT
    let bufs ← match nfc with
      | some b => kfree s.bufs b
      | none => pure s.bufs
    return { s with bufs := bufs, nameLock := s.nameLock - 1 }.finish t th (some enoent)
  let some n := s.bufs.get name | throw (.nameFreed name)
  match ← findDirlock s n s.dirlocks with
  | none =>
    let d := s.dls.next
    let namesize := if nfc.isSome then c.name.length + 1 else 0
    let s := { s with dls := s.dls.alloc ⟨name, 0, namesize⟩, dirlocks := d :: s.dirlocks }
    direntJoin s t th c d name none
  | some d =>
    let some dl := s.dls.get d | throw (.dlFreed d)
    if c.shared ∧ dl.sharecnt ≠ 0 then direntJoin s t th c d name nfc
    else return s.setThread t { th with pc := .wait d name nfc }

/-- What the caller does with the answer `err` of its lookup: it returns 0
holding the entry, or unlocks it and returns an error.
mirrors module/zfs/zfs_dir.c:293-330 -/
def direntDecide (s : DirSys) (t : ℕ) (th : DlThread) (c : DirentCall) (d err : ℕ) : DirSys :=
  if err ≠ 0 then
    if err ≠ enoent ∨ c.flag &&& zExists ≠ 0 then s.setThread t { th with pc := .unlock d err }
    else s.setThread t { th with pc := .held d, rets := th.rets ++ [0] }
  else if c.flag &&& zNew ≠ 0 then s.setThread t { th with pc := .unlock d eexist }
  else if c.zgetErr ≠ 0 then s.setThread t { th with pc := .unlock d c.zgetErr }
  else s.setThread t { th with pc := .held d, rets := th.rets ++ [0] }

/-- The lookup after the loop: `sa_lookup` for `ZXATTR`; else the name
cache, and on a miss `zap_lookup`, which reads the local `name`.
mirrors module/zfs/zfs_dir.c:233-291 -/
def direntLookup (s : DirSys) (t : ℕ) (th : DlThread) (c : DirentCall) (d name : ℕ) :
    Except DlFault DirSys :=
  if c.flag &&& zXattr ≠ 0 then
    .ok (direntDecide s t th c d (if c.zapErr ≠ 0 then c.zapErr else if c.zoid = 0 then enoent else 0))
  else
    match c.cache with
    | .hit =>
      if c.flag &&& zNew ≠ 0 then .ok (s.setThread t { th with pc := .unlock d eexist })
      else .ok (s.setThread t { th with pc := .held d, rets := th.rets ++ [0] })
    | .negative => .ok (direntDecide s t th c d enoent)
    | .miss =>
      match s.bufs.get name with
      | none => .error (.nameFreed name)
      | some _ => .ok (direntDecide s t th c d c.zapErr)

/-- `zfs_dirent_unlock` of entry `d`: drop the read hold on `z_name_lock`;
a shared holder that is not the last counts itself out; the last holder
unlinks the entry, wakes its waiters, and frees an owned `dl_name` and the
entry.
mirrors module/zfs/zfs_dir.c:340-364 -/
def direntUnlock (s : DirSys) (d : ℕ) : Except DlFault DirSys := do
  let some dl := s.dls.get d | throw (.dlFreed d)
  let s := { s with nameLock := s.nameLock - 1 }
  if 1 < dl.sharecnt then return { s with dls := s.dls.set d { dl with sharecnt := dl.sharecnt - 1 } }
  let bufs ← if dl.namesize ≠ 0 then kfree s.bufs dl.name else pure s.bufs
  return { s with dirlocks := s.dirlocks.erase d, bufs := bufs, dls := s.dls.free d }

/-- The caller's use of the entry it holds: it reads the entry and its
`dl_name`. -/
def direntUse (s : DirSys) (t : ℕ) (th : DlThread) (d : ℕ) : Except DlFault DirSys :=
  match s.dls.get d with
  | none => .error (.dlFreed d)
  | some dl =>
    match s.bufs.get dl.name with
    | none => .error (.nameFreed dl.name)
    | some _ => .ok (s.setThread t { th with pc := .release d })

/-- One step of thread `t`: `none` when it has nothing to do or sleeps in
`cv_wait` on an entry still in the list, a fault when it touches freed
memory. -/
def dlStep (s : DirSys) (t : ℕ) : Option (Except DlFault DirSys) :=
  match s.threads[t]? with
  | none => none
  | some th =>
    match th.pc, th.prog with
    | .idle, c :: _ => some (.ok (direntStart isAscii normalize s t th c))
    | .loop name nfc, c :: _ => some (direntLoop s t th c name nfc)
    | .wait d name nfc, _ :: _ =>
      if d ∈ s.dirlocks then none else some (.ok (s.setThread t { th with pc := .loop name nfc }))
    | .lookup d name, c :: _ => some (direntLookup s t th c d name)
    | .unlock d err, _ :: _ => some ((direntUnlock s d).map fun s => s.finish t th (some err))
    | .held d, _ :: _ => some (direntUse s t th d)
    | .release d, _ :: _ => some ((direntUnlock s d).map fun s => s.finish t th none)
    | _, [] => none

/-- A schedule run from `s`: `none` as soon as a scheduled thread cannot
step, a fault as soon as one step faults. -/
def dlRun : List ℕ → DirSys → Option (Except DlFault DirSys)
  | [], s => some (.ok s)
  | t :: ts, s =>
    match dlStep isAscii normalize s t with
    | some (.ok s') => dlRun ts s'
    | r => r

end Steps

/-- `is_ascii_str`: every byte below 0x80. -/
def asciiStr (name : List UInt8) : Bool := name.all (· < 0x80)

/-- Two shared lookups of the name "é", already in NFC (0xC3 0xA9), which
`utf8_normalizestr` returns as it is. Thread 0 creates the entry with its NFC
buffer 1 as `dl_name`. Thread 1 finds the entry, frees its NFC buffer 3, and
joins as the second holder with no copy since `dl_namesize` is set; its
`zap_lookup` then reads buffer 3. -/
theorem zfs_dirent_lock_nfc_freed :
    let look : DirentCall := ⟨[0xC3, 0xA9], zExists ||| zShared, .miss, 0, 7, 0⟩
    let s0 := DirSys.init false false [[look], [look]]
    ((dlRun asciiStr some [0, 0, 1, 1] s0).map fun r => r.map fun s =>
      (s.threads.map (·.pc), s.dls.get 0, s.bufs.get 3)) =
      some (.ok ([.lookup 0 1, .lookup 0 3], some ⟨1, 2, 3⟩, none)) ∧
    dlRun asciiStr some [0, 0, 1, 1, 1] s0 = some (.error (.nameFreed 3)) := by
  decide

end ZfsOsx.Zpl
