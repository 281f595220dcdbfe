import Mathlib

/-!
# The SPA config locks (`module/zfs/spa_misc.c:240-374`)

A pool has `SCL_LOCKS` reader/writer locks. A caller takes a mask of them with
`spa_config_enter`, which walks the mask upwards, or with
`spa_config_tryenter`, which gives up at the first busy lock. It drops them
with `spa_config_exit`, which walks the mask downwards. A lock keeps its
holders in the refcount `scl_count`, each hold under the caller's tag, its
writer in `scl_writer`, and the number of writers waiting in
`scl_write_wanted`. A reader waits while a writer holds or wants the lock; a
writer waits while any hold is outstanding, and is counted in
`scl_write_wanted` while it waits.

The model runs any number of threads, each with a program of calls. A step is
one round of a call's loop, atomic under that lock's `scl_lock`, or the start
or end of a call; a thread in `cv_wait` cannot step while its loop's
condition holds. The refcount is a `ZFS_DEBUG` one: the list of its holders'
tags, from which `refcount_remove` takes one hold of the tag, or panics
("No such hold") when there is none. Tags are of any type with decidable
equality: callers pass `FTAG`, the pool or a vdev, and two threads may pass
the same one. Each thread keeps, as a ghost, the holds it took, and the
values its `spa_config_tryenter` calls returned.

* `spa_config_tryenter_drops_hold`: when `spa_config_tryenter` finds lock `i`
  busy it backs out through `spa_config_exit(spa, locks ^ (1 << i), tag)`.
  That mask holds every lock of the call but `i`, so it also drops a hold of
  the tag from each lock above `i`, which the call never took. Thread 0 reads
  lock 1 and thread 1 writes lock 0, both with the tag 0. Thread 2's
  `spa_config_tryenter` of locks 0 and 1 with the same tag returns 0 having
  removed thread 0's hold. Thread 3 then takes lock 1 as a writer while
  thread 0 still reads it. With another tag a `ZFS_DEBUG` kernel panics
  there, and any other kernel decrements the count all the same. The one
  caller in this port, `l2arc_feed_thread`, passes the single lock
  `SCL_L2ARC`, for which the backing-out mask is empty.
-/

namespace ZfsOsx.Spa

/-- `SCL_LOCKS` (include/sys/spa.h:538). -/
def sclLocks : ℕ := 7

/-- `krw_t`. -/
inductive Krw
  | reader
  | writer
  deriving DecidableEq, Repr

/-- `spa_config_lock_t` without its mutex and condition variable: the tags of
the holds in `scl_count`, `scl_writer` and `scl_write_wanted`.
mirrors include/sys/spa_impl.h:70-76 -/
structure SclLock (τ : Type) where
  count : List τ
  writer : Option ℕ
  writeWanted : ℕ
  deriving DecidableEq, Repr

variable {τ : Type} [DecidableEq τ]

/-- A lock as `spa_config_lock_init` leaves it.
mirrors module/zfs/spa_misc.c:245-258 -/
def SclLock.init : SclLock τ := ⟨[], none, 0⟩

/-- `refcount_remove` of a `ZFS_DEBUG` refcount: one hold of the tag goes;
`none` is its panic when the tag holds none.
mirrors module/zfs/refcount.c:139-190 -/
def refcountRemove (count : List τ) (tag : τ) : Option (List τ) :=
  if tag ∈ count then some (count.erase tag) else none

namespace SclLock

/-- The condition of the reader's `while` in `spa_config_enter` and of its
test in `spa_config_tryenter`: a writer holds or wants the lock.
mirrors module/zfs/spa_misc.c:285, 320 -/
def readerBusy (scl : SclLock τ) : Bool := scl.writer.isSome || scl.writeWanted != 0

/-- The writer's condition: a hold is outstanding (`!refcount_is_zero`).
mirrors module/zfs/spa_misc.c:292, 326 -/
def writerBusy (scl : SclLock τ) : Bool := !scl.count.isEmpty

/-- The condition the caller waits on or gives up at, for `rw`. -/
def busy (scl : SclLock τ) : Krw → Bool
  | .reader => scl.readerBusy
  | .writer => scl.writerBusy

/-- A hold taken by thread `t`: `scl_writer = curthread` for a writer, then
`refcount_add(&scl->scl_count, tag)`.
mirrors module/zfs/spa_misc.c:298-299, 332-334 -/
def add (scl : SclLock τ) (t : ℕ) (tag : τ) : Krw → SclLock τ
  | .reader => { scl with count := tag :: scl.count }
  | .writer => { scl with count := tag :: scl.count, writer := some t }

end SclLock

/-- A call a thread makes, with its lock mask and tag. -/
inductive SclOp (τ : Type)
  | enter (locks : ℕ) (tag : τ) (rw : Krw)
  | tryenter (locks : ℕ) (tag : τ) (rw : Krw)
  | exit (locks : ℕ) (tag : τ)
  deriving DecidableEq, Repr

/-- The tag of a call. -/
def SclOp.tag : SclOp τ → τ
  | .enter _ tag _ | .tryenter _ tag _ | .exit _ tag => tag

/-- Where a thread is: between calls; at lock `i` of the loop of
`spa_config_enter` or of `spa_config_tryenter`; in the writer's `cv_wait` at
lock `i`; or in the loop of `spa_config_exit` over `mask` with the locks
below `k` left to look at, called by a failed `spa_config_tryenter` when
`fromTry`. -/
inductive SclPc
  | idle
  | enterAt (i : ℕ)
  | waitAt (i : ℕ)
  | tryAt (i : ℕ)
  | exitAt (mask k : ℕ) (fromTry : Bool)
  deriving DecidableEq, Repr

/-- A thread: the calls it has still to make (the current one first), where
it is, and two ghosts: the holds it took, by lock, tag and kind, the last
first; and what its `spa_config_tryenter` calls returned. -/
structure SclThread (τ : Type) where
  prog : List (SclOp τ)
  pc : SclPc
  holds : List (ℕ × τ × Krw)
  rets : List Bool
  deriving DecidableEq, Repr

/-- The locks of a pool and the threads that call on them. -/
structure SclSys (τ : Type) where
  scl : List (SclLock τ)
  threads : List (SclThread τ)
  deriving DecidableEq, Repr

namespace SclSys

/-- Lock `i` (`&spa->spa_config_lock[i]`). -/
def lock (s : SclSys τ) (i : ℕ) : SclLock τ := s.scl[i]?.getD SclLock.init

/-- Thread `t` becomes `th`. -/
def setThread (s : SclSys τ) (t : ℕ) (th : SclThread τ) : SclSys τ :=
  { s with threads := s.threads.set t th }

/-- Thread `t` becomes `th` and lock `i` becomes `scl`. -/
def update (s : SclSys τ) (t : ℕ) (th : SclThread τ) (i : ℕ) (scl : SclLock τ) : SclSys τ :=
  ⟨s.scl.set i scl, s.threads.set t th⟩

end SclSys

/-- The first hold of lock `i` with `tag` leaves a thread's ghost holds. -/
def dropHold (holds : List (ℕ × τ × Krw)) (i : ℕ) (tag : τ) : List (ℕ × τ × Krw) :=
  match holds.find? (fun h => h.1 = i ∧ h.2.1 = tag) with
  | some h => holds.erase h
  | none => holds

/-- One step of thread `t`; `none` when it has nothing to do, waits in
`cv_wait` on a condition that still holds, or panics in `refcount_remove`.
mirrors module/zfs/spa_misc.c:275-353 -/
def sclStep (s : SclSys τ) (t : ℕ) : Option (SclSys τ) :=
  match s.threads[t]? with
  | none => none
  | some th =>
    match th.pc, th.prog with
    | .idle, .enter .. :: _ => some (s.setThread t { th with pc := .enterAt 0 })
    | .idle, .tryenter .. :: _ => some (s.setThread t { th with pc := .tryAt 0 })
    | .idle, .exit locks _ :: _ => some (s.setThread t { th with pc := .exitAt locks sclLocks false })
    | .enterAt i, .enter locks tag rw :: p =>
      if sclLocks ≤ i then some (s.setThread t { th with pc := .idle, prog := p })
      else if !locks.testBit i then some (s.setThread t { th with pc := .enterAt (i + 1) })
      else
        let scl := s.lock i
        match rw with
        | .reader =>
          if scl.readerBusy then none
          else some (s.update t { th with pc := .enterAt (i + 1), holds := (i, tag, .reader) :: th.holds }
            i (scl.add t tag .reader))
        | .writer =>
          -- `scl_write_wanted++` before `cv_wait`
          if scl.writerBusy then
            some (s.update t { th with pc := .waitAt i } i { scl with writeWanted := scl.writeWanted + 1 })
          else some (s.update t { th with pc := .enterAt (i + 1), holds := (i, tag, .writer) :: th.holds }
            i (scl.add t tag .writer))
    | .waitAt i, .enter _ tag _ :: _ =>
      let scl := s.lock i
      -- woken with no hold outstanding: `scl_write_wanted--`, and the lock is taken
      if scl.writerBusy then none
      else some (s.update t { th with pc := .enterAt (i + 1), holds := (i, tag, .writer) :: th.holds }
        i ({ scl with writeWanted := scl.writeWanted - 1 }.add t tag .writer))
    | .tryAt i, .tryenter locks tag rw :: p =>
      if sclLocks ≤ i then some (s.setThread t { th with pc := .idle, prog := p, rets := th.rets ++ [true] })
      else if !locks.testBit i then some (s.setThread t { th with pc := .tryAt (i + 1) })
      else
        let scl := s.lock i
        -- a busy lock: `spa_config_exit(spa, locks ^ (1 << i), tag)`, then `return (0)`
        if scl.busy rw then some (s.setThread t { th with pc := .exitAt (locks ^^^ (1 <<< i)) sclLocks true })
        else some (s.update t { th with pc := .tryAt (i + 1), holds := (i, tag, rw) :: th.holds }
          i (scl.add t tag rw))
    | .exitAt _ 0 fromTry, _ :: p =>
      let rets := if fromTry then th.rets ++ [false] else th.rets
      some (s.setThread t { th with pc := .idle, prog := p, rets := rets })
    | .exitAt mask (k + 1) fromTry, op :: _ =>
      if !mask.testBit k then some (s.setThread t { th with pc := .exitAt mask k fromTry })
      else
        let scl := s.lock k
        match refcountRemove scl.count op.tag with
        | none => none
        | some count =>
          -- the last hold gone: `scl_writer = NULL`, `cv_broadcast`
          some (s.update t { th with pc := .exitAt mask k fromTry, holds := dropHold th.holds k op.tag }
            k { scl with count := count, writer := if count = [] then none else scl.writer })
    | _, _ => none

/-- A schedule run from `s`: `none` as soon as a scheduled thread cannot
step. -/
def sclRun : List ℕ → SclSys τ → Option (SclSys τ)
  | [], s => some s
  | t :: ts, s => (sclStep s t).bind (sclRun ts)

/-- A failed `spa_config_tryenter` drops a hold it never took, and mutual
exclusion is lost. All four threads use the tag 0. Thread 0 takes lock 1 as
a reader, and thread 1 takes lock 0 as a writer. Thread 2's
`spa_config_tryenter` of locks 0 and 1 finds lock 0 written, backs out
through the mask `{1}`, and returns 0 with thread 0's hold of lock 1 gone.
Thread 3 then takes lock 1 as a writer while thread 0 still reads it. -/
theorem spa_config_tryenter_drops_hold :
    let s0 : SclSys ℕ := ⟨List.replicate sclLocks SclLock.init,
      [⟨[.enter 2 0 .reader], .idle, [], []⟩, ⟨[.enter 1 0 .writer], .idle, [], []⟩,
        ⟨[.tryenter 3 0 .reader], .idle, [], []⟩, ⟨[.enter 2 0 .writer], .idle, [], []⟩]⟩
    let held := List.replicate 9 0 ++ List.replicate 9 1
    (sclRun held s0).map (fun s => (s.lock 1).count) = some [0] ∧
    (sclRun (held ++ List.replicate 10 2) s0).map (fun s =>
      ((s.lock 1).count, s.threads.map (·.rets))) = some ([], [[], [], [false], []]) ∧
    (sclRun (held ++ List.replicate 10 2 ++ List.replicate 9 3) s0).map (fun s =>
      ((s.lock 1).writer, s.threads.map (·.holds))) =
      some (some 3, [[(1, 0, .reader)], [(0, 0, .writer)], [], [(1, 0, .writer)]]) := by
  decide

end ZfsOsx.Spa
