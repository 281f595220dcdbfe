import Mathlib

/-!
# Re-entrant reader/writer locks (`module/zfs/rrwlock.c`)

An `rrwlock_t` is a reader/writer lock on which a thread that holds a read
hold may take another, even while a writer waits. Readers count themselves in
`rr_anon_rcount` while no writer waits, and in `rr_linked_rcount`, with a node
on the thread's tsd list, while one does; `rrw_exit` looks for the node to
know which count to drop, and `rrw_enter_read` looks for it to let a
re-entering reader pass a waiting writer. In this port the tsd calls are
commented out: `rrn_find` and `rrn_find_and_remove` never find a node.

The model runs any number of threads, each with a program of `rrw_enter` and
`rrw_exit` calls; a step is one call of one thread, atomic under `rr_lock`,
and a thread in `cv_wait` cannot step while its loop's condition holds. Each
thread keeps, as a ghost, the holds it has and which count each went to.
`fast` selects the non-DEBUG kernel's fast paths.

* `rrwStep_fast`: in this port the fast paths do what the slow ones do.
* `RwInv.step`, `rrwRun_inv`, `rrw_writer_exclusive`: in every reachable
  state a writer is alone: no other thread has a hold of any kind. A writer
  gets the lock only with no read hold outstanding.
* `rrw_reentrant_read_blocks`: the promise of the file comment fails. Thread
  0 reads, thread 1 waits to write, thread 2 reads (a linked hold), thread 0
  leaves, dropping the anonymous count to 0; thread 2's second read then
  blocks behind the waiting writer, which waits for thread 2: no thread can
  move. `rrw_writer_starves`: when thread 2 leaves instead, its exit drops
  `rr_anon_rcount` below 0, `rr_linked_rcount` stays 1, and the writer waits
  with no hold outstanding.
-/

namespace ZfsOsx.Sync

/-- `rrwlock_t`: the writer's thread id, the two read counts and
`rr_writer_wanted`. The counts are integers: a non-DEBUG kernel's
`refcount_t` is a bare `uint64_t`, which `refcount_remove` takes below 0 by
wrapping, and `refcount_count(rc) > 0` then reads `rc != 0`.
mirrors include/sys/rrwlock.h:55-61 -/
structure Rrwlock where
  writer : Option ℕ
  anonRcount : ℤ
  linkedRcount : ℤ
  writerWanted : Bool
  deriving DecidableEq, Repr

/-- `rrw_init`.
mirrors module/zfs/rrwlock.c:136-145 -/
def rrwInit : Rrwlock := ⟨none, 0, 0, false⟩

/-- `rrn_find(rrl)`: `NULL` on both of its paths, the walk of the thread's
tsd list being commented out.
mirrors module/zfs/rrwlock.c:79-92 -/
def rrnFind (_ : Rrwlock) : Bool := false

/-- `rrn_find_and_remove(rrl)`: `B_FALSE` on both of its paths, the walk
being under `#if 0`.
mirrors module/zfs/rrwlock.c:111-134 -/
def rrnFindAndRemove (_ : Rrwlock) : Bool := false

namespace Rrwlock

/-- The condition of the `while` loop of `rrw_enter_read`: the reader waits.
mirrors module/zfs/rrwlock.c:170-173 -/
def readBlocked (rrl : Rrwlock) : Bool :=
  rrl.writer.isSome || (rrl.writerWanted && rrl.anonRcount == 0 && !rrnFind rrl)

/-- `rrw_enter_read` after its loop: a hold taken while a writer waits counts
as linked (`rrn_add` keeps no node in this port), any other as anonymous.
mirrors module/zfs/rrwlock.c:175-181 -/
def readAcquire (rrl : Rrwlock) : Rrwlock × Bool :=
  if rrl.writerWanted then ({ rrl with linkedRcount := rrl.linkedRcount + 1 }, true)
  else ({ rrl with anonRcount := rrl.anonRcount + 1 }, false)

/-- The condition of the `while` loop of `rrw_enter_write`.
mirrors module/zfs/rrwlock.c:192-194 -/
def writeBlocked (rrl : Rrwlock) : Bool :=
  rrl.anonRcount != 0 || rrl.linkedRcount != 0 || rrl.writer.isSome

/-- `rrw_exit` on the lock, with the non-DEBUG fast path when `fast`.
mirrors module/zfs/rrwlock.c:214-248 -/
def exit (fast : Bool) (rrl : Rrwlock) : Rrwlock :=
  if fast && rrl.writer.isNone && rrl.linkedRcount == 0 then
    { rrl with anonRcount := rrl.anonRcount - 1 }
  else if rrl.writer.isNone then
    if rrnFindAndRemove rrl then { rrl with linkedRcount := rrl.linkedRcount - 1 }
    else { rrl with anonRcount := rrl.anonRcount - 1 }
  else { rrl with writer := none }

end Rrwlock

/-! ## Threads -/

/-- A call a thread makes. -/
inductive RwOp
  | enterRead
  | enterWrite
  | exit
  deriving DecidableEq, Repr

/-- A hold a thread has: a read hold counted in `rr_anon_rcount`, one counted
in `rr_linked_rcount`, or the write hold. -/
inductive Hold
  | anon
  | linked
  | write
  deriving DecidableEq, Repr

/-- Where a thread is: between calls, or in the `cv_wait` of an enter. -/
inductive RwPc
  | run
  | waitRead
  | waitWrite
  deriving DecidableEq, Repr

/-- A thread: the calls it has still to make, where it is, and (a ghost) the
holds it has, the last taken first. -/
structure RwThread where
  prog : List RwOp
  pc : RwPc
  holds : List Hold
  deriving DecidableEq, Repr

structure RwSys where
  lock : Rrwlock
  threads : List RwThread
  deriving DecidableEq, Repr

/-- The system after thread `t` became `th` and the lock `rrl`. -/
def RwSys.update (s : RwSys) (t : ℕ) (th : RwThread) (rrl : Rrwlock) : RwSys :=
  ⟨rrl, s.threads.set t th⟩

@[simp] theorem RwSys.update_lock (s : RwSys) (t : ℕ) (th : RwThread) (rrl : Rrwlock) :
    (s.update t th rrl).lock = rrl := rfl

/-- The hold a read takes, from whether `readAcquire` counted it linked. -/
def readHold (linked : Bool) : Hold := if linked then .linked else .anon

/-- One step of thread `t`, atomic under `rr_lock`: its next call, or the end
of its `cv_wait`. `none` when the thread has nothing to do or waits on a
condition that still holds.
mirrors module/zfs/rrwlock.c:157-248 -/
def rrwStep (fast : Bool) (s : RwSys) (t : ℕ) : Option RwSys :=
  match s.threads[t]? with
  | none => none
  | some th =>
    match th.pc, th.prog with
    | .run, .enterRead :: p =>
      if fast && s.lock.writer.isNone && !s.lock.writerWanted then
        some (s.update t ⟨p, .run, .anon :: th.holds⟩
          { s.lock with anonRcount := s.lock.anonRcount + 1 })
      else if s.lock.readBlocked then some (s.update t { th with pc := .waitRead } s.lock)
      else
        let r := s.lock.readAcquire
        some (s.update t ⟨p, .run, readHold r.2 :: th.holds⟩ r.1)
    | .waitRead, .enterRead :: p =>
      if s.lock.readBlocked then none
      else
        let r := s.lock.readAcquire
        some (s.update t ⟨p, .run, readHold r.2 :: th.holds⟩ r.1)
    | .run, .enterWrite :: p =>
      if s.lock.writeBlocked then
        some (s.update t { th with pc := .waitWrite } { s.lock with writerWanted := true })
      else
        some (s.update t ⟨p, .run, .write :: th.holds⟩
          { s.lock with writerWanted := false, writer := some t })
    | .waitWrite, .enterWrite :: p =>
      if s.lock.writeBlocked then none
      else
        some (s.update t ⟨p, .run, .write :: th.holds⟩
          { s.lock with writerWanted := false, writer := some t })
    | .run, .exit :: p => some (s.update t ⟨p, .run, th.holds.tail⟩ (s.lock.exit fast))
    | _, _ => none

/-- A schedule run from `s`: `none` as soon as a scheduled thread cannot
step. -/
def rrwRun (fast : Bool) : List ℕ → RwSys → Option RwSys
  | [], s => some s
  | t :: ts, s => (rrwStep fast s t).bind (rrwRun fast ts)

/-- No thread can step, though one has calls left to make. -/
def Deadlocked (fast : Bool) (s : RwSys) : Bool :=
  (List.range s.threads.length).all (fun t => (rrwStep fast s t).isNone) &&
    s.threads.any (fun th => !th.prog.isEmpty)

/-- Whether a thread's calls nest as the lock's contract asks: an exit for
each enter, no read taken under the write hold and no write under a read
hold, nothing held at the end. A read may count either way, so both are
checked.
mirrors module/zfs/rrwlock.c:38-43 -/
@[grind] def progOk : List Hold → List RwOp → Bool
  | hs, [] => hs.isEmpty
  | hs, .enterRead :: p => !hs.contains .write && progOk (.anon :: hs) p && progOk (.linked :: hs) p
  | hs, .enterWrite :: p => hs.isEmpty && progOk [.write] p
  | hs, .exit :: p => !hs.isEmpty && progOk hs.tail p

/-! ## The fast paths -/

theorem Rrwlock.exit_fast (rrl : Rrwlock) : rrl.exit true = rrl.exit false := by
  unfold Rrwlock.exit
  by_cases hw : rrl.writer.isNone <;> by_cases hl : rrl.linkedRcount = 0 <;> simp [hw, hl, rrnFindAndRemove]

/-- In this port the non-DEBUG fast paths take the branch the slow paths
take: a read with no writer and none waiting is anonymous either way, and an
exit with no linked reader drops the anonymous count either way. -/
theorem rrwStep_fast (s : RwSys) (t : ℕ) : rrwStep true s t = rrwStep false s t := by
  unfold rrwStep
  split
  · rfl
  · rename_i th _
    split
    · by_cases hf : s.lock.writer.isNone && !s.lock.writerWanted
      · have hb : s.lock.readBlocked = false := by
          simp only [Bool.and_eq_true, Bool.not_eq_eq_eq_not, Bool.not_true] at hf
          simp [Rrwlock.readBlocked, hf.2, Option.isNone_iff_eq_none.mp hf.1]
        have ha : s.lock.readAcquire = ({ s.lock with anonRcount := s.lock.anonRcount + 1 }, false) := by
          simp only [Bool.and_eq_true, Bool.not_eq_eq_eq_not, Bool.not_true] at hf
          simp [Rrwlock.readAcquire, hf.2]
        simp only [Bool.true_and, hf, if_true, Bool.false_and, if_false, hb, Bool.false_eq_true, ha,
          readHold]
      · simp only [Bool.true_and, hf, Bool.false_eq_true, if_false, Bool.false_and]
    all_goals simp only [Rrwlock.exit_fast]

/-! ## Counting holds -/

/-- The holds of kind `k` the threads have. -/
@[grind] def holdCount (k : Hold) (s : RwSys) : ℕ := (s.threads.map fun th => th.holds.count k).sum

theorem sum_map_set_add {α : Type*} (f : α → ℕ) :
    ∀ (l : List α) (t : ℕ) {x : α}, l[t]? = some x → ∀ y : α,
      ((l.set t y).map f).sum + f x = (l.map f).sum + f y
  | [], _, _, hx, _ => by simp at hx
  | a :: l, 0, x, hx, y => by
    simp only [List.getElem?_cons_zero, Option.some.injEq] at hx
    subst hx
    simp only [List.set_cons_zero, List.map_cons, List.sum_cons]
    omega
  | a :: l, t + 1, x, hx, y => by
    simp only [List.getElem?_cons_succ] at hx
    have := sum_map_set_add f l t hx y
    simp only [List.set_cons_succ, List.map_cons, List.sum_cons]
    omega

theorem holdCount_update (k : Hold) {s : RwSys} {t : ℕ} {th : RwThread}
    (ht : s.threads[t]? = some th) (th' : RwThread) (rrl : Rrwlock) :
    holdCount k (s.update t th' rrl) + th.holds.count k = holdCount k s + th'.holds.count k :=
  sum_map_set_add (fun th => th.holds.count k) s.threads t ht th'

/-- The holds do not depend on the lock. -/
theorem holdCount_update_lock (k : Hold) (s : RwSys) (t : ℕ) (th : RwThread) (rrl rrl' : Rrwlock) :
    holdCount k (s.update t th rrl) = holdCount k (s.update t th rrl') := rfl

/-- With no thread holding anything, no hold of any kind is counted. -/
theorem holdCount_of_holds_nil (s : RwSys) (h : ∀ th ∈ s.threads, th.holds = []) (k : Hold) :
    holdCount k s = 0 := by
  apply List.sum_eq_zero
  intro n hn
  obtain ⟨th, hth, rfl⟩ := List.mem_map.mp hn
  simp [h th hth]

/-- A thread's holds of kind `k` are among all holds of kind `k`. -/
theorem count_le_holdCount {s : RwSys} {t : ℕ} {th : RwThread} (ht : s.threads[t]? = some th)
    (k : Hold) : th.holds.count k ≤ holdCount k s :=
  List.le_sum_of_mem (List.mem_map.mpr ⟨th, List.mem_of_getElem? ht, rfl⟩)

theorem update_getElem? {s : RwSys} {t : ℕ} {th : RwThread} (ht : s.threads[t]? = some th)
    (th' : RwThread) (rrl : Rrwlock) (t' : ℕ) :
    (s.update t th' rrl).threads[t']? = if t = t' then some th' else s.threads[t']? := by
  have hlt : t < s.threads.length := (List.getElem?_eq_some_iff.mp ht).1
  simp only [RwSys.update, List.getElem?_set]
  split_ifs <;> simp_all

/-- A hold list with no read and no write hold in it is empty. -/
theorem holds_eq_nil {hs : List Hold} (ha : hs.count .anon = 0) (hl : hs.count .linked = 0)
    (hw : Hold.write ∉ hs) : hs = [] := by
  cases hs with
  | nil => rfl
  | cons k hs =>
    cases k with
    | anon => simp at ha
    | linked => simp at hl
    | write => simp at hw

/-! ## A writer is alone -/

/-- What one step of thread `t` can do: a reader or a writer starts to wait,
takes its hold, or a thread exits. -/
theorem rrwStep_cases {s s' : RwSys} {t : ℕ} (h : rrwStep false s t = some s') :
    ∃ th, s.threads[t]? = some th ∧
      ((∃ p, th.prog = .enterRead :: p ∧ s.lock.readBlocked = true ∧
          s' = s.update t { th with pc := .waitRead } s.lock) ∨
        (∃ p, th.prog = .enterRead :: p ∧ s.lock.readBlocked = false ∧
          s' = s.update t ⟨p, .run, readHold s.lock.readAcquire.2 :: th.holds⟩
            s.lock.readAcquire.1) ∨
        (∃ p, th.prog = .enterWrite :: p ∧ s.lock.writeBlocked = true ∧
          s' = s.update t { th with pc := .waitWrite } { s.lock with writerWanted := true }) ∨
        (∃ p, th.prog = .enterWrite :: p ∧ s.lock.writeBlocked = false ∧
          s' = s.update t ⟨p, .run, .write :: th.holds⟩
            { s.lock with writerWanted := false, writer := some t }) ∨
        (∃ p, th.prog = .exit :: p ∧
          s' = s.update t ⟨p, .run, th.holds.tail⟩ (s.lock.exit false))) := by
  unfold rrwStep at h
  split at h
  · cases h
  · rename_i th hth
    refine ⟨th, hth, ?_⟩
    split at h
    · rename_i p _ hp
      simp only [Bool.false_and, Bool.false_eq_true, if_false] at h
      split at h
      · rename_i hb
        exact .inl ⟨p, hp, hb, (Option.some.inj h).symm⟩
      · rename_i hb
        exact .inr (.inl ⟨p, hp, eq_false_of_ne_true hb, (Option.some.inj h).symm⟩)
    · rename_i p _ hp
      split at h
      · cases h
      · rename_i hb
        exact .inr (.inl ⟨p, hp, eq_false_of_ne_true hb, (Option.some.inj h).symm⟩)
    · rename_i p _ hp
      split at h
      · rename_i hb
        exact .inr (.inr (.inl ⟨p, hp, hb, (Option.some.inj h).symm⟩))
      · rename_i hb
        exact .inr (.inr (.inr (.inl ⟨p, hp, eq_false_of_ne_true hb, (Option.some.inj h).symm⟩)))
    · rename_i p _ hp
      split at h
      · cases h
      · rename_i hb
        exact .inr (.inr (.inr (.inl ⟨p, hp, eq_false_of_ne_true hb, (Option.some.inj h).symm⟩)))
    · rename_i p _ hp
      exact .inr (.inr (.inr (.inr ⟨p, hp, (Option.some.inj h).symm⟩)))
    · cases h

/-- What every reachable state satisfies: the writer holds the write hold
and nothing else is held; while no reader was ever counted linked, the
anonymous count is the number of read holds; the linked count is not
negative; every thread's remaining calls nest. -/
structure RwInv (s : RwSys) : Prop where
  writer_alone : ∀ w, s.lock.writer = some w → ∀ (t : ℕ) (th : RwThread), s.threads[t]? = some th →
    th.holds = if t = w then [.write] else []
  write_writer : ∀ (t : ℕ) (th : RwThread), s.threads[t]? = some th → Hold.write ∈ th.holds → s.lock.writer = some t
  counts : s.lock.linkedRcount = 0 →
    s.lock.anonRcount = holdCount .anon s ∧ holdCount .linked s = 0
  linked_nonneg : 0 ≤ s.lock.linkedRcount
  prog_ok : ∀ (t : ℕ) (th : RwThread), s.threads[t]? = some th → progOk th.holds th.prog = true

theorem update_lookup {s : RwSys} {t : ℕ} {th : RwThread} (ht : s.threads[t]? = some th)
    {th' : RwThread} {rrl : Rrwlock} {t' : ℕ} {x : RwThread}
    (hx : (s.update t th' rrl).threads[t']? = some x) :
    (t' = t ∧ x = th') ∨ (t' ≠ t ∧ s.threads[t']? = some x) := by
  rw [update_getElem? ht] at hx
  split_ifs at hx with heq
  · exact .inl ⟨heq.symm, (Option.some.inj hx).symm⟩
  · exact .inr ⟨Ne.symm heq, hx⟩

namespace RwInv

variable {s : RwSys} {t : ℕ} {th : RwThread}

/-- A thread that starts to wait keeps its holds and calls, and the counts
and the writer stay. -/
theorem wait (hi : RwInv s) (ht : s.threads[t]? = some th) {th' : RwThread}
    (hh : th'.holds = th.holds) (hp : th'.prog = th.prog) {rrl : Rrwlock}
    (hw : rrl.writer = s.lock.writer) (ha : rrl.anonRcount = s.lock.anonRcount)
    (hl : rrl.linkedRcount = s.lock.linkedRcount) : RwInv (s.update t th' rrl) where
  writer_alone w hw' t' x hx := by
    rw [RwSys.update_lock, hw] at hw'
    rcases update_lookup ht hx with ⟨rfl, rfl⟩ | ⟨-, hx⟩
    · rw [hh]
      exact hi.writer_alone w hw' t' th ht
    · exact hi.writer_alone w hw' t' x hx
  write_writer t' x hx hwx := by
    rw [RwSys.update_lock, hw]
    rcases update_lookup ht hx with ⟨rfl, rfl⟩ | ⟨-, hx⟩
    · exact hi.write_writer t' th ht (hh ▸ hwx)
    · exact hi.write_writer t' x hx hwx
  counts hl0 := by
    rw [RwSys.update_lock, hl] at hl0
    have hca := holdCount_update .anon ht th' rrl
    have hcl := holdCount_update .linked ht th' rrl
    rw [hh] at hca hcl
    obtain ⟨h1, h2⟩ := hi.counts hl0
    rw [RwSys.update_lock, ha, h1]
    exact ⟨by omega, by omega⟩
  linked_nonneg := by
    rw [RwSys.update_lock, hl]
    exact hi.linked_nonneg
  prog_ok t' x hx := by
    rcases update_lookup ht hx with ⟨rfl, rfl⟩ | ⟨-, hx⟩
    · rw [hh, hp]
      exact hi.prog_ok t' th ht
    · exact hi.prog_ok t' x hx

/-- A read hold `k` taken with no writer: the linked count stays not
negative, and while it is 0 the hold is anonymous and counted. -/
theorem addRead (hi : RwInv s) (ht : s.threads[t]? = some th) {p : List RwOp}
    (hnw : s.lock.writer = none) {k : Hold}
    (hk : progOk (k :: th.holds) p = true) (hkw : k ≠ .write) {rrl : Rrwlock}
    (hw : rrl.writer = none) (hnn : 0 ≤ rrl.linkedRcount)
    (hc : rrl.linkedRcount = 0 →
      s.lock.linkedRcount = 0 ∧ k = .anon ∧ rrl.anonRcount = s.lock.anonRcount + 1) :
    RwInv (s.update t ⟨p, .run, k :: th.holds⟩ rrl) where
  writer_alone w hw' := by
    rw [RwSys.update_lock, hw] at hw'
    cases hw'
  write_writer t' x hx hwx := by
    exfalso
    rcases update_lookup ht hx with ⟨rfl, rfl⟩ | ⟨-, hx⟩
    · rcases List.mem_cons.mp hwx with h | h
      · exact hkw h.symm
      · simp [hi.write_writer t' th ht h] at hnw
    · simp [hi.write_writer t' x hx hwx] at hnw
  counts hl0 := by
    rw [RwSys.update_lock] at hl0 ⊢
    obtain ⟨hl, rfl, ha⟩ := hc hl0
    obtain ⟨h1, h2⟩ := hi.counts hl
    have hca := holdCount_update .anon ht ⟨p, .run, .anon :: th.holds⟩ rrl
    have hcl := holdCount_update .linked ht ⟨p, .run, .anon :: th.holds⟩ rrl
    simp only [List.count_cons_self, List.count_cons, beq_iff_eq, reduceCtorEq, if_false,
      Nat.add_zero] at hca hcl
    rw [ha, h1]
    exact ⟨by omega, by omega⟩
  linked_nonneg := hnn
  prog_ok t' x hx := by
    rcases update_lookup ht hx with ⟨rfl, rfl⟩ | ⟨-, hx⟩
    · exact hk
    · exact hi.prog_ok t' x hx

/-- A reader that gets past the loop: there is no writer, and the hold goes
to the count `readAcquire` bumps. -/
theorem readAcquire (hi : RwInv s) (ht : s.threads[t]? = some th) {p : List RwOp}
    (hp : th.prog = .enterRead :: p) (hb : s.lock.readBlocked = false) :
    RwInv (s.update t ⟨p, .run, readHold s.lock.readAcquire.2 :: th.holds⟩
      s.lock.readAcquire.1) := by
  have hnw : s.lock.writer = none := by
    simp only [Rrwlock.readBlocked, Bool.or_eq_false_iff, Option.isSome_eq_false_iff,
      Option.isNone_iff_eq_none] at hb
    exact hb.1
  have hok := hi.prog_ok t th ht
  rw [hp] at hok
  simp only [progOk, Bool.and_eq_true] at hok
  have hnn := hi.linked_nonneg
  cases hwant : s.lock.writerWanted
  · simp only [Rrwlock.readAcquire, hwant, Bool.false_eq_true, if_false, readHold]
    exact hi.addRead ht hnw hok.1.2 (by decide) hnw hnn fun hl0 => ⟨hl0, rfl, rfl⟩
  · simp only [Rrwlock.readAcquire, hwant, if_true, readHold]
    exact hi.addRead ht hnw hok.2 (by decide) hnw (by dsimp only; omega)
      fun hl0 => by dsimp only at hl0; omega

/-- With both counts 0 and no writer, no thread holds anything. -/
theorem holds_nil_of_free (hi : RwInv s) (ha : s.lock.anonRcount = 0)
    (hl : s.lock.linkedRcount = 0) (hw : s.lock.writer = none) (t' : ℕ) (x : RwThread)
    (hx : s.threads[t']? = some x) : x.holds = [] := by
  obtain ⟨h1, h2⟩ := hi.counts hl
  have hca := count_le_holdCount hx .anon
  have hcl := count_le_holdCount hx .linked
  refine holds_eq_nil (by omega) (by omega) fun hm => ?_
  simp [hi.write_writer t' x hx hm] at hw

/-- A writer that gets past the loop found no hold at all, and it is alone
after. -/
theorem writeAcquire (hi : RwInv s) (ht : s.threads[t]? = some th) {p : List RwOp}
    (hp : th.prog = .enterWrite :: p) (hb : s.lock.writeBlocked = false) :
    RwInv (s.update t ⟨p, .run, .write :: th.holds⟩
      { s.lock with writerWanted := false, writer := some t }) := by
  simp only [Rrwlock.writeBlocked, Bool.or_eq_false_iff, bne_eq_false_iff_eq,
    Option.isSome_eq_false_iff, Option.isNone_iff_eq_none] at hb
  obtain ⟨⟨ha, hl⟩, hw⟩ := hb
  have hnil := hi.holds_nil_of_free ha hl hw
  have hth : th.holds = [] := hnil t th ht
  have hok := hi.prog_ok t th ht
  rw [hp, hth] at hok
  simp only [progOk, List.isEmpty_nil, Bool.true_and] at hok
  rw [hth]
  have hca := holdCount_update .anon ht ⟨p, .run, [.write]⟩ s.lock
  have hcl := holdCount_update .linked ht ⟨p, .run, [.write]⟩ s.lock
  obtain ⟨h1, h2⟩ := hi.counts hl
  simp only [hth, List.count_cons, List.count_nil, beq_iff_eq, reduceCtorEq, if_false] at hca hcl
  constructor
  · intro w hw' t' x hx
    rw [RwSys.update_lock] at hw'
    cases hw'
    rcases update_lookup ht hx with ⟨rfl, rfl⟩ | ⟨hne, hx⟩
    · simp
    · simp [hne, hnil t' x hx]
  · intro t' x hx hwx
    rcases update_lookup ht hx with ⟨rfl, rfl⟩ | ⟨-, hx⟩
    · rfl
    · simp [hnil t' x hx] at hwx
  · intro _
    rw [RwSys.update_lock, holdCount_update_lock .anon s t _ _ s.lock,
      holdCount_update_lock .linked s t _ _ s.lock]
    exact ⟨by dsimp only; omega, by omega⟩
  · rw [RwSys.update_lock]
    dsimp only
    omega
  · intro t' x hx
    rcases update_lookup ht hx with ⟨rfl, rfl⟩ | ⟨-, hx⟩
    · exact hok
    · exact hi.prog_ok t' x hx

/-- An exit: the writer's drops the write hold; any other is a read, whose
hold the anonymous count pays for. -/
theorem exit (hi : RwInv s) (ht : s.threads[t]? = some th) {p : List RwOp}
    (hp : th.prog = .exit :: p) :
    RwInv (s.update t ⟨p, .run, th.holds.tail⟩ (s.lock.exit false)) := by
  have hok := hi.prog_ok t th ht
  rw [hp] at hok
  simp only [progOk, Bool.and_eq_true, Bool.not_eq_eq_eq_not, Bool.not_true,
    List.isEmpty_eq_false_iff] at hok
  obtain ⟨hne, hok⟩ := hok
  have hca := holdCount_update .anon ht ⟨p, .run, th.holds.tail⟩ s.lock
  have hcl := holdCount_update .linked ht ⟨p, .run, th.holds.tail⟩ s.lock
  cases hw : s.lock.writer with
  | some w =>
    have hth := hi.writer_alone w hw t th ht
    have htw : t = w := by
      by_contra h
      rw [if_neg h] at hth
      exact hne hth
    rw [if_pos htw] at hth
    have hlock : s.lock.exit false = { s.lock with writer := none } := by
      simp [Rrwlock.exit, hw]
    simp only [hth, hlock, List.tail_cons, List.count_cons, List.count_nil, beq_iff_eq,
      reduceCtorEq, if_false] at hca hcl ⊢
    constructor
    · intro w' hw'
      simp at hw'
    · intro t' x hx hwx
      rcases update_lookup ht hx with ⟨rfl, rfl⟩ | ⟨hne', hx⟩
      · simp at hwx
      · have := hi.writer_alone w hw t' x hx
        rw [if_neg (htw ▸ hne')] at this
        simp [this] at hwx
    · intro hl0
      obtain ⟨h1, h2⟩ := hi.counts hl0
      rw [RwSys.update_lock, holdCount_update_lock .anon s t _ _ s.lock,
        holdCount_update_lock .linked s t _ _ s.lock]
      exact ⟨by dsimp only; omega, by omega⟩
    · exact hi.linked_nonneg
    · intro t' x hx
      rcases update_lookup ht hx with ⟨rfl, rfl⟩ | ⟨-, hx⟩
      · simpa [hth] using hok
      · exact hi.prog_ok t' x hx
  | none =>
    have hlock : s.lock.exit false = { s.lock with anonRcount := s.lock.anonRcount - 1 } := by
      simp [Rrwlock.exit, hw, rrnFindAndRemove]
    have hwt : Hold.write ∉ th.holds := fun hm => by
      simp [hi.write_writer t th ht hm] at hw
    rw [hlock]
    constructor
    · intro w' hw'
      simp [hw] at hw'
    · intro t' x hx hwx
      exfalso
      rcases update_lookup ht hx with ⟨rfl, rfl⟩ | ⟨-, hx⟩
      · exact hwt (List.mem_of_mem_tail hwx)
      · simp [hi.write_writer t' x hx hwx] at hw
    · intro hl0
      obtain ⟨h1, h2⟩ := hi.counts hl0
      obtain ⟨k, rest, hkr⟩ := List.exists_cons_of_ne_nil hne
      cases k with
      | anon =>
        have hc1 : th.holds.count .anon = th.holds.tail.count .anon + 1 := by simp [hkr]
        have hc2 : th.holds.count .linked = th.holds.tail.count .linked := by simp [hkr]
        dsimp only at hca hcl
        rw [RwSys.update_lock, holdCount_update_lock .anon s t _ _ s.lock,
          holdCount_update_lock .linked s t _ _ s.lock]
        exact ⟨by dsimp only; omega, by omega⟩
      | linked =>
        have hcl0 := count_le_holdCount ht .linked
        simp [hkr] at hcl0
        omega
      | write => exact absurd (hkr ▸ List.mem_cons_self) hwt
    · exact hi.linked_nonneg
    · intro t' x hx
      rcases update_lookup ht hx with ⟨rfl, rfl⟩ | ⟨-, hx⟩
      · exact hok
      · exact hi.prog_ok t' x hx

/-- Every step keeps the invariant. -/
theorem step (hi : RwInv s) {fast : Bool} {s' : RwSys} (h : rrwStep fast s t = some s') :
    RwInv s' := by
  have h' : rrwStep false s t = some s' := by
    cases fast
    · exact h
    · rwa [rrwStep_fast] at h
  obtain ⟨th, ht, hc⟩ := rrwStep_cases h'
  rcases hc with ⟨p, hp, -, rfl⟩ | ⟨p, hp, hb, rfl⟩ | ⟨p, hp, -, rfl⟩ | ⟨p, hp, hb, rfl⟩ |
    ⟨p, hp, rfl⟩
  · refine hi.wait ht ?_ ?_ ?_ ?_ ?_ <;> rfl
  · exact hi.readAcquire ht hp hb
  · refine hi.wait ht ?_ ?_ ?_ ?_ ?_ <;> rfl
  · exact hi.writeAcquire ht hp hb
  · exact hi.exit ht hp

/-- Threads that hold nothing and whose calls nest, on a fresh lock. -/
theorem init {ths : List RwThread} (h : ∀ th ∈ ths, th.holds = [] ∧ progOk [] th.prog = true) :
    RwInv ⟨rrwInit, ths⟩ where
  writer_alone w hw := by cases hw
  write_writer t th ht hw := by
    rw [(h th (List.mem_of_getElem? ht)).1] at hw
    cases hw
  counts _ := by
    have hnil : ∀ th ∈ ths, th.holds = [] := fun th hth => (h th hth).1
    exact ⟨(holdCount_of_holds_nil ⟨rrwInit, ths⟩ hnil .anon).symm ▸ rfl,
      holdCount_of_holds_nil ⟨rrwInit, ths⟩ hnil .linked⟩
  linked_nonneg := le_refl 0
  prog_ok t th ht := by
    obtain ⟨h1, h2⟩ := h th (List.mem_of_getElem? ht)
    rw [h1]
    exact h2

end RwInv

/-- Every schedule keeps the invariant. -/
theorem rrwRun_inv {fast : Bool} : ∀ (ts : List ℕ) {s s' : RwSys}, RwInv s →
    rrwRun fast ts s = some s' → RwInv s'
  | [], s, s', hi, h => by
    simp only [rrwRun, Option.some.injEq] at h
    exact h ▸ hi
  | t :: ts, s, s', hi, h => by
    obtain ⟨s₁, h₁, h₂⟩ := Option.bind_eq_some_iff.mp h
    exact rrwRun_inv ts (hi.step h₁) h₂

/-- A writer is alone in every state a schedule reaches, on the DEBUG paths
and on the fast ones: it has the write hold and nothing more, and no other
thread holds anything. -/
theorem rrw_writer_exclusive (fast : Bool) {ths : List RwThread}
    (h0 : ∀ th ∈ ths, th.holds = [] ∧ progOk [] th.prog = true) (sched : List ℕ) {s : RwSys}
    (hs : rrwRun fast sched ⟨rrwInit, ths⟩ = some s) {w : ℕ} (hw : s.lock.writer = some w)
    (t : ℕ) (th : RwThread) (ht : s.threads[t]? = some th) :
    th.holds = if t = w then [.write] else [] :=
  (rrwRun_inv sched (RwInv.init h0) hs).writer_alone w hw t th ht

/-! ## Re-entry and starvation -/

/-- Thread 0 reads once, thread 1 writes once, thread 2 takes a read hold
inside another. -/
def reentryThreads : List RwThread :=
  [⟨[.enterRead, .exit], .run, []⟩, ⟨[.enterWrite, .exit], .run, []⟩,
    ⟨[.enterRead, .enterRead, .exit, .exit], .run, []⟩]

/-- The schedule of the module comment stops every thread, on both paths:
thread 2 waits in its second read with its first read hold kept, thread 1
waits to write for that hold, thread 0 is done. -/
theorem rrw_reentrant_read_blocks (fast : Bool) :
    ∃ s, rrwRun fast [0, 1, 2, 0, 2] ⟨rrwInit, reentryThreads⟩ = some s ∧
      s.threads[2]? = some ⟨[.enterRead, .exit, .exit], .waitRead, [.linked]⟩ ∧
      Deadlocked fast s = true := by
  cases fast
  · exact ⟨_, rfl, by decide, by decide⟩
  · exact ⟨_, rfl, by decide, by decide⟩

/-- Threads 0 and 2 read once each, thread 1 writes once. -/
def starveThreads : List RwThread :=
  [⟨[.enterRead, .exit], .run, []⟩, ⟨[.enterWrite, .exit], .run, []⟩,
    ⟨[.enterRead, .exit], .run, []⟩]

/-- Thread 2's read hold is counted linked, its exit drops the anonymous
count: when both readers are gone the counts are -1 and 1, no thread has a
hold, and the writer waits for ever. -/
theorem rrw_writer_starves (fast : Bool) :
    ∃ s, rrwRun fast [0, 1, 2, 0, 2] ⟨rrwInit, starveThreads⟩ = some s ∧
      s.lock.anonRcount = -1 ∧ s.lock.linkedRcount = 1 ∧
      (∀ th ∈ s.threads, th.holds = []) ∧ Deadlocked fast s = true := by
  cases fast
  · exact ⟨_, rfl, by decide, by decide, by decide, by decide⟩
  · exact ⟨_, rfl, by decide, by decide, by decide, by decide⟩

end ZfsOsx.Sync
