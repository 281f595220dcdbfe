import ZfsOsx.Lib.Forest

/-!
# The transaction-group pipeline (`module/zfs/txg.c`)

Three txgs can be in flight at once: the open one, which takes holds, the
quiescing one, whose holds drain, and the syncing one, which `spa_sync`
writes out. A thread takes a hold with `txg_hold_open`, which leaves it
holding the `tc_lock` of its CPU until `txg_rele_to_quiesce`, and counts it
in `tc_count[txg & TXG_MASK]` until `txg_rele_to_sync`. The quiesce thread
closes the open txg under every `tc_lock` and waits for its counts to
drain; the sync thread takes the quiesced txg and calls `spa_sync`.

The model is a step function: each step is a section that one thread runs
under the locks it holds, and a step that would wait on a mutex or a
condition variable is not enabled (`none`). The timing of the sync thread
(its timeout, the scan) is not modelled: it may ask for a quiesce at any
time. The txgs passed to `spa_sync` are recorded in `syncs`.
-/
namespace ZfsOsx.Txg

/-- `TXG_SIZE`.
mirrors include/sys/txg.h:40 -/
def txgSize : ℕ := 4

/-- `TXG_MASK`.
mirrors include/sys/txg.h:41 -/
def txgMask : ℕ := txgSize - 1

/-- `TXG_DEFER_SIZE`.
mirrors include/sys/txg.h:46 -/
def txgDeferSize : ℕ := 2

/-- `txg & TXG_MASK`, the slot of a txg in the per-txg arrays. -/
def txgIdx (txg : ℕ) : ℕ := txg &&& txgMask

theorem txgIdx_eq_mod (txg : ℕ) : txgIdx txg = txg % txgSize :=
  Nat.and_two_pow_sub_one_eq_mod txg 2

/-- Where the thread of a hold is: until `txg_rele_to_quiesce` it holds the
`tc_lock` of its CPU. -/
inductive HoldPhase
  | held | released
  deriving DecidableEq, Repr

/-- A `txg_handle_t` (`th_cpu`, `th_txg`) and where its thread is. -/
structure TxgHandle where
  cpu : ℕ
  txg : ℕ
  phase : HoldPhase
  deriving DecidableEq, Repr

/-- Where `txg_quiesce_thread` is. -/
inductive QuiescePc
  /-- waiting on `tx_quiesce_more_cv` -/
  | wait
  /-- in `txg_quiesce(txg)`, holding the `tc_lock` of the CPUs below `c` -/
  | lock (txg c : ℕ)
  /-- `tx_open_txg` moved on; waiting for `tc_count` of CPU `c` to drain -/
  | drain (txg c : ℕ)
  deriving DecidableEq, Repr

/-- Where `txg_sync_thread` is. -/
inductive SyncPc
  /-- waiting for a quiesced txg -/
  | wait
  /-- in `spa_sync(spa, txg)`, without `tx_sync_lock` -/
  | sync (txg : ℕ)
  deriving DecidableEq, Repr

/-- `tx_state_t` with the `tc_count` of every CPU, the holds given out and
the two threads. `syncs` is the list of txgs `spa_sync` was called on. -/
structure TxState (H : Type*) where
  openTxg : ℕ
  quiescedTxg : ℕ
  syncingTxg : ℕ
  syncedTxg : ℕ
  quiesceTxgWaiting : ℕ
  syncTxgWaiting : ℕ
  count : ℕ → ℕ → ℕ
  handle : H → Option TxgHandle
  quiescer : QuiescePc
  syncer : SyncPc
  syncs : List ℕ

/-- The steps of the threads. -/
inductive TxgOp (H : Type*)
  /-- `txg_hold_open` on CPU `cpu`, giving out the hold `h` -/
  | holdOpen (h : H) (cpu : ℕ)
  | releToQuiesce (h : H)
  | releToSync (h : H)
  /-- the quiesce thread leaves its wait and calls `txg_quiesce` -/
  | quiesceStart
  /-- `txg_quiesce` takes the next `tc_lock` -/
  | quiesceLock
  /-- `txg_quiesce` moves `tx_open_txg` on and drops the locks -/
  | quiesceOpen
  /-- `txg_quiesce` sees `tc_count` of the next CPU at zero -/
  | quiesceDrain
  /-- the quiesce thread hands the txg to the sync thread -/
  | quiesceDone
  /-- the sync thread, finding no quiesced txg, asks for one -/
  | syncRequest
  /-- the sync thread takes the quiesced txg and calls `spa_sync` -/
  | syncStart
  /-- `spa_sync` returns -/
  | syncDone
  /-- `txg_wait_synced(txg)` registers what it waits for -/
  | waitSynced (txg : ℕ)
  /-- `txg_wait_synced` returns once `tx_synced_txg` reaches `target` -/
  | waitSyncedReturn (target : ℕ)
  /-- `txg_wait_open(txg)` registers what it waits for -/
  | waitOpen (txg : ℕ)
  /-- `txg_wait_open` returns once `tx_open_txg` reaches `target` -/
  | waitOpenReturn (target : ℕ)

variable {H : Type*} [DecidableEq H] [Fintype H]

/-- `txg_quiesce` holds the `tc_lock` of `cpu`. -/
def QuiescePc.Holds : QuiescePc → ℕ → Prop
  | .lock _ c, cpu => cpu < c
  | _, _ => False

instance (q : QuiescePc) (cpu : ℕ) : Decidable (q.Holds cpu) := by
  cases q <;> unfold QuiescePc.Holds <;> infer_instance

/-- A hold whose thread still holds the `tc_lock` of `cpu`. -/
def HeldOn : Option TxgHandle → ℕ → Prop
  | some a, cpu => a.cpu = cpu ∧ a.phase = .held
  | none, _ => False

instance (o : Option TxgHandle) (cpu : ℕ) : Decidable (HeldOn o cpu) := by
  cases o <;> unfold HeldOn <;> infer_instance

namespace TxState

variable (s : TxState H)

/-- The `tc_lock` of `cpu` is held: by the thread of a hold taken on it, or by
`txg_quiesce`. -/
def Locked (cpu : ℕ) : Prop := (∃ h, HeldOn (s.handle h) cpu) ∨ s.quiescer.Holds cpu

instance (cpu : ℕ) : Decidable (s.Locked cpu) := by
  unfold Locked
  infer_instance

/-- `tc_count[g]` of `cpu` moved by `d`. -/
def addCount (cpu g : ℕ) (d : ℤ) : TxState H :=
  let row := Function.update (s.count cpu) g ((s.count cpu g : ℤ) + d).toNat
  { s with count := Function.update s.count cpu row }

end TxState

/-- `txg_init(dp, txg)` and `txg_sync_start`: nothing held, both threads
waiting.
mirrors module/zfs/txg.c:49-76 -/
def txgInit (txg : ℕ) : TxState H where
  openTxg := txg
  quiescedTxg := 0
  syncingTxg := 0
  syncedTxg := 0
  quiesceTxgWaiting := 0
  syncTxgWaiting := 0
  count _ _ := 0
  handle _ := none
  quiescer := .wait
  syncer := .wait
  syncs := []

/-- One step on a machine with `ncpus` CPUs (`max_ncpus`); `none` where the
thread would wait.
mirrors module/zfs/txg.c:218-633 -/
@[grind] def txgStep (ncpus : ℕ) (s : TxState H) : TxgOp H → Option (TxState H)
  | .holdOpen h cpu =>
    -- `mutex_enter(&tc->tc_lock)`, then the hold is counted in the open txg
    if cpu < ncpus ∧ s.handle h = none ∧ ¬s.Locked cpu then
      let txg := s.openTxg
      some { s.addCount cpu (txgIdx txg) 1 with
        handle := Function.update s.handle h (some ⟨cpu, txg, .held⟩) }
    else none
  | .releToQuiesce h =>
    match s.handle h with
    | some ⟨cpu, txg, .held⟩ =>
      some { s with handle := Function.update s.handle h (some ⟨cpu, txg, .released⟩) }
    | _ => none
  | .releToSync h =>
    match s.handle h with
    | some ⟨cpu, txg, .released⟩ =>
      if ¬s.Locked cpu then
        some { s.addCount cpu (txgIdx txg) (-1) with handle := Function.update s.handle h none }
      else none
    | _ => none
  | .quiesceStart =>
    if s.quiescer = .wait ∧ ¬(s.openTxg ≥ s.quiesceTxgWaiting ∨ s.quiescedTxg ≠ 0) then
      some { s with quiescer := .lock s.openTxg 0 }
    else none
  | .quiesceLock =>
    match s.quiescer with
    | .lock txg c => if c < ncpus ∧ ¬s.Locked c then some { s with quiescer := .lock txg (c + 1) }
      else none
    | _ => none
  | .quiesceOpen =>
    match s.quiescer with
    | .lock txg c => if c = ncpus then
        some { s with openTxg := s.openTxg + 1, quiescer := .drain txg 0 }
      else none
    | _ => none
  | .quiesceDrain =>
    match s.quiescer with
    | .drain txg c =>
      if c < ncpus ∧ ¬s.Locked c ∧ s.count c (txgIdx txg) = 0 then
        some { s with quiescer := .drain txg (c + 1) }
      else none
    | _ => none
  | .quiesceDone =>
    match s.quiescer with
    | .drain txg c => if c = ncpus then some { s with quiescedTxg := txg, quiescer := .wait }
      else none
    | _ => none
  | .syncRequest =>
    if s.syncer = .wait ∧ s.quiescedTxg = 0 then
      let waiting :=
        if s.quiesceTxgWaiting < s.openTxg + 1 then s.openTxg + 1 else s.quiesceTxgWaiting
      some { s with quiesceTxgWaiting := waiting }
    else none
  | .syncStart =>
    if s.syncer = .wait ∧ s.quiescedTxg ≠ 0 then
      let txg := s.quiescedTxg
      some { s with
        quiescedTxg := 0, syncingTxg := txg, syncer := .sync txg, syncs := s.syncs ++ [txg] }
    else none
  | .syncDone =>
    match s.syncer with
    | .sync txg => some { s with syncedTxg := txg, syncingTxg := 0, syncer := .wait }
    | .wait => none
  | .waitSynced txg =>
    let txg := if txg = 0 then s.openTxg + txgDeferSize else txg
    some { s with syncTxgWaiting := if s.syncTxgWaiting < txg then txg else s.syncTxgWaiting }
  | .waitSyncedReturn target => if target ≤ s.syncedTxg then some s else none
  | .waitOpen txg =>
    let txg := if txg = 0 then s.openTxg + 1 else txg
    let waiting := if s.quiesceTxgWaiting < txg then txg else s.quiesceTxgWaiting
    some { s with quiesceTxgWaiting := waiting }
  | .waitOpenReturn target => if target ≤ s.openTxg then some s else none

/-- The states a run of any interleaving reaches from `s₀`. -/
inductive TxgReach (ncpus : ℕ) (s₀ : TxState H) : TxState H → Prop
  | refl : TxgReach ncpus s₀ s₀
  | step {s s' : TxState H} (op : TxgOp H) :
      TxgReach ncpus s₀ s → txgStep ncpus s op = some s' → TxgReach ncpus s₀ s'

/-- The steps `ops` one after another; `none` once one of them is not enabled. -/
def txgRun (ncpus : ℕ) (s : TxState H) : List (TxgOp H) → Option (TxState H)
  | [] => some s
  | op :: ops => (txgStep ncpus s op).bind fun s' => txgRun ncpus s' ops

/-- A run that goes through reaches its last state. -/
theorem TxgReach.run {ncpus : ℕ} {s₀ : TxState H} :
    ∀ {s s' : TxState H} (ops : List (TxgOp H)), TxgReach ncpus s₀ s →
      txgRun ncpus s ops = some s' → TxgReach ncpus s₀ s'
  | _, _, [], hr, h => by
    cases h
    exact hr
  | _, _, op :: ops, hr, h => by
    simp only [txgRun, Option.bind_eq_some_iff] at h
    obtain ⟨s₁, h₁, h₂⟩ := h
    exact TxgReach.run ops (hr.step op h₁) h₂

end ZfsOsx.Txg
