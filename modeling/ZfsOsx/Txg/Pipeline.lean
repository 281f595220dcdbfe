import ZfsOsx.Txg.State
import Mathlib

/-!
# Safety of the txg pipeline

`TxgInv` is what holds in every state a run reaches: where the holds are
and what `tc_count` counts, where the two threads are, and how the open,
quiesced and syncing txgs follow the last txg passed to `spa_sync`. Each
step keeps it (`TxgInv.step`) and so does every run (`TxgReach.inv`).

`txg_pipeline_safe` reads the claims off it: `spa_sync` is called on
consecutive txgs, on none that a hold still counts in, no hold is taken on a
txg that has begun to quiesce, the open, quiescing and syncing txgs have
different slots, and `txg_wait_synced` returns only once its txg is synced.
-/
namespace ZfsOsx.Txg

variable {H : Type*} [DecidableEq H] [Fintype H]

/-- What a hold counts in `tc_count[g]` of `cpu`. -/
@[grind] def holdCount (o : Option TxgHandle) (cpu g : ℕ) : ℤ :=
  match o with
  | some a => if a.cpu = cpu ∧ txgIdx a.txg = g then 1 else 0
  | none => 0

theorem holdCount_nonneg (o : Option TxgHandle) (cpu g : ℕ) : 0 ≤ holdCount o cpu g := by
  unfold holdCount
  split
  · split_ifs <;> decide
  · exact le_refl 0

/-- `txg_quiesce` has moved `tx_open_txg` past the txg it quiesces. -/
@[grind] def QuiescePc.Draining : QuiescePc → Prop
  | .drain _ _ => True
  | _ => False

instance (q : QuiescePc) : Decidable q.Draining :=
  match q with
  | .wait => instDecidableFalse
  | .lock _ _ => instDecidableFalse
  | .drain _ _ => instDecidableTrue

/-- The txg after the last one synced is closed: quiescing or quiesced. -/
@[grind] def TxState.Closed (s : TxState H) : Prop := s.quiescedTxg ≠ 0 ∨ s.quiescer.Draining

instance (s : TxState H) : Decidable s.Closed := by
  unfold TxState.Closed
  infer_instance

/-- `txg_quiesce` is draining `txg`. -/
def QuiescePc.DrainingTxg : QuiescePc → ℕ → Prop
  | .drain t _, txg => t = txg
  | _, _ => False

instance (q : QuiescePc) (txg : ℕ) : Decidable (q.DrainingTxg txg) :=
  match q with
  | .wait => instDecidableFalse
  | .lock _ _ => instDecidableFalse
  | .drain t _ => inferInstanceAs (Decidable (t = txg))

/-- `txg` is quiescing or quiesced (`TXG_STATE_QUIESCING`, `TXG_STATE_QUIESCED`). -/
def TxState.Quiescing (s : TxState H) (txg : ℕ) : Prop :=
  s.quiescer.DrainingTxg txg ∨ (s.quiescedTxg ≠ 0 ∧ s.quiescedTxg = txg)

instance (s : TxState H) (txg : ℕ) : Decidable (s.Quiescing txg) := by
  unfold TxState.Quiescing
  infer_instance

/-- `txg` has begun quiescing: `tx_open_txg` has moved past it, and it is
quiescing, quiesced or was passed to `spa_sync`. -/
def TxState.Begun (s : TxState H) (txg : ℕ) : Prop := s.Quiescing txg ∨ txg ∈ s.syncs

instance (s : TxState H) (txg : ℕ) : Decidable (s.Begun txg) := by
  unfold TxState.Begun
  infer_instance

/-- The invariant of the txg pipeline on `ncpus` CPUs. -/
structure TxgInv (ncpus : ℕ) (s : TxState H) : Prop where
  cpu_lt : ∀ h a, s.handle h = some a → a.cpu < ncpus
  /-- a `tc_lock` has one holder -/
  held_unique : ∀ h h' a a', s.handle h = some a → s.handle h' = some a' →
    a.phase = .held → a'.phase = .held → a.cpu = a'.cpu → h = h'
  held_quiescer : ∀ h a, s.handle h = some a → a.phase = .held → ¬s.quiescer.Holds a.cpu
  /-- a thread inside `txg_hold_open` .. `txg_rele_to_quiesce` is in the open txg -/
  held_open : ∀ h a, s.handle h = some a → a.phase = .held → a.txg = s.openTxg
  /-- a hold is on the open txg, or on the quiescing one on a CPU not yet drained -/
  handle_txg : ∀ h a, s.handle h = some a → a.txg = s.openTxg ∨
    (a.txg + 1 = s.openTxg ∧ ∃ c, s.quiescer = .drain a.txg c ∧ c ≤ a.cpu)
  count : ∀ cpu g, (s.count cpu g : ℤ) = ∑ h, holdCount (s.handle h) cpu g
  lock_pc : ∀ txg c, s.quiescer = .lock txg c → txg = s.openTxg ∧ c ≤ ncpus ∧ s.quiescedTxg = 0
  drain_pc : ∀ txg c, s.quiescer = .drain txg c →
    txg + 1 = s.openTxg ∧ c ≤ ncpus ∧ s.quiescedTxg = 0
  quiesced : s.quiescedTxg ≠ 0 → s.quiescedTxg + 1 = s.openTxg ∧ s.quiescer = .wait
  chain : s.syncs.IsChain fun a b => b = a + 1
  /-- the open txg is the one after the last synced, or the one after that
  once the former is closed -/
  last : ∀ t, s.syncs.getLast? = some t → s.openTxg = t + 1 + if s.Closed then 1 else 0
  syncer_sync : ∀ t, s.syncer = .sync t → s.syncs.getLast? = some t ∧ s.syncingTxg = t
  syncer_wait : s.syncer = .wait → s.syncingTxg = 0
  synced : s.syncedTxg = 0 ∨ s.syncedTxg ∈ s.syncs
  /-- `spa_sync` runs on a txg after the last one synced -/
  synced_lt : ∀ t, s.syncer = .sync t → s.syncedTxg < t

section Steps

variable {ncpus : ℕ} {s s' : TxState H}

/-- A sum over the holds moves by what the one changed hold counts. -/
theorem sum_holdCount_update (handle : H → Option TxgHandle) (h : H) (v : Option TxgHandle)
    (cpu g : ℕ) : ∑ x, holdCount (Function.update handle h v x) cpu g =
      ∑ x, holdCount (handle x) cpu g + (holdCount v cpu g - holdCount (handle h) cpu g) := by
  have hfun : (fun x => holdCount (Function.update handle h v x) cpu g) =
      Function.update (fun x => holdCount (handle x) cpu g) h (holdCount v cpu g) := by
    funext x
    by_cases hx : x = h
    · subst hx
      simp
    · simp [Function.update_of_ne hx]
  rw [hfun, RankedForest.sum_update_univ]

/-- A fact about every hold after one hold changed. -/
theorem forall_update_eq_some {handle : H → Option TxgHandle} {h : H} {v : Option TxgHandle}
    {P : H → TxgHandle → Prop} (hv : ∀ a, v = some a → P h a)
    (hrest : ∀ x a, x ≠ h → handle x = some a → P x a) :
    ∀ x a, Function.update handle h v x = some a → P x a := by
  intro x a hx
  by_cases hxh : x = h
  · subst hxh
    rw [Function.update_self] at hx
    exact hv a hx
  · rw [Function.update_of_ne hxh] at hx
    exact hrest x a hxh hx

theorem addCount_count (cpu g : ℕ) (d : ℤ) (cpu' g' : ℕ) :
    (s.addCount cpu g d).count cpu' g' =
      if cpu' = cpu ∧ g' = g then ((s.count cpu g : ℤ) + d).toNat else s.count cpu' g' := by
  by_cases hc : cpu' = cpu
  · subst hc
    by_cases hg : g' = g
    · subst hg
      simp [TxState.addCount]
    · simp [TxState.addCount, hg]
  · simp [TxState.addCount, hc]

/-- A hold counts in the slot of its txg on its CPU. -/
theorem TxgInv.count_pos (hi : TxgInv ncpus s) {h : H} {a : TxgHandle} (ha : s.handle h = some a) :
    1 ≤ (s.count a.cpu (txgIdx a.txg) : ℤ) := by
  rw [hi.count]
  have hone : holdCount (s.handle h) a.cpu (txgIdx a.txg) = 1 := by simp [holdCount, ha]
  calc (1 : ℤ) = holdCount (s.handle h) a.cpu (txgIdx a.txg) := hone.symm
    _ ≤ ∑ x, holdCount (s.handle x) a.cpu (txgIdx a.txg) :=
      Finset.single_le_sum (fun x _ => holdCount_nonneg _ _ _) (Finset.mem_univ h)

/-- The waiting targets are not part of the invariant. -/
theorem TxgInv.waiting (hi : TxgInv ncpus s) (qw sw : ℕ) :
    TxgInv ncpus { s with quiesceTxgWaiting := qw, syncTxgWaiting := sw } :=
  ⟨hi.cpu_lt, hi.held_unique, hi.held_quiescer, hi.held_open, hi.handle_txg, hi.count,
    hi.lock_pc, hi.drain_pc, hi.quiesced, hi.chain, hi.last, hi.syncer_sync, hi.syncer_wait,
    hi.synced, hi.synced_lt⟩

theorem TxgInv.holdOpen (hi : TxgInv ncpus s) {h : H} {cpu : ℕ}
    (hs : txgStep ncpus s (.holdOpen h cpu) = some s') : TxgInv ncpus s' := by
  simp only [txgStep] at hs
  split_ifs at hs with hen
  obtain ⟨hcpu, hnone, hfree⟩ := hen
  cases hs
  -- no thread holds the `tc_lock` of `cpu`
  have hother : ∀ x a, s.handle x = some a → a.phase = .held → a.cpu ≠ cpu :=
    fun x a hx hp hc => hfree (Or.inl ⟨x, by rw [hx]; exact ⟨hc, hp⟩⟩)
  have hq : ¬s.quiescer.Holds cpu := fun hh => hfree (Or.inr hh)
  refine { hi with
    cpu_lt := ?_, held_unique := ?_, held_quiescer := ?_, held_open := ?_, handle_txg := ?_,
    count := ?_ }
  · exact forall_update_eq_some (by rintro a ⟨⟩; exact hcpu) fun x a _ hx => hi.cpu_lt x a hx
  · intro x y a b hx hy hpa hpb hc
    dsimp only at hx hy
    by_cases hxh : x = h <;> by_cases hyh : y = h
    · rw [hxh, hyh]
    · subst hxh
      rw [Function.update_self, Option.some.injEq] at hx
      subst hx
      rw [Function.update_of_ne hyh] at hy
      exact absurd hc.symm (hother y b hy hpb)
    · subst hyh
      rw [Function.update_self, Option.some.injEq] at hy
      subst hy
      rw [Function.update_of_ne hxh] at hx
      exact absurd hc (hother x a hx hpa)
    · rw [Function.update_of_ne hxh] at hx
      rw [Function.update_of_ne hyh] at hy
      exact hi.held_unique x y a b hx hy hpa hpb hc
  · exact forall_update_eq_some (P := fun _ a => a.phase = .held → ¬s.quiescer.Holds a.cpu)
      (by rintro a ⟨⟩ _; exact hq) fun x a _ hx => hi.held_quiescer x a hx
  · exact forall_update_eq_some (P := fun _ a => a.phase = .held → a.txg = s.openTxg)
      (by rintro a ⟨⟩ _; rfl) fun x a _ hx => hi.held_open x a hx
  · exact forall_update_eq_some (by rintro a ⟨⟩; exact Or.inl rfl)
      fun x a _ hx => hi.handle_txg x a hx
  · intro c g
    have hnew : holdCount (some ⟨cpu, s.openTxg, .held⟩) c g =
        if c = cpu ∧ g = txgIdx s.openTxg then 1 else 0 := by
      simp only [holdCount, eq_comm]
    rw [addCount_count, sum_holdCount_update, hnone, hnew, ← hi.count]
    split_ifs with hcg
    · obtain ⟨rfl, rfl⟩ := hcg
      simp only [holdCount]
      omega
    · simp [holdCount]

/-- A hold that is held after an update that makes no hold held was held before. -/
theorem held_before_update {handle : H → Option TxgHandle} {h : H} {v : Option TxgHandle}
    (hv : ∀ a, v = some a → a.phase ≠ .held) {x : H} {a : TxgHandle}
    (hx : Function.update handle h v x = some a) (hp : a.phase = .held) : handle x = some a := by
  by_cases hxh : x = h
  · subst hxh
    rw [Function.update_self] at hx
    exact absurd hp (hv a hx)
  · rwa [Function.update_of_ne hxh] at hx

/-- The open txg only moves while no hold is held, so a change of `handle` that
makes no hold held keeps the facts about held holds. -/
theorem TxgInv.held_of_update (hi : TxgInv ncpus s) {h : H} {v : Option TxgHandle}
    (hv : ∀ a, v = some a → a.phase ≠ .held) :
    (∀ x y a b, Function.update s.handle h v x = some a → Function.update s.handle h v y = some b →
      a.phase = .held → b.phase = .held → a.cpu = b.cpu → x = y) ∧
    (∀ x a, Function.update s.handle h v x = some a → a.phase = .held →
      ¬s.quiescer.Holds a.cpu) ∧
    (∀ x a, Function.update s.handle h v x = some a → a.phase = .held → a.txg = s.openTxg) :=
  ⟨fun x y a b hx hy hpa hpb hc => hi.held_unique x y a b (held_before_update hv hx hpa)
      (held_before_update hv hy hpb) hpa hpb hc,
    fun x a hx hp => hi.held_quiescer x a (held_before_update hv hx hp) hp,
    fun x a hx hp => hi.held_open x a (held_before_update hv hx hp) hp⟩

theorem TxgInv.releToQuiesce (hi : TxgInv ncpus s) {h : H}
    (hs : txgStep ncpus s (.releToQuiesce h) = some s') : TxgInv ncpus s' := by
  simp only [txgStep] at hs
  split at hs
  · rename_i cpu txg hh
    cases hs
    obtain ⟨hu, hq, ho⟩ := hi.held_of_update (h := h) (v := some ⟨cpu, txg, .released⟩)
      (by rintro a ⟨⟩; simp)
    refine { hi with
      cpu_lt := ?_, held_unique := hu, held_quiescer := hq, held_open := ho, handle_txg := ?_,
      count := ?_ }
    · exact forall_update_eq_some (by rintro a ⟨⟩; exact hi.cpu_lt h ⟨cpu, txg, .held⟩ hh)
        fun x a _ hx => hi.cpu_lt x a hx
    · exact forall_update_eq_some (by rintro a ⟨⟩; exact hi.handle_txg h ⟨cpu, txg, .held⟩ hh)
        fun x a _ hx => hi.handle_txg x a hx
    · -- the count of a hold does not depend on where its thread is
      intro c g
      rw [sum_holdCount_update, hh, hi.count]
      simp [holdCount]
  · cases hs

theorem TxgInv.releToSync (hi : TxgInv ncpus s) {h : H}
    (hs : txgStep ncpus s (.releToSync h) = some s') : TxgInv ncpus s' := by
  simp only [txgStep] at hs
  split at hs
  · rename_i cpu txg hh
    split_ifs at hs
    cases hs
    obtain ⟨hu, hq, ho⟩ := hi.held_of_update (h := h) (v := none) (by rintro a ⟨⟩)
    refine { hi with
      cpu_lt := ?_, held_unique := hu, held_quiescer := hq, held_open := ho, handle_txg := ?_,
      count := ?_ }
    · exact forall_update_eq_some (by rintro a ⟨⟩) fun x a _ hx => hi.cpu_lt x a hx
    · exact forall_update_eq_some (by rintro a ⟨⟩) fun x a _ hx => hi.handle_txg x a hx
    · -- `ASSERT(tc->tc_count[g] != 0)`: the hold is counted, so the decrement does not wrap
      have hpos := hi.count_pos hh
      intro c g
      have hold : holdCount (some ⟨cpu, txg, .released⟩) c g =
          if c = cpu ∧ g = txgIdx txg then 1 else 0 := by
        simp only [holdCount, eq_comm]
      rw [addCount_count, sum_holdCount_update, hh, hold, ← hi.count]
      split_ifs with hcg
      · obtain ⟨rfl, rfl⟩ := hcg
        simp only [holdCount] at hpos ⊢
        omega
      · simp [holdCount]
  · cases hs

/-- The last txg passed to `spa_sync` bounds all of them. -/
theorem TxgInv.le_last (hi : TxgInv ncpus s) {t : ℕ} (ht : s.syncs.getLast? = some t) :
    ∀ x ∈ s.syncs, x ≤ t := by
  have hp : s.syncs.Pairwise (· ≤ ·) :=
    List.isChain_iff_pairwise.1 (hi.chain.imp fun a b (hab : b = a + 1) => by omega)
  intro x hx
  have hlast := List.getLast?_eq_some_getLast (List.ne_nil_of_mem hx)
  rw [ht, Option.some.injEq] at hlast
  rw [hlast]
  exact hp.rel_getLast hx

/-- A state in which the open txg is the same, the quiescer is not draining
before or after, and nothing is quiesced keeps `last`. -/
theorem TxgInv.last_of_closed_iff (hi : TxgInv ncpus s) (hopen : s'.openTxg = s.openTxg)
    (hsyncs : s'.syncs = s.syncs) (hc : s'.Closed ↔ s.Closed) :
    ∀ t, s'.syncs.getLast? = some t → s'.openTxg = t + 1 + if s'.Closed then 1 else 0 := by
  intro t ht
  rw [hsyncs] at ht
  rw [hopen, hi.last t ht]
  simp only [hc]

theorem TxgInv.quiesceStart (hi : TxgInv ncpus s) (hs : txgStep ncpus s .quiesceStart = some s') :
    TxgInv ncpus s' := by
  simp only [txgStep] at hs
  split_ifs at hs with hen
  cases hs
  obtain ⟨hwait, hmore⟩ := hen
  have hq0 : s.quiescedTxg = 0 := by
    by_contra h0
    exact hmore (Or.inr h0)
  refine { hi with
    held_quiescer := fun _ _ _ _ hh => Nat.not_lt_zero _ hh, handle_txg := ?_, lock_pc := ?_,
    drain_pc := ?_, quiesced := fun h0 => absurd hq0 h0, last := ?_ }
  · -- the quiescer was waiting, so every hold is on the open txg
    intro x a hx
    rcases hi.handle_txg x a hx with ho | ⟨_, c, hc, _⟩
    · exact Or.inl ho
    · rw [hwait] at hc
      cases hc
  · rintro txg c ⟨⟩
    exact ⟨rfl, Nat.zero_le _, hq0⟩
  · rintro txg c ⟨⟩
  · refine hi.last_of_closed_iff rfl rfl ?_
    simp [TxState.Closed, QuiescePc.Draining, hwait, hq0]

/-- While `txg_quiesce` is not draining, every hold is on the open txg. -/
theorem TxgInv.handle_open (hi : TxgInv ncpus s) (hq : ¬s.quiescer.Draining) :
    ∀ h a, s.handle h = some a → a.txg = s.openTxg := by
  intro h a ha
  rcases hi.handle_txg h a ha with ho | ⟨_, c, hc, _⟩
  · exact ho
  · rw [hc] at hq
    exact absurd trivial hq

theorem TxgInv.quiesceLock (hi : TxgInv ncpus s) (hs : txgStep ncpus s .quiesceLock = some s') :
    TxgInv ncpus s' := by
  simp only [txgStep] at hs
  split at hs
  · rename_i txg c hlock
    split_ifs at hs with hen
    cases hs
    obtain ⟨hc, hfree⟩ := hen
    obtain ⟨hopen, hcle, hq0⟩ := hi.lock_pc txg c hlock
    refine { hi with
      held_quiescer := ?_, handle_txg := ?_, lock_pc := ?_, drain_pc := ?_,
      quiesced := fun h0 => absurd hq0 h0, last := ?_ }
    · -- the thread of a held hold on CPU `c` would hold the `tc_lock` just taken
      intro x a hx hp hh
      have hold := hi.held_quiescer x a hx hp
      rw [hlock] at hold
      have hne : a.cpu ≠ c := fun hac => hfree (Or.inl ⟨x, by rw [hx]; exact ⟨hac, hp⟩⟩)
      simp only [QuiescePc.Holds] at hold hh
      omega
    · intro x a hx
      exact Or.inl (hi.handle_open (by rw [hlock]; exact id) x a hx)
    · rintro txg' c' ⟨⟩
      exact ⟨hopen, hc, hq0⟩
    · rintro txg' c' ⟨⟩
    · refine hi.last_of_closed_iff rfl rfl ?_
      simp [TxState.Closed, QuiescePc.Draining, hlock, hq0]
  · cases hs

theorem TxgInv.quiesceOpen (hi : TxgInv ncpus s) (hs : txgStep ncpus s .quiesceOpen = some s') :
    TxgInv ncpus s' := by
  simp only [txgStep] at hs
  split at hs
  · rename_i txg c hlock
    split_ifs at hs with hc
    cases hs
    obtain ⟨hopen, -, hq0⟩ := hi.lock_pc txg c hlock
    -- `txg_quiesce` holds every `tc_lock`, so no thread is between
    -- `txg_hold_open` and `txg_rele_to_quiesce`
    have hnheld : ∀ x a, s.handle x = some a → a.phase ≠ .held := by
      intro x a hx hp
      have hh := hi.held_quiescer x a hx hp
      rw [hlock, hc] at hh
      exact hh (hi.cpu_lt x a hx)
    have hall := hi.handle_open (by rw [hlock]; exact id)
    refine { hi with
      held_quiescer := fun _ _ _ _ hh => hh, held_open := fun x a hx hp => absurd hp (hnheld x a hx),
      handle_txg := ?_, lock_pc := ?_, drain_pc := ?_, quiesced := fun h0 => absurd hq0 h0,
      last := ?_ }
    · intro x a hx
      have ha := hall x a hx
      refine Or.inr ⟨by rw [ha], 0, ?_, Nat.zero_le _⟩
      rw [ha, hopen]
    · rintro txg' c' ⟨⟩
    · rintro txg' c' ⟨⟩
      exact ⟨by rw [hopen], Nat.zero_le _, hq0⟩
    · -- the txg after the last synced one is now closed
      intro t ht
      have hl := hi.last t ht
      have hncl : ¬s.Closed := by simp [TxState.Closed, QuiescePc.Draining, hlock, hq0]
      have hcl : TxState.Closed { s with openTxg := s.openTxg + 1, quiescer := .drain txg 0 } := by
        simp [TxState.Closed, QuiescePc.Draining]
      rw [if_neg hncl] at hl
      rw [if_pos hcl]
      dsimp only
      omega
  · cases hs

theorem TxgInv.quiesceDrain (hi : TxgInv ncpus s) (hs : txgStep ncpus s .quiesceDrain = some s') :
    TxgInv ncpus s' := by
  simp only [txgStep] at hs
  split at hs
  · rename_i txg c hdrain
    split_ifs at hs with hen
    cases hs
    obtain ⟨hc, -, hzero⟩ := hen
    obtain ⟨hopen, -, hq0⟩ := hi.drain_pc txg c hdrain
    refine { hi with
      held_quiescer := fun _ _ _ _ hh => hh, handle_txg := ?_, lock_pc := ?_, drain_pc := ?_,
      quiesced := fun h0 => absurd hq0 h0, last := ?_ }
    · -- a hold of the quiescing txg on CPU `c` would count in the slot seen at zero
      intro x a hx
      rcases hi.handle_txg x a hx with ho | ⟨ha, c', hc', hle⟩
      · exact Or.inl ho
      · rw [hdrain] at hc'
        obtain ⟨rfl, rfl⟩ := QuiescePc.drain.inj hc'
        have hne : a.cpu ≠ c := by
          intro hac
          have hpos := hi.count_pos hx
          rw [hac, hzero] at hpos
          omega
        exact Or.inr ⟨ha, c + 1, rfl, by omega⟩
    · rintro txg' c' ⟨⟩
    · rintro txg' c' ⟨⟩
      exact ⟨hopen, hc, hq0⟩
    · refine hi.last_of_closed_iff rfl rfl ?_
      simp [TxState.Closed, QuiescePc.Draining, hdrain]
  · cases hs

theorem TxgInv.quiesceDone (hi : TxgInv ncpus s) (hs : txgStep ncpus s .quiesceDone = some s') :
    TxgInv ncpus s' := by
  simp only [txgStep] at hs
  split at hs
  · rename_i txg c hdrain
    split_ifs at hs with hc
    cases hs
    obtain ⟨hopen, -, -⟩ := hi.drain_pc txg c hdrain
    refine { hi with
      held_quiescer := fun _ _ _ _ hh => hh, handle_txg := ?_, lock_pc := ?_, drain_pc := ?_,
      quiesced := fun _ => ⟨hopen, rfl⟩, last := ?_ }
    · -- every CPU is drained, so no hold is left on the quiesced txg
      intro x a hx
      rcases hi.handle_txg x a hx with ho | ⟨_, c', hc', hle⟩
      · exact Or.inl ho
      · rw [hdrain] at hc'
        obtain ⟨-, rfl⟩ := QuiescePc.drain.inj hc'
        have hlt := hi.cpu_lt x a hx
        omega
    · rintro txg' c' ⟨⟩
    · rintro txg' c' ⟨⟩
    · -- the closed txg is now the quiesced one, which is not 0
      intro t ht
      have hl := hi.last t ht
      have hcl : s.Closed := Or.inr (by rw [hdrain]; trivial)
      rw [if_pos hcl] at hl
      have hcl' : TxState.Closed { s with quiescedTxg := txg, quiescer := .wait } :=
        Or.inl (by dsimp only; omega)
      rw [if_pos hcl']
      exact hl
  · cases hs

theorem TxgInv.syncStart (hi : TxgInv ncpus s) (hs : txgStep ncpus s .syncStart = some s') :
    TxgInv ncpus s' := by
  simp only [txgStep] at hs
  split_ifs at hs with hen
  cases hs
  obtain ⟨hwait, hq⟩ := hen
  obtain ⟨hqopen, hqwait⟩ := hi.quiesced hq
  have hcl : s.Closed := Or.inl hq
  -- the quiesced txg is the one after the last synced
  have hnext : ∀ t, s.syncs.getLast? = some t → s.quiescedTxg = t + 1 := by
    intro t ht
    have hl := hi.last t ht
    rw [if_pos hcl] at hl
    omega
  refine { hi with
    lock_pc := ?_, drain_pc := ?_, quiesced := fun h0 => absurd rfl h0, chain := ?_, last := ?_,
    syncer_sync := ?_, syncer_wait := ?_, synced := ?_, synced_lt := ?_ }
  · intro txg c hlock
    rw [hqwait] at hlock
    cases hlock
  · intro txg c hdrain
    rw [hqwait] at hdrain
    cases hdrain
  · refine hi.chain.append (List.isChain_singleton _) ?_
    intro x hx y hy
    rw [List.head?_cons, Option.mem_some_iff] at hy
    rw [← hy]
    exact hnext x hx
  · intro t ht
    rw [List.getLast?_concat, Option.some.injEq] at ht
    have hncl : ¬TxState.Closed { s with
        quiescedTxg := 0, syncingTxg := s.quiescedTxg, syncer := .sync s.quiescedTxg,
        syncs := s.syncs ++ [s.quiescedTxg] } := by
      simp [TxState.Closed, QuiescePc.Draining, hqwait]
    rw [if_neg hncl, ← ht]
    exact hqopen.symm
  · rintro t ⟨⟩
    exact ⟨List.getLast?_concat, rfl⟩
  · rintro ⟨⟩
  · rcases hi.synced with h0 | hmem
    · exact Or.inl h0
    · exact Or.inr (List.mem_append_left _ hmem)
  · -- the last synced txg is at most the last one passed to `spa_sync`
    rintro t ⟨⟩
    dsimp only
    cases hlast : s.syncs.getLast? with
    | none =>
      rw [List.getLast?_eq_none_iff] at hlast
      rcases hi.synced with h0 | hmem
      · omega
      · rw [hlast] at hmem
        cases hmem
    | some t =>
      have hle : s.syncedTxg ≤ t := by
        rcases hi.synced with h0 | hmem
        · omega
        · exact hi.le_last hlast _ hmem
      have := hnext t hlast
      omega

theorem TxgInv.syncDone (hi : TxgInv ncpus s) (hs : txgStep ncpus s .syncDone = some s') :
    TxgInv ncpus s' := by
  simp only [txgStep] at hs
  split at hs
  · rename_i txg hsync
    cases hs
    obtain ⟨hlast, -⟩ := hi.syncer_sync txg hsync
    refine { hi with
      syncer_sync := fun _ h => (by cases h), syncer_wait := fun _ => rfl,
      synced := Or.inr (List.mem_of_getLast? hlast), synced_lt := fun _ h => (by cases h) }
  · cases hs

/-- Every step keeps the invariant. -/
theorem TxgInv.step (hi : TxgInv ncpus s) {op : TxgOp H} (hs : txgStep ncpus s op = some s') :
    TxgInv ncpus s' := by
  cases op with
  | holdOpen h cpu => exact hi.holdOpen hs
  | releToQuiesce h => exact hi.releToQuiesce hs
  | releToSync h => exact hi.releToSync hs
  | quiesceStart => exact hi.quiesceStart hs
  | quiesceLock => exact hi.quiesceLock hs
  | quiesceOpen => exact hi.quiesceOpen hs
  | quiesceDrain => exact hi.quiesceDrain hs
  | quiesceDone => exact hi.quiesceDone hs
  | syncStart => exact hi.syncStart hs
  | syncDone => exact hi.syncDone hs
  -- the requests and the waits only move `tx_quiesce_txg_waiting` and `tx_sync_txg_waiting`
  | syncRequest =>
    simp only [txgStep] at hs
    split_ifs at hs <;> cases hs <;> exact hi.waiting _ s.syncTxgWaiting
  | waitSynced txg =>
    cases hs
    exact hi.waiting s.quiesceTxgWaiting _
  | waitOpen txg =>
    cases hs
    exact hi.waiting _ s.syncTxgWaiting
  | waitSyncedReturn target =>
    simp only [txgStep] at hs
    split_ifs at hs
    cases hs
    exact hi
  | waitOpenReturn target =>
    simp only [txgStep] at hs
    split_ifs at hs
    cases hs
    exact hi

end Steps

theorem TxgInv.init (ncpus txg : ℕ) : TxgInv ncpus (txgInit (H := H) txg) where
  cpu_lt _ _ h := by cases h
  held_unique _ _ _ _ h := by cases h
  held_quiescer _ _ h := by cases h
  held_open _ _ h := by cases h
  handle_txg _ _ h := by cases h
  count _ _ := by simp [txgInit, holdCount]
  lock_pc _ _ h := by cases h
  drain_pc _ _ h := by cases h
  quiesced h := absurd rfl h
  chain := .nil
  last _ h := by cases h
  syncer_sync _ h := by cases h
  syncer_wait _ := rfl
  synced := Or.inl rfl
  synced_lt _ h := by cases h

/-- The run lemma. -/
theorem TxgReach.inv {ncpus : ℕ} {s₀ s : TxState H} (h0 : TxgInv ncpus s₀)
    (hr : TxgReach ncpus s₀ s) : TxgInv ncpus s := by
  induction hr with
  | refl => exact h0
  | step op _ hs ih => exact ih.step hs

/-! ## The pipeline read off the invariant -/

section Read

variable {ncpus : ℕ} {s : TxState H}

/-- Txgs less than `TXG_SIZE` apart have different slots. -/
theorem txgIdx_ne {t x : ℕ} (h1 : t < x) (h2 : x < t + txgSize) : txgIdx x ≠ txgIdx t := by
  rw [txgIdx_eq_mod, txgIdx_eq_mod]
  unfold txgSize at h2 ⊢
  omega

theorem TxgInv.syncs_pairwise (hi : TxgInv ncpus s) : s.syncs.Pairwise (· < ·) :=
  List.isChain_iff_pairwise.1 (hi.chain.imp fun a b (hab : b = a + 1) => by omega)

/-- The quiescing or quiesced txg is the one before the open txg, and closed. -/
theorem TxgInv.quiescing (hi : TxgInv ncpus s) {q : ℕ} (hq : s.Quiescing q) :
    q + 1 = s.openTxg ∧ s.Closed := by
  rcases hq with hd | ⟨hq0, rfl⟩
  · cases hqs : s.quiescer with
    | drain t c =>
      rw [hqs] at hd
      have htq : t = q := hd
      subst htq
      exact ⟨(hi.drain_pc t c hqs).1, Or.inr (by rw [hqs]; trivial)⟩
    | _ =>
      rw [hqs] at hd
      exact absurd hd id
  · exact ⟨(hi.quiesced hq0).1, Or.inl hq0⟩

/-- The syncing txg is the last one passed to `spa_sync`. -/
theorem TxgInv.syncing (hi : TxgInv ncpus s) {t : ℕ} (ht : s.syncer = .sync t) :
    s.openTxg = t + 1 + if s.Closed then 1 else 0 :=
  hi.last t (hi.syncer_sync t ht).1

theorem TxgInv.mem_syncs_lt (hi : TxgInv ncpus s) {x : ℕ} (hx : x ∈ s.syncs) : x < s.openTxg := by
  have ht := List.getLast?_eq_some_getLast (List.ne_nil_of_mem hx)
  have hle := hi.le_last ht x hx
  have hl := hi.last _ ht
  split_ifs at hl <;> omega

/-- The open txg has not begun quiescing. -/
theorem TxgInv.not_begun_open (hi : TxgInv ncpus s) : ¬s.Begun s.openTxg := by
  rintro (hq | hmem)
  · have := (hi.quiescing hq).1
    omega
  · have := hi.mem_syncs_lt hmem
    omega

/-- Every hold is on one of the two txgs after the syncing or quiesced one. -/
theorem TxgInv.handle_after (hi : TxgInv ncpus s) {t : ℕ}
    (ht : s.syncer = .sync t ∨ (s.quiescedTxg ≠ 0 ∧ s.quiescedTxg = t)) :
    ∀ h a, s.handle h = some a → t < a.txg ∧ a.txg < t + txgSize := by
  intro h a ha
  unfold txgSize
  rcases ht with hsync | ⟨hq0, rfl⟩
  · have hopen := hi.syncing hsync
    rcases hi.handle_txg h a ha with ho | ⟨hsucc, c, hd, -⟩
    · split_ifs at hopen <;> omega
    · -- a hold on the quiescing txg: the open txg is two past the syncing one
      have hcl : s.Closed := Or.inr (by rw [hd]; trivial)
      rw [if_pos hcl] at hopen
      omega
  · obtain ⟨hsucc, hwait⟩ := hi.quiesced hq0
    have ho := hi.handle_open (by rw [hwait]; exact id) h a ha
    omega

/-- A slot no hold is counted in is zero on every CPU. -/
theorem TxgInv.count_eq_zero (hi : TxgInv ncpus s) {g : ℕ}
    (hno : ∀ h a, s.handle h = some a → txgIdx a.txg ≠ g) (cpu : ℕ) : s.count cpu g = 0 := by
  have hsum : ∑ h, holdCount (s.handle h) cpu g = 0 := by
    refine Finset.sum_eq_zero fun h _ => ?_
    cases ha : s.handle h with
    | none => rfl
    | some a => simp [holdCount, hno h a ha]
  have := hi.count cpu g
  omega

end Read

/-- The txg pipeline on `ncpus` CPUs, from `txg_init(dp, T0)` and under any
interleaving of the holders and the two threads: `spa_sync` is called on
consecutive txgs, each once and in increasing order; the txg that is quiesced
or in `spa_sync` has no hold left and a zero count on every CPU; a hold is
taken, and stays held, only on the open txg, which has not begun quiescing;
the open, quiescing or quiesced, and syncing txgs have different slots; and
`txg_wait_synced` returns only once `tx_synced_txg` reaches its txg, after
every txg up to it came back from `spa_sync`. -/
theorem txg_pipeline_safe {ncpus T0 : ℕ} {s : TxState H} (hr : TxgReach ncpus (txgInit T0) s) :
    (s.syncs.IsChain (fun a b => b = a + 1) ∧ s.syncs.Pairwise (· < ·)) ∧
    (∀ t, s.syncer = .sync t ∨ (s.quiescedTxg ≠ 0 ∧ s.quiescedTxg = t) →
      (∀ cpu, s.count cpu (txgIdx t) = 0) ∧ ∀ h a, s.handle h = some a → a.txg ≠ t) ∧
    (∀ h cpu s', txgStep ncpus s (.holdOpen h cpu) = some s' →
      ∃ a, s'.handle h = some a ∧ a.txg = s.openTxg ∧ ¬s.Begun a.txg) ∧
    (∀ h a, s.handle h = some a → a.phase = .held → a.txg = s.openTxg ∧ ¬s.Begun a.txg) ∧
    (∀ q, s.Quiescing q → txgIdx q ≠ txgIdx s.openTxg) ∧
    (∀ t, s.syncer = .sync t → txgIdx t ≠ txgIdx s.openTxg) ∧
    (∀ q t, s.Quiescing q → s.syncer = .sync t → txgIdx q ≠ txgIdx t) ∧
    (∀ target s', txgStep ncpus s (.waitSyncedReturn target) = some s' →
      target ≤ s.syncedTxg ∧ ∀ x ∈ s.syncs, x ≤ target → s.syncer ≠ .sync x) := by
  have hi := hr.inv (TxgInv.init ncpus T0)
  refine ⟨⟨hi.chain, hi.syncs_pairwise⟩, ?_, ?_, ?_, ?_, ?_, ?_, ?_⟩
  · intro t ht
    have hafter := hi.handle_after ht
    refine ⟨hi.count_eq_zero fun h a ha => ?_, fun h a ha => ?_⟩
    · obtain ⟨h1, h2⟩ := hafter h a ha
      exact txgIdx_ne h1 h2
    · exact Nat.ne_of_gt (hafter h a ha).1
  · intro h cpu s' hs
    simp only [txgStep] at hs
    split_ifs at hs
    cases hs
    exact ⟨_, Function.update_self .., rfl, hi.not_begun_open⟩
  · intro h a ha hp
    have ho := hi.held_open h a ha hp
    rw [ho]
    exact ⟨rfl, hi.not_begun_open⟩
  · intro q hq
    have := (hi.quiescing hq).1
    exact (txgIdx_ne (by omega) (by unfold txgSize; omega)).symm
  · intro t ht
    have hopen := hi.syncing ht
    refine (txgIdx_ne ?_ ?_).symm <;> unfold txgSize at * <;> split_ifs at hopen <;> omega
  · -- with a txg quiescing, the open txg is two past the syncing one
    intro q t hq ht
    obtain ⟨hsucc, hcl⟩ := hi.quiescing hq
    have hopen := hi.syncing ht
    rw [if_pos hcl] at hopen
    exact txgIdx_ne (by omega) (by unfold txgSize; omega)
  · intro target s' hs
    simp only [txgStep] at hs
    split_ifs at hs with hle
    refine ⟨hle, fun x _ hx hsync => ?_⟩
    have := hi.synced_lt x hsync
    omega

/-- A hold taken and released on txg 1, which is then quiesced and passed to
`spa_sync`: no hold is left on it and its slot is zero. -/
theorem txg_pipeline_safe_first_sync :
    let ops : List (TxgOp (Fin 1)) := [.holdOpen 0 0, .releToQuiesce 0, .releToSync 0,
      .syncRequest, .quiesceStart, .quiesceLock, .quiesceOpen, .quiesceDrain, .quiesceDone,
      .syncStart]
    let s := (txgRun 1 (txgInit 1) ops).getD (txgInit 1)
    TxgReach 1 (txgInit 1) s ∧ s.syncer = .sync 1 ∧
      (∀ cpu, s.count cpu (txgIdx 1) = 0) ∧ ∀ h a, s.handle h = some a → a.txg ≠ 1 := by
  intro ops s
  have hr : TxgReach 1 (txgInit 1) s := TxgReach.run ops .refl rfl
  exact ⟨hr, rfl, (txg_pipeline_safe hr).2.1 1 (Or.inl rfl)⟩

end ZfsOsx.Txg
