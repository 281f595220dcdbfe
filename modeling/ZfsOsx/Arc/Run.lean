import ZfsOsx.Arc.Accounting
import Mathlib.Algebra.Order.BigOperators.Group.Finset

/-!
# Runs of the ARC

A run is any sequence of the functions that change the accounting, each
under the assertions the code makes before it. `ArcReach.inv` carries
`ArcInv` along a run, and `arc_state_accounting` reads off it what each
list and counter holds.
-/
namespace ZfsOsx.Arc

variable {H : Type*} [DecidableEq H]

/-- The functions that change the lists and counters. `arc_get_data_buf`
is part of the three callers that give a header a buffer: `arc_buf_alloc`,
`arc_buf_clone` and the ghost hit of `arc_read_nolock`. -/
inductive ArcOp (H : Type*)
  | addReference (ab : H)
  | removeReference (ab : H)
  | changeState (newState : ArcState) (ab : H)
  | access (ab : H) (aged : Bool)
  | bufAlloc (ab : H) (spa size : ℕ) (type : ArcBufContents)
  | bufClone (ab : H)
  | bufDestroy (ab : H) (hasData : Bool)
  | readGhost (ab : H) (prefetch : Bool)
  | evict (env : EvictEnv H) (state : ArcState) (spa : ℕ) (bytes : ℤ) (recycle : Bool)
      (type : ArcBufContents) (noGrow : Bool) (arcC : ℤ)
  | evictGhost (env : EvictEnv H) (state : ArcState) (spa : ℕ) (bytes : ℤ)

/-- One step of a run. -/
def arcStep (arc : ArcCache H) : ArcOp H → ArcCache H
  | .addReference ab => addReference arc ab
  | .removeReference ab => (removeReference arc ab).1
  | .changeState newState ab => arcChangeState arc newState ab
  | .access ab aged => arcAccess arc ab aged
  | .bufAlloc ab spa size type => arcBufAlloc arc ab spa size type
  | .bufClone ab => arcBufClone arc ab
  | .bufDestroy ab hasData => arcBufDestroy arc ab hasData
  | .readGhost ab prefetch => arcReadGhost arc ab prefetch
  | .evict env state spa bytes recycle type noGrow arcC =>
    (arcEvict arc env state spa bytes recycle type noGrow arcC).1
  | .evictGhost env state spa bytes => arcEvictGhost arc env state spa bytes

/-- What the code asserts, or its callers guarantee, before each step:
`remove_reference` drops a reference of a buffer that holds data, so the
header has one and is in a state that holds data; `arc_change_state`
asserts a new state, `refcnt == 0 || b_datacnt > 0` and no data into a
ghost state, and `arc_access` moves only such headers; `arc_buf_alloc`
takes an empty header; `arc_buf_clone` copies a buffer with data and
`arc_buf_destroy` frees the data it finds; the ghost hit is on a ghost
header; `arc_evict` walks `arc_mru` or `arc_mfu` and `arc_evict_ghost` the
two ghost lists it is called on. -/
def ArcOp.Fits (arc : ArcCache H) : ArcOp H → Prop
  | .addReference _ => True
  | .removeReference ab => 0 < (arc.hdr ab).refcnt ∧ (arc.hdr ab).state.ghost = false
  | .changeState newState ab =>
    newState ≠ (arc.hdr ab).state ∧ ((arc.hdr ab).refcnt = 0 ∨ 0 < (arc.hdr ab).datacnt) ∧
      ((arc.hdr ab).datacnt = 0 ∨ newState.ghost = false)
  | .access ab _ => (arc.hdr ab).refcnt = 0 ∨ 0 < (arc.hdr ab).datacnt
  | .bufAlloc ab _ _ _ => (arc.hdr ab).state = .anon ∧ (arc.hdr ab).datacnt = 0
  | .bufClone ab => 0 < (arc.hdr ab).datacnt
  | .bufDestroy ab hasData => hasData = true → 0 < (arc.hdr ab).datacnt
  | .readGhost ab _ => (arc.hdr ab).state.ghost = true
  | .evict _ state _ _ _ _ _ _ => state.ghost = false
  | .evictGhost _ state _ _ => state = .mruGhost ∨ state = .mfuGhost

instance (arc : ArcCache H) (op : ArcOp H) : Decidable (op.Fits arc) := by
  cases op <;> unfold ArcOp.Fits <;> infer_instance

section Inv

variable [Fintype H]

/-- Every step keeps the invariant. -/
theorem ArcInv.step {arc : ArcCache H} (h : ArcInv arc) {op : ArcOp H} (hfit : op.Fits arc) :
    ArcInv (arcStep arc op) := by
  cases op with
  | addReference ab => exact h.addReference ab
  | removeReference ab => exact h.removeReference hfit.1 hfit.2
  | changeState newState ab => exact h.changeState hfit.1 hfit.2.1 hfit.2.2
  | access ab aged => exact h.access hfit aged
  | bufAlloc ab spa size type => exact h.bufAlloc hfit.1 hfit.2 spa size type
  | bufClone ab => exact h.bufClone hfit
  | bufDestroy ab hasData =>
    cases hasData
    · exact h
    · exact h.bufDestroy (hfit rfl)
  | readGhost ab prefetch => exact h.readGhost hfit prefetch
  | evict env state spa bytes recycle type noGrow arcC =>
    exact h.evict env spa bytes hfit recycle type noGrow arcC
  | evictGhost env state spa bytes => exact h.evictGhost env spa bytes hfit

/-- The caches a run from `arc₀` reaches. -/
inductive ArcReach (arc₀ : ArcCache H) : ArcCache H → Prop
  | refl : ArcReach arc₀ arc₀
  | step {arc : ArcCache H} (op : ArcOp H) :
      ArcReach arc₀ arc → op.Fits arc → ArcReach arc₀ (arcStep arc op)

/-- The run lemma. -/
theorem ArcReach.inv {arc₀ arc : ArcCache H} (h0 : ArcInv arc₀) (hr : ArcReach arc₀ arc) :
    ArcInv arc := by
  induction hr with
  | refl => exact h0
  | step op _ hfit ih => exact ih.step hfit

/-- A header as the header cache hands it out: anonymous, with no buffer
and no reference. -/
def ArcBufHdr.free : ArcBufHdr := ⟨.anon, .data, 0, 0, 0, 0, false, false⟩

/-- The ARC after `arc_init`: every list empty, every counter zero and every
header free. -/
def arcInit (H : Type*) : ArcCache H :=
  ⟨fun _ => ArcBufHdr.free, fun _ _ => [], fun _ _ => 0, fun _ => 0⟩

theorem ArcInv.init : ArcInv (arcInit H) where
  nodup _ _ := List.nodup_nil
  mem_list _ _ _ := iff_of_false List.not_mem_nil fun hon => hon.2.1 rfl
  lsize _ _ := by simp [arcInit, ArcBufHdr.lsizeIn, ArcBufHdr.OnList, ArcBufHdr.free]
  size _ := by simp [arcInit, ArcBufHdr.sizeIn, ArcBufHdr.stateSize, ArcBufHdr.free]
  ghost_datacnt _ _ := rfl

/-! ## The counters read off the headers -/

section Read

variable {arc : ArcCache H}

/-- `arcs_lsize[t]` is the sum over the headers on `arcs_list[t]`. -/
theorem ArcInv.lsize_eq_sum_list (h : ArcInv arc) (s : ArcState) (t : ArcBufContents) :
    arc.lsize s t = ((arc.list s t).map fun ab => (arc.hdr ab).stateSize).sum := by
  have hset : Finset.univ.filter (fun ab => (arc.hdr ab).OnList s t) = (arc.list s t).toFinset := by
    ext ab
    simp [h.mem_list]
  rw [h.lsize, ← List.sum_toFinset _ (h.nodup s t), ← hset, Finset.sum_filter]
  rfl

/-- `arcs_size` is the sum over the headers in the state, of any type. -/
theorem ArcInv.size_eq_sum_filter (h : ArcInv arc) (s : ArcState) :
    arc.size s = ∑ ab ∈ Finset.univ.filter (fun ab => (arc.hdr ab).state = s),
      (arc.hdr ab).stateSize := by
  rw [h.size, Finset.sum_filter]
  exact Finset.sum_congr rfl fun ab _ => by simp only [ArcBufHdr.sizeIn, eq_comm]

end Read

theorem arc_state_accounting {arc₀ arc : ArcCache H} (h0 : ArcInv arc₀) (hr : ArcReach arc₀ arc)
    (s : ArcState) (t : ArcBufContents) :
    (arc.list s t).Nodup ∧
      (∀ ab, ab ∈ arc.list s t ↔
        (arc.hdr ab).state = s ∧ (arc.hdr ab).type = t ∧ s ≠ .anon ∧ (arc.hdr ab).refcnt = 0) ∧
      arc.lsize s t = ((arc.list s t).map fun ab => (arc.hdr ab).stateSize).sum ∧
      arc.size s = ∑ ab ∈ Finset.univ.filter (fun ab => (arc.hdr ab).state = s),
        (arc.hdr ab).stateSize ∧
      0 ≤ arc.lsize s t ∧ 0 ≤ arc.size s := by
  have h := hr.inv h0
  refine ⟨h.nodup s t, fun ab => ?_, h.lsize_eq_sum_list s t, h.size_eq_sum_filter s, ?_, ?_⟩
  · rw [h.mem_list]
    constructor
    · rintro ⟨hc, ha, rfl, rfl⟩
      exact ⟨rfl, rfl, ha, hc⟩
    · rintro ⟨rfl, rfl, ha, hc⟩
      exact ⟨hc, ha, rfl, rfl⟩
  · rw [h.lsize_eq_sum_list]
    exact List.sum_nonneg fun x hx => by
      obtain ⟨ab, -, rfl⟩ := List.mem_map.1 hx
      exact ArcBufHdr.stateSize_nonneg _
  · rw [h.size_eq_sum_filter]
    exact Finset.sum_nonneg fun ab _ => ArcBufHdr.stateSize_nonneg _

/-- A header allocated, moved to `arc_mru` and released: it is on the data
list of `arc_mru`, which counts its one buffer. -/
theorem arc_state_accounting_mru :
    let arc := arcStep (arcStep (arcStep (arcInit (Fin 1)) (.bufAlloc 0 1 8 .data))
      (.changeState .mru 0)) (.removeReference 0)
    ArcInv (arcInit (Fin 1)) ∧ ArcReach (arcInit (Fin 1)) arc ∧
      ((arc.list .mru .data).Nodup ∧
        (∀ ab, ab ∈ arc.list .mru .data ↔ (arc.hdr ab).state = .mru ∧ (arc.hdr ab).type = .data ∧
          ArcState.mru ≠ .anon ∧ (arc.hdr ab).refcnt = 0) ∧
        arc.lsize .mru .data = ((arc.list .mru .data).map fun ab => (arc.hdr ab).stateSize).sum ∧
        arc.size .mru = ∑ ab ∈ Finset.univ.filter (fun ab => (arc.hdr ab).state = .mru),
          (arc.hdr ab).stateSize ∧
        0 ≤ arc.lsize .mru .data ∧ 0 ≤ arc.size .mru) := by
  intro arc
  have hr : ArcReach (arcInit (Fin 1)) arc :=
    .step _ (.step _ (.step _ .refl (by decide)) (by decide)) (by decide)
  exact ⟨ArcInv.init, hr, arc_state_accounting ArcInv.init hr .mru .data⟩

end Inv

end ZfsOsx.Arc
