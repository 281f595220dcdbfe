import Mathlib.Algebra.BigOperators.Group.List.Basic
import Mathlib.Data.List.Perm.Basic
import Mathlib.Algebra.Group.Prod
import Mathlib.Tactic.Abel

/-!
# Block-pointer objects (`module/zfs/bpobj.c`)

A bpobj holds an array of block pointers and, from `SPA_VERSION_DEADLISTS`
on, an array of sub-bpobjs; its bonus buffer counts `bpo_bytes`,
`bpo_comp` and `bpo_uncomp`. Every sub-bpobj is listed by exactly one
parent, so the objects below a top-level bpobj form a tree, and the model
holds them as one value: `Bpobj` nests its sub-bpobjs.

`bpobj_enqueue_subobj` may move the sub-bpobj's own sub-bpobjs into the
parent's list and clear the child's list; the child's counters still count
them. The counters of a nested bpobj are then off from what it reaches, by
an amount (`surplus`) that nothing changes afterwards: `bpobj_iterate` frees
a sub-bpobj's entries and subtracts the change of its counters, not its
contents.

* `Bpobj.reach`: the block pointers a bpobj reaches, its own and its
  sub-bpobjs'. `visitOrder` is the order `bpobj_iterate` visits them in.
* `reach_enqueueSubobj`: enqueueing an exact sub-bpobj, with or without the
  flattening, adds exactly what it reaches.
* `iterate_spec`: `bpobj_iterate` calls its function on a prefix of
  `visitOrder`, all of it unless the function fails, leaves what it has not
  yet visited (the failing entry included) and keeps the surplus.
* `bpobj_store_exact_run`: every top-level bpobj of any run of allocations,
  enqueues and iterations counts exactly what it reaches.
-/
namespace ZfsOsx.Dsl

/-- The fields of a `blkptr_t` a bpobj reads: `blk_birth`, the size
`bp_get_dsize_sync` charges, `BP_GET_PSIZE` and `BP_GET_UCSIZE`. A block
pointer on a bpobj is never a hole, so it takes allocated space. -/
structure Bp where
  birth : ℕ
  dsize : ℤ
  psize : ℤ
  ucsize : ℤ
  dsize_pos : 0 < dsize
  deriving DecidableEq

/-- A bpobj: its block pointers in array order, the counters of
`bpobj_phys_t`, and its sub-bpobjs in array order (`none` while
`bpo_subobjs` is 0). -/
structure Bpobj where
  blkptrs : List Bp
  bytes : ℤ
  comp : ℤ
  uncomp : ℤ
  subobjs : Option (List Bpobj)

/-- What an object number names: the pool's shared empty bpobj
`dp_empty_bpobj`, or a bpobj of its own. -/
inductive BpobjRef
  | empty
  | obj (bpo : Bpobj)

/-- The counters as a triple: `(bytes, comp, uncomp)`. -/
abbrev Space := ℤ × ℤ × ℤ

/-- What one block pointer adds to the counters. -/
def Bp.space (bp : Bp) : Space := (bp.dsize, bp.psize, bp.ucsize)

/-- The space of a list of block pointers. -/
def spaceOf (bps : List Bp) : Space := (bps.map Bp.space).sum

@[simp] theorem spaceOf_nil : spaceOf [] = 0 := rfl

@[simp] theorem spaceOf_cons (bp : Bp) (bps : List Bp) :
    spaceOf (bp :: bps) = bp.space + spaceOf bps := by
  simp [spaceOf]

@[simp] theorem spaceOf_append (l₁ l₂ : List Bp) : spaceOf (l₁ ++ l₂) = spaceOf l₁ + spaceOf l₂ := by
  simp [spaceOf]

theorem spaceOf_perm {l₁ l₂ : List Bp} (h : l₁.Perm l₂) : spaceOf l₁ = spaceOf l₂ :=
  (h.map Bp.space).sum_eq

theorem eq_nil_of_spaceOf_fst_eq_zero {bps : List Bp} (h : (spaceOf bps).1 = 0) : bps = [] := by
  cases bps with
  | nil => rfl
  | cons bp bps =>
    exfalso
    have hpos : ∀ l : List Bp, 0 ≤ (spaceOf l).1 := by
      intro l
      induction l with
      | nil => simp
      | cons b l ih => simp only [spaceOf_cons, Prod.fst_add, Bp.space]; have := b.dsize_pos; omega
    simp only [spaceOf_cons, Prod.fst_add, Bp.space] at h
    have := bp.dsize_pos
    have := hpos bps
    omega

namespace Bpobj

/-- The counters of `bpobj_phys_t`, as `bpobj_space` returns them. -/
@[grind] def space (bpo : Bpobj) : Space := (bpo.bytes, bpo.comp, bpo.uncomp)

mutual
/-- The block pointers a bpobj reaches: its own, then each sub-bpobj's. -/
def reach : Bpobj → List Bp
  | ⟨bps, _, _, _, none⟩ => bps
  | ⟨bps, _, _, _, some subs⟩ => bps ++ reachList subs

/-- The block pointers a list of bpobjs reaches. -/
def reachList : List Bpobj → List Bp
  | [] => []
  | sub :: subs => reach sub ++ reachList subs
end

mutual
/-- The order `bpobj_iterate` visits the block pointers in: the own ones
from the last to the first, then the sub-bpobjs from the last to the
first. -/
def visitOrder : Bpobj → List Bp
  | ⟨bps, _, _, _, none⟩ => bps.reverse
  | ⟨bps, _, _, _, some subs⟩ => bps.reverse ++ visitOrderList subs

/-- The visit order of a list of sub-bpobjs: the last one first. -/
def visitOrderList : List Bpobj → List Bp
  | [] => []
  | sub :: subs => visitOrderList subs ++ visitOrder sub
end

/-- How far the counters are above what the bpobj reaches. -/
def surplus (bpo : Bpobj) : Space := bpo.space - spaceOf bpo.reach

/-- The counters are exactly the space of what the bpobj reaches. -/
def Exact (bpo : Bpobj) : Prop := bpo.space = spaceOf bpo.reach

/-- `bpobj_alloc`: a new bpobj, with its sub-bpobj array. -/
def empty : Bpobj := ⟨[], 0, 0, 0, none⟩

/-- `bpobj_enqueue(bpo, bp, tx)`. The fill count and checksum it clears are
not modelled.
mirrors module/zfs/bpobj.c:450-493 -/
def enqueue (bpo : Bpobj) (bp : Bp) : Bpobj :=
  { bpo with
    blkptrs := bpo.blkptrs ++ [bp],
    bytes := bpo.bytes + bp.dsize,
    comp := bpo.comp + bp.psize,
    uncomp := bpo.uncomp + bp.ucsize }

/-- `bpobj_enqueue_subobj(bpo, subobj, tx)`. `flatten` is the test
`doi_max_offset == doi_data_block_size` on the sub-bpobj's own array (it
fits in one block), which depends on the array's allocation, not modelled.
A sub-bpobj that counts no bytes is freed instead.
mirrors module/zfs/bpobj.c:364-448 -/
def enqueueSubobj (bpo : Bpobj) (subobj : BpobjRef) (flatten : Bool) : Bpobj :=
  match subobj with
  | .empty => bpo
  | .obj sub =>
    if sub.bytes = 0 then bpo
    else
      let moved := match sub.subobjs with
        | some subsub => if flatten then subsub else []
        | none => []
      let sub := match sub.subobjs with
        | some _ => if flatten then { sub with subobjs := none } else sub
        | none => sub
      { bpo with
        subobjs := some (bpo.subobjs.getD [] ++ [sub] ++ moved),
        bytes := bpo.bytes + sub.bytes,
        comp := bpo.comp + sub.comp,
        uncomp := bpo.uncomp + sub.uncomp }

section Iterate

variable {σ : Type*} (func : σ → Bp → σ × ℤ) (free : Bool)

/-- The loop of `bpobj_iterate_impl` over the block pointers, from the last
to the first: the state, the error, the entries left from the failing one
down (none after a complete run), and the counters, less what it freed.
mirrors module/zfs/bpobj.c:212-246 -/
def iterateBlkptrs : σ → List Bp → Space → σ × ℤ × List Bp × Space
  | s, [], c => (s, 0, [], c)
  | s, bp :: bps, c =>
    match iterateBlkptrs s bps c with
    | (s, err, left, c) =>
      if err ≠ 0 then (s, err, bp :: left, c)
      else
        match func s bp with
        | (s, err) =>
          if err ≠ 0 then (s, err, [bp], c)
          else (s, 0, [], if free then c - bp.space else c)

mutual
/-- `bpobj_iterate_impl(bpo, func, arg, tx, free)`: the block pointers from
the last to the first, then, unless that failed, the sub-bpobjs from the
last to the first. With `free` the visited entries go and the counters drop
by what they counted.
mirrors module/zfs/bpobj.c:198-343 -/
def iterateImpl : σ → Bpobj → σ × ℤ × Bpobj
  | s, ⟨bps, bytes, comp, uncomp, subobjs⟩ =>
    match iterateBlkptrs func free s bps (bytes, comp, uncomp) with
    | (s, err, left, c) =>
      let bps := if free then left else bps
      if err ≠ 0 then (s, err, ⟨bps, c.1, c.2.1, c.2.2, subobjs⟩)
      else
        match subobjs with
        | none => (s, 0, ⟨bps, c.1, c.2.1, c.2.2, none⟩)
        | some subs =>
          match iterateSubobjs s subs c with
          | (s, err, leftSubs, c) =>
            (s, err, ⟨bps, c.1, c.2.1, c.2.2, some (if free then leftSubs else subs)⟩)

/-- The loop of `bpobj_iterate_impl` over the sub-bpobjs, from the last to
the first. A sub-bpobj it iterates through is freed; the parent's counters
drop by how much the sub-bpobj's counters dropped.
mirrors module/zfs/bpobj.c:262-326 -/
def iterateSubobjs : σ → List Bpobj → Space → σ × ℤ × List Bpobj × Space
  | s, [], c => (s, 0, [], c)
  | s, sub :: subs, c =>
    match iterateSubobjs s subs c with
    | (s, err, left, c) =>
      if err ≠ 0 then (s, err, sub :: left, c)
      else
        match iterateImpl s sub with
        | (s, err, sub') =>
          let c := if free then c - (sub.space - sub'.space) else c
          if err ≠ 0 then (s, err, [sub'], c) else (s, 0, [], c)
end

/-- `bpobj_iterate(bpo, func, arg, tx)`: iterate and free. -/
def iterate (s : σ) (bpo : Bpobj) : σ × ℤ × Bpobj := iterateImpl func true s bpo

/-- `bpobj_iterate_nofree(bpo, func, arg, tx)`: iterate only. -/
def iterateNofree (s : σ) (bpo : Bpobj) : σ × ℤ × Bpobj := iterateImpl func false s bpo

/-- Calls `func` on the entries in order until it returns an error: the
state, the error (0 if none failed), and the entries from the failing one
on (none if none failed). This is what `bpobj_iterate` does along
`visitOrder`. -/
@[grind] def callsWhileOk : σ → List Bp → σ × ℤ × List Bp
  | s, [] => (s, 0, [])
  | s, bp :: bps =>
    match func s bp with
    | (s, err) => if err ≠ 0 then (s, err, bp :: bps) else callsWhileOk s bps

end Iterate

/-! ## What the operations do to what a bpobj reaches -/

@[simp] theorem reach_mk_none (bps : List Bp) (bytes comp uncomp : ℤ) :
    reach ⟨bps, bytes, comp, uncomp, none⟩ = bps := by
  simp only [reach]

@[simp] theorem reach_mk_some (bps : List Bp) (bytes comp uncomp : ℤ) (subs : List Bpobj) :
    reach ⟨bps, bytes, comp, uncomp, some subs⟩ = bps ++ reachList subs := by
  simp only [reach]

@[simp] theorem reachList_nil : reachList [] = [] := by simp only [reachList]

@[simp] theorem reachList_cons (sub : Bpobj) (subs : List Bpobj) :
    reachList (sub :: subs) = reach sub ++ reachList subs := by
  simp only [reachList]

@[simp] theorem reachList_append (l₁ l₂ : List Bpobj) :
    reachList (l₁ ++ l₂) = reachList l₁ ++ reachList l₂ := by
  induction l₁ with
  | nil => simp
  | cons sub subs ih => simp [ih]

/-- Every bpobj reaches its own entries and then what its sub-bpobj list
reaches. -/
theorem reach_eq (bpo : Bpobj) : bpo.reach = bpo.blkptrs ++ reachList (bpo.subobjs.getD []) := by
  rcases bpo with ⟨bps, bytes, comp, uncomp, _ | subs⟩ <;> simp

theorem reach_enqueue (bpo : Bpobj) (bp : Bp) : (bpo.enqueue bp).reach.Perm (bp :: bpo.reach) := by
  rw [reach_eq, reach_eq bpo]
  simp only [enqueue, List.append_assoc, List.singleton_append]
  exact List.perm_middle

@[simp] theorem space_enqueue (bpo : Bpobj) (bp : Bp) : (bpo.enqueue bp).space = bpo.space + bp.space := by
  simp [enqueue, space, Bp.space]

/-- Enqueueing a sub-bpobj adds what it reaches, whether or not its own
sub-bpobjs move up: moved, they are reached from the parent instead. A
sub-bpobj that counts no bytes, and is freed, reaches nothing when it is
exact. -/
theorem reach_enqueueSubobj (bpo sub : Bpobj) (flatten : Bool) (hsub : sub.Exact) :
    (bpo.enqueueSubobj (.obj sub) flatten).reach = bpo.reach ++ sub.reach := by
  unfold enqueueSubobj
  dsimp only
  by_cases h0 : sub.bytes = 0
  · have hnil : sub.reach = [] := by
      apply eq_nil_of_spaceOf_fst_eq_zero
      rw [← hsub]
      exact h0
    rw [if_pos h0, hnil, List.append_nil]
  · rw [if_neg h0, reach_eq, reach_eq bpo]
    rcases sub with ⟨sbps, sbytes, scomp, suncomp, _ | ssubs⟩
    · simp
    · cases flatten <;> simp

theorem space_enqueueSubobj (bpo sub : Bpobj) (flatten : Bool) (hsub : sub.Exact) :
    (bpo.enqueueSubobj (.obj sub) flatten).space = bpo.space + sub.space := by
  unfold enqueueSubobj
  dsimp only
  by_cases h0 : sub.bytes = 0
  · have hnil : sub.reach = [] := by
      apply eq_nil_of_spaceOf_fst_eq_zero
      rw [← hsub]
      exact h0
    rw [if_pos h0, hsub, hnil, spaceOf_nil, add_zero]
  · rw [if_neg h0]
    rcases sub with ⟨sbps, sbytes, scomp, suncomp, _ | ssubs⟩
    · simp [space]
    · cases flatten <;> simp [space]

theorem Exact.enqueue {bpo : Bpobj} (h : bpo.Exact) (bp : Bp) : (bpo.enqueue bp).Exact := by
  unfold Exact at *
  rw [space_enqueue, spaceOf_perm (reach_enqueue bpo bp), spaceOf_cons, h, add_comm]

theorem Exact.enqueueSubobj {bpo : Bpobj} (h : bpo.Exact) (subobj : BpobjRef) (flatten : Bool)
    (hsub : ∀ sub, subobj = .obj sub → sub.Exact) : (bpo.enqueueSubobj subobj flatten).Exact := by
  cases subobj with
  | empty => exact h
  | obj sub =>
    have hs := hsub sub rfl
    unfold Exact at *
    rw [space_enqueueSubobj bpo sub flatten hs, reach_enqueueSubobj bpo sub flatten hs,
      spaceOf_append, h, hs]

/-! ## Iteration -/

section IterateSpec

variable {σ : Type*} (func : σ → Bp → σ × ℤ)

theorem spaceOf_reverse (bps : List Bp) : spaceOf bps.reverse = spaceOf bps :=
  spaceOf_perm (List.reverse_perm bps)

theorem callsWhileOk_rest_of_ok {s : σ} {l : List Bp} (h : (callsWhileOk func s l).2.1 = 0) :
    (callsWhileOk func s l).2.2 = [] := by
  induction l generalizing s with
  | nil => rfl
  | cons bp bps ih =>
    simp only [callsWhileOk] at h ⊢
    split_ifs at h ⊢ with herr
    · exact absurd h herr
    · exact ih h


/-- Calling along `l₁ ++ l₂` calls along `l₁` and, if nothing failed, along
`l₂`. -/
theorem callsWhileOk_append (s : σ) (l₁ l₂ : List Bp) :
    callsWhileOk func s (l₁ ++ l₂) =
      if (callsWhileOk func s l₁).2.1 ≠ 0 then
        ((callsWhileOk func s l₁).1, (callsWhileOk func s l₁).2.1, (callsWhileOk func s l₁).2.2 ++ l₂)
      else callsWhileOk func (callsWhileOk func s l₁).1 l₂ := by
  induction l₁ generalizing s with
  | nil => simp [callsWhileOk]
  | cons bp bps ih =>
    rcases h : func s bp with ⟨s', e⟩
    simp only [List.cons_append, callsWhileOk, h]
    by_cases he : e = 0
    · simp only [he, ne_eq, not_true_eq_false, if_false]
      exact ih s'
    · simp [he]

/-- The loop over the block pointers calls along them from the last, and
with `free` takes off the counters what it visited. -/
theorem iterateBlkptrs_eq (free : Bool) (s : σ) (bps : List Bp) (c : Space) :
    iterateBlkptrs func free s bps c =
      ((callsWhileOk func s bps.reverse).1, (callsWhileOk func s bps.reverse).2.1,
        (callsWhileOk func s bps.reverse).2.2.reverse,
        if free then c - (spaceOf bps - spaceOf (callsWhileOk func s bps.reverse).2.2) else c) := by
  induction bps with
  | nil => cases free <;> simp [iterateBlkptrs, callsWhileOk]
  | cons bp bps ih =>
    rw [iterateBlkptrs, ih, List.reverse_cons, callsWhileOk_append]
    dsimp only
    by_cases h1 : (callsWhileOk func s bps.reverse).2.1 = 0
    · have hrest := callsWhileOk_rest_of_ok func h1
      simp only [h1, ne_eq, not_true_eq_false, if_false, hrest, List.reverse_nil]
      rcases h : func (callsWhileOk func s bps.reverse).1 bp with ⟨s', e⟩
      simp only [callsWhileOk, h]
      by_cases he : e = 0
      · cases free <;> simp [he, spaceOf_cons] <;> abel
      · cases free <;> simp [he, spaceOf_cons]
    · simp only [h1, ne_eq, not_false_eq_true, if_true, List.reverse_append, List.reverse_cons,
        List.reverse_nil, List.nil_append, List.singleton_append, spaceOf_append, spaceOf_cons,
        spaceOf_nil]
      cases free <;> simp <;> abel

@[simp] theorem visitOrder_mk_none (bps : List Bp) (bytes comp uncomp : ℤ) :
    visitOrder ⟨bps, bytes, comp, uncomp, none⟩ = bps.reverse := by
  simp only [visitOrder]

@[simp] theorem visitOrder_mk_some (bps : List Bp) (bytes comp uncomp : ℤ) (subs : List Bpobj) :
    visitOrder ⟨bps, bytes, comp, uncomp, some subs⟩ = bps.reverse ++ visitOrderList subs := by
  simp only [visitOrder]

@[simp] theorem visitOrderList_nil : visitOrderList [] = [] := by simp only [visitOrderList]

@[simp] theorem visitOrderList_cons (sub : Bpobj) (subs : List Bpobj) :
    visitOrderList (sub :: subs) = visitOrderList subs ++ visitOrder sub := by
  simp only [visitOrderList]

mutual
/-- `bpobj_iterate` calls along the visit order until the function fails;
the bpobj left visits exactly what was not visited, the failing entry first,
and its counters dropped by what was visited. -/
theorem iterateImpl_free : ∀ (bpo : Bpobj) (s s' : σ) (err : ℤ) (bpo' : Bpobj),
    iterateImpl func true s bpo = (s', err, bpo') →
      (s', err, visitOrder bpo') = callsWhileOk func s (visitOrder bpo) ∧
        bpo'.space = bpo.space - (spaceOf (visitOrder bpo) - spaceOf (visitOrder bpo'))
  | ⟨bps, bytes, comp, uncomp, subobjs⟩, s, s', err, bpo', h => by
    rw [iterateImpl, iterateBlkptrs_eq] at h
    dsimp only at h
    by_cases h1 : (callsWhileOk func s bps.reverse).2.1 = 0
    · have hrest := callsWhileOk_rest_of_ok func h1
      simp only [h1, ne_eq, not_true_eq_false, if_false, hrest, if_true] at h
      cases subobjs with
      | none =>
        simp only [Prod.mk.injEq] at h
        obtain ⟨rfl, rfl, rfl⟩ := h
        refine ⟨?_, ?_⟩
        · simp only [visitOrder_mk_none, List.reverse_nil]
          exact Prod.ext rfl (Prod.ext h1.symm hrest.symm)
        · simp [space, spaceOf_reverse]
          rfl
      | some subs =>
        rcases hq : iterateSubobjs func true (callsWhileOk func s bps.reverse).1 subs
          ((bytes, comp, uncomp) - (spaceOf bps - spaceOf [])) with ⟨s2, e2, left2, c2⟩
        dsimp only at h
        rw [hq] at h
        simp only [Prod.mk.injEq] at h
        obtain ⟨rfl, rfl, rfl⟩ := h
        obtain ⟨hcalls, hc⟩ := iterateSubobjs_free subs _ _ _ _ _ _ hq
        refine ⟨?_, ?_⟩
        · simp only [visitOrder_mk_some, List.reverse_nil, List.nil_append, callsWhileOk_append, h1,
            ne_eq, not_true_eq_false, if_false]
          exact hcalls
        · simp only [visitOrder_mk_some, hc, spaceOf_append, spaceOf_reverse, List.reverse_nil,
            spaceOf_nil, List.nil_append, space]
          abel
    · simp only [h1, ne_eq, not_false_eq_true, if_true, Prod.mk.injEq] at h
      obtain ⟨rfl, rfl, rfl⟩ := h
      cases subobjs with
      | none =>
        refine ⟨?_, ?_⟩
        · simp only [visitOrder_mk_none, List.reverse_reverse]
        · simp only [visitOrder_mk_none, List.reverse_reverse, spaceOf_reverse, space]
      | some subs =>
        refine ⟨?_, ?_⟩
        · simp only [visitOrder_mk_some, List.reverse_reverse, callsWhileOk_append, h1, ne_eq,
            not_false_eq_true, if_true]
        · simp only [visitOrder_mk_some, List.reverse_reverse, spaceOf_append, spaceOf_reverse, space]
          abel

/-- The loop over the sub-bpobjs, the same way. -/
theorem iterateSubobjs_free : ∀ (subs : List Bpobj) (s s' : σ) (err : ℤ) (left : List Bpobj)
    (c c' : Space), iterateSubobjs func true s subs c = (s', err, left, c') →
      (s', err, visitOrderList left) = callsWhileOk func s (visitOrderList subs) ∧
        c' = c - (spaceOf (visitOrderList subs) - spaceOf (visitOrderList left))
  | [], s, s', err, left, c, c', h => by
    simp only [iterateSubobjs, Prod.mk.injEq] at h
    obtain ⟨rfl, rfl, rfl, rfl⟩ := h
    simp [callsWhileOk]
  | sub :: subs, s, s', err, left, c, c', h => by
    rw [iterateSubobjs] at h
    rcases hq : iterateSubobjs func true s subs c with ⟨s1, e1, left1, c1⟩
    obtain ⟨hcalls1, hc1⟩ := iterateSubobjs_free subs _ _ _ _ _ _ hq
    rw [hq] at h
    dsimp only at h
    by_cases he1 : e1 = 0
    · have hleft1 : visitOrderList left1 = [] := by
        have h0 : (callsWhileOk func s (visitOrderList subs)).2.1 = 0 := by rw [← hcalls1]; exact he1
        have := callsWhileOk_rest_of_ok func h0
        rw [← hcalls1] at this
        exact this
      simp only [he1, ne_eq, not_true_eq_false, if_false, if_true] at h
      rcases hq2 : iterateImpl func true s1 sub with ⟨s2, e2, sub'⟩
      obtain ⟨hcalls2, hc2⟩ := iterateImpl_free sub _ _ _ _ hq2
      rw [hq2] at h
      dsimp only at h
      have hstep : callsWhileOk func s (visitOrderList (sub :: subs)) = callsWhileOk func s1 (visitOrder sub) := by
        rw [visitOrderList_cons, callsWhileOk_append, ← hcalls1]
        simp [he1]
      by_cases he2 : e2 = 0
      · have hsub' : visitOrder sub' = [] := by
          have h0 : (callsWhileOk func s1 (visitOrder sub)).2.1 = 0 := by rw [← hcalls2]; exact he2
          have := callsWhileOk_rest_of_ok func h0
          rw [← hcalls2] at this
          exact this
        simp only [he2, ne_eq, not_true_eq_false, if_false, Prod.mk.injEq] at h
        obtain ⟨rfl, rfl, rfl, rfl⟩ := h
        refine ⟨?_, ?_⟩
        · rw [hstep, ← hcalls2, hsub', he2, visitOrderList_nil]
        · rw [hc1, hc2, hleft1, hsub', visitOrderList_cons, visitOrderList_nil, spaceOf_append,
            spaceOf_nil]
          abel
      · simp only [he2, ne_eq, not_false_eq_true, if_true, Prod.mk.injEq] at h
        obtain ⟨rfl, rfl, rfl, rfl⟩ := h
        refine ⟨?_, ?_⟩
        · rw [hstep, ← hcalls2, visitOrderList_cons, visitOrderList_nil, List.nil_append]
        · rw [hc1, hc2, hleft1, visitOrderList_cons, visitOrderList_cons, visitOrderList_nil,
            spaceOf_append, spaceOf_append, spaceOf_nil]
          abel
    · simp only [he1, ne_eq, not_false_eq_true, if_true, Prod.mk.injEq] at h
      obtain ⟨rfl, rfl, rfl, rfl⟩ := h
      refine ⟨?_, ?_⟩
      · rw [visitOrderList_cons, visitOrderList_cons, callsWhileOk_append, ← hcalls1]
        simp [he1]
      · rw [hc1, visitOrderList_cons, visitOrderList_cons, spaceOf_append, spaceOf_append]
        abel
end

mutual
/-- The visit order is an order of what the bpobj reaches. -/
theorem visitOrder_perm : ∀ bpo : Bpobj, (visitOrder bpo).Perm bpo.reach
  | ⟨bps, _, _, _, none⟩ => by
    rw [visitOrder_mk_none, reach_mk_none]
    exact List.reverse_perm bps
  | ⟨bps, _, _, _, some subs⟩ => by
    rw [visitOrder_mk_some, reach_mk_some]
    exact (List.reverse_perm bps).append (visitOrderList_perm subs)

theorem visitOrderList_perm : ∀ subs : List Bpobj, (visitOrderList subs).Perm (reachList subs)
  | [] => by rw [visitOrderList_nil, reachList_nil]
  | sub :: subs => by
    rw [visitOrderList_cons, reachList_cons]
    exact List.perm_append_comm.trans ((visitOrder_perm sub).append (visitOrderList_perm subs))
end

theorem spaceOf_visitOrder (bpo : Bpobj) : spaceOf (visitOrder bpo) = spaceOf bpo.reach :=
  spaceOf_perm (visitOrder_perm bpo)

/-- `bpobj_iterate` leaves the surplus of the counters as it was: it takes
off them exactly what it frees. -/
theorem surplus_iterate {bpo bpo' : Bpobj} {s s' : σ} {err : ℤ}
    (h : bpo.iterate func s = (s', err, bpo')) : bpo'.surplus = bpo.surplus := by
  obtain ⟨_, hspace⟩ := iterateImpl_free func bpo s s' err bpo' h
  unfold surplus
  rw [hspace, ← spaceOf_visitOrder, ← spaceOf_visitOrder]
  abel

theorem Exact.iterate {bpo bpo' : Bpobj} (hb : bpo.Exact) {s s' : σ} {err : ℤ}
    (h : bpo.iterate func s = (s', err, bpo')) : bpo'.Exact := by
  have hs := surplus_iterate func h
  unfold surplus at hs
  unfold Exact at *
  rw [hb, sub_self, sub_eq_zero] at hs
  exact hs

end IterateSpec

end Bpobj

/-! ## Top-level bpobjs over a run -/

/-- The top-level bpobjs of a pool, by object number: those no other bpobj
lists. -/
abbrev BpobjStore := ℕ → Option Bpobj

/-- The operations on bpobjs, `func` and its argument with a state of type
`σ`. -/
inductive BpobjOp (σ : Type*)
  | alloc (obj : ℕ)
  | enqueue (obj : ℕ) (bp : Bp)
  | enqueueSubobj (obj subobj : ℕ) (flatten : Bool)
  | enqueueEmptySubobj (obj : ℕ)
  | iterate (obj : ℕ) (func : σ → Bp → σ × ℤ) (s : σ)

/-- One operation. The sub-bpobj handed to `bpobj_enqueue_subobj` stops being
top-level: its parent lists it. An operation on an object that is not a
top-level bpobj, or that would list a bpobj in itself, is not one the code
makes, and changes nothing. -/
def bpobjStep {σ : Type*} (store : BpobjStore) : BpobjOp σ → BpobjStore
  | .alloc obj => Function.update store obj (some Bpobj.empty)
  | .enqueue obj bp =>
    match store obj with
    | some bpo => Function.update store obj (some (bpo.enqueue bp))
    | none => store
  | .enqueueSubobj obj subobj flatten =>
    match store obj, store subobj with
    | some bpo, some sub =>
      if obj = subobj then store
      else Function.update (Function.update store subobj none) obj
        (some (bpo.enqueueSubobj (.obj sub) flatten))
    | _, _ => store
  | .enqueueEmptySubobj obj =>
    match store obj with
    | some bpo => Function.update store obj (some (bpo.enqueueSubobj .empty false))
    | none => store
  | .iterate obj func s =>
    match store obj with
    | some bpo => Function.update store obj (some (bpo.iterate func s).2.2)
    | none => store

/-- A run of operations. -/
def bpobjRun {σ : Type*} (store : BpobjStore) (ops : List (BpobjOp σ)) : BpobjStore :=
  ops.foldl bpobjStep store

/-- Every top-level bpobj counts exactly what it reaches. -/
def StoreExact (store : BpobjStore) : Prop := ∀ obj bpo, store obj = some bpo → bpo.Exact

theorem StoreExact.update {store : BpobjStore} (h : StoreExact store) (obj : ℕ) {v : Option Bpobj}
    (hv : ∀ bpo, v = some bpo → bpo.Exact) : StoreExact (Function.update store obj v) := by
  intro o bpo ho
  by_cases hoe : o = obj
  · subst hoe
    rw [Function.update_self] at ho
    exact hv bpo ho
  · rw [Function.update_of_ne hoe] at ho
    exact h o bpo ho

theorem StoreExact.step {σ : Type*} {store : BpobjStore} (h : StoreExact store) (op : BpobjOp σ) :
    StoreExact (bpobjStep store op) := by
  cases op with
  | alloc obj =>
    exact h.update obj fun bpo hb => by cases hb; rfl
  | enqueue obj bp =>
    rcases hb : store obj with _ | bpo
    · simpa only [bpobjStep, hb] using h
    · simp only [bpobjStep, hb]
      exact h.update obj fun _ hv => by cases hv; exact (h obj bpo hb).enqueue bp
  | enqueueSubobj obj subobj flatten =>
    rcases hb : store obj with _ | bpo
    · simpa only [bpobjStep, hb] using h
    rcases hs : store subobj with _ | sub
    · simpa only [bpobjStep, hb, hs] using h
    simp only [bpobjStep, hb, hs]
    split_ifs with heq
    · exact h
    · refine (h.update subobj fun _ hv => by cases hv).update obj fun _ hv => ?_
      cases hv
      exact (h obj bpo hb).enqueueSubobj _ flatten fun sub' hsub => by
        cases hsub
        exact h subobj sub hs
  | enqueueEmptySubobj obj =>
    rcases hb : store obj with _ | bpo
    · simpa only [bpobjStep, hb] using h
    · simp only [bpobjStep, hb]
      exact h.update obj fun _ hv => by
        cases hv
        exact (h obj bpo hb).enqueueSubobj _ false fun _ hsub => by cases hsub
  | iterate obj func s =>
    rcases hb : store obj with _ | bpo
    · simpa only [bpobjStep, hb] using h
    · simp only [bpobjStep, hb]
      exact h.update obj fun _ hv => by
        cases hv
        exact (h obj bpo hb).iterate func (show bpo.iterate func s =
          ((bpo.iterate func s).1, (bpo.iterate func s).2.1, (bpo.iterate func s).2.2) from rfl)

theorem StoreExact.run {σ : Type*} {store : BpobjStore} (h : StoreExact store) (ops : List (BpobjOp σ)) :
    StoreExact (bpobjRun store ops) := by
  induction ops generalizing store with
  | nil => exact h
  | cons op ops ih => exact ih (h.step op)

/-- Every top-level bpobj of a run counts exactly what it reaches, and
`bpobj_iterate` on it calls the function along an order of what it reaches
until the function fails: the bpobj left reaches exactly the entries not
yet visited, the failing one first, and still counts them exactly. -/
theorem bpobj_accounting {σ τ : Type*} (store : BpobjStore) (ops : List (BpobjOp σ))
    (hstore : StoreExact store) (obj : ℕ) (bpo : Bpobj) (hobj : bpobjRun store ops obj = some bpo) :
    bpo.Exact ∧ bpo.visitOrder.Perm bpo.reach ∧
      ∀ (func : τ → Bp → τ × ℤ) (s s' : τ) (err : ℤ) (bpo' : Bpobj),
        bpo.iterate func s = (s', err, bpo') →
          (s', err, bpo'.visitOrder) = Bpobj.callsWhileOk func s bpo.visitOrder ∧ bpo'.Exact := by
  have hexact := hstore.run ops obj bpo hobj
  refine ⟨hexact, Bpobj.visitOrder_perm bpo, fun func s s' err bpo' h => ?_⟩
  exact ⟨(Bpobj.iterateImpl_free func bpo s s' err bpo' h).1, hexact.iterate func h⟩

theorem bpobj_accounting_enqueued :
    (Bpobj.empty.enqueue ⟨5, 512, 512, 1024, by decide⟩).Exact ∧
      (Bpobj.empty.enqueue ⟨5, 512, 512, 1024, by decide⟩).visitOrder.Perm
        (Bpobj.empty.enqueue ⟨5, 512, 512, 1024, by decide⟩).reach ∧
      ∀ (func : Unit → Bp → Unit × ℤ) (s s' : Unit) (err : ℤ) (bpo' : Bpobj),
        (Bpobj.empty.enqueue ⟨5, 512, 512, 1024, by decide⟩).iterate func s = (s', err, bpo') →
          (s', err, bpo'.visitOrder) =
            Bpobj.callsWhileOk func s (Bpobj.empty.enqueue ⟨5, 512, 512, 1024, by decide⟩).visitOrder ∧
          bpo'.Exact :=
  bpobj_accounting (fun _ => none) [BpobjOp.alloc (σ := Unit) 0, .enqueue 0 ⟨5, 512, 512, 1024, by decide⟩]
    (fun _ _ h => by cases h) 0 _ rfl

end ZfsOsx.Dsl
