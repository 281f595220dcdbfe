import Mathlib.Algebra.BigOperators.Group.Finset.Piecewise
import Mathlib.Data.Fintype.Basic
import Mathlib.Tactic.Abel

/-!
# Forests given by parent pointers

C code that keeps a parent pointer in each node of a tree walks up by
following it until it finds none. A `RankedForest D` is such a forest on `D`
with a rank that falls from a node to its parent: the rank bounds every walk
up, and a recursion up the forest takes `rank + 1` steps of fuel.

* `ancestors d`: `d` and the nodes above it, nearest first.
* `childSum g d`: the sum of `g` over the children of `d`. When `g` changes at
  one node only its parent's sum moves (`childSum_update`); when a node moves
  to a new parent, the two parents' sums move (`childSum_reparent`).
* `reparent`: moving a node under a new parent that is not below it keeps the
  forest ranked, and keeps its root (`Rooted.reparent`).
* `Accounts φ a b o`: every node's `a` is the sum of its children's `b` plus
  an offset `o`. A change at one node moves the offsets of that node and of
  its parent only (`Accounts.update`), a move those of the two parents
  (`Accounts.reparent`).
-/

/-- A forest on `D` by parent pointers, with a rank that falls from a node to
its parent. -/
structure RankedForest (D : Type*) where
  parent : D → Option D
  rank : D → ℕ
  rank_lt : ∀ {d p : D}, parent d = some p → rank p < rank d

namespace RankedForest

variable {D : Type*} (F : RankedForest D) {d p a : D}

theorem parent_ne_self : F.parent d ≠ some d :=
  fun h => (F.rank_lt h).false

/-- `d` and the nodes above it, nearest first, with `n` steps of fuel. -/
@[grind] def ancestorsAux : ℕ → D → List D
  | 0, _ => []
  | n + 1, d => d :: match F.parent d with
    | none => []
    | some p => ancestorsAux n p

/-- `d` and the nodes above it, nearest first. -/
def ancestors (d : D) : List D := F.ancestorsAux (F.rank d + 1) d

theorem ancestorsAux_succ_of_parent_none {n : ℕ} (h : F.parent d = none) :
    F.ancestorsAux (n + 1) d = [d] := by
  simp only [ancestorsAux, h]

theorem ancestorsAux_succ_of_parent {n : ℕ} (h : F.parent d = some p) :
    F.ancestorsAux (n + 1) d = d :: F.ancestorsAux n p := by
  simp only [ancestorsAux, h]

/-- More fuel than the rank does not change the walk up. -/
theorem ancestorsAux_congr {n m : ℕ} (hn : F.rank d < n) (hm : F.rank d < m) :
    F.ancestorsAux n d = F.ancestorsAux m d := by
  induction n generalizing m d with
  | zero => omega
  | succ n ih =>
    obtain ⟨m, rfl⟩ : ∃ m', m = m' + 1 := ⟨m - 1, by omega⟩
    cases hp : F.parent d with
    | none => rw [F.ancestorsAux_succ_of_parent_none hp, F.ancestorsAux_succ_of_parent_none hp]
    | some p =>
      have := F.rank_lt hp
      rw [F.ancestorsAux_succ_of_parent hp, F.ancestorsAux_succ_of_parent hp,
        ih (by omega : F.rank p < n) (by omega : F.rank p < m)]

theorem ancestors_of_parent_none (h : F.parent d = none) : F.ancestors d = [d] :=
  F.ancestorsAux_succ_of_parent_none h

theorem ancestors_of_parent (h : F.parent d = some p) : F.ancestors d = d :: F.ancestors p := by
  have hr := F.rank_lt h
  rw [ancestors, F.ancestorsAux_succ_of_parent h, ancestors]
  exact congrArg (d :: ·) (F.ancestorsAux_congr hr (by omega))

theorem mem_ancestors_self : d ∈ F.ancestors d := by
  cases hp : F.parent d with
  | none => simp only [F.ancestors_of_parent_none hp, List.mem_singleton]
  | some p => simp only [F.ancestors_of_parent hp, List.mem_cons, true_or]

/-- Every ancestor of `d` ranks at most as high as `d`. -/
theorem rank_le_of_mem_ancestors (h : a ∈ F.ancestors d) : F.rank a ≤ F.rank d := by
  suffices ∀ n, a ∈ F.ancestorsAux n d → F.rank a ≤ F.rank d from this _ h
  intro n
  clear h
  induction n generalizing d with
  | zero => simp [ancestorsAux]
  | succ n ih =>
    intro hmem
    cases hp : F.parent d with
    | none =>
      rw [F.ancestorsAux_succ_of_parent_none hp, List.mem_singleton] at hmem
      rw [hmem]
    | some p =>
      rw [F.ancestorsAux_succ_of_parent hp, List.mem_cons] at hmem
      rcases hmem with rfl | hmem
      · exact le_rfl
      · exact (ih hmem).trans (F.rank_lt hp).le

theorem not_mem_ancestors_of_parent (h : F.parent d = some p) : d ∉ F.ancestors p :=
  fun hd => absurd (F.rank_le_of_mem_ancestors hd) (not_le.2 (F.rank_lt h))

/-- A node other than `d` lies above `d` iff it lies above `d`'s parent. -/
theorem mem_ancestors_iff_of_parent (h : F.parent d = some p) (ha : a ≠ d) :
    a ∈ F.ancestors d ↔ a ∈ F.ancestors p := by
  rw [F.ancestors_of_parent h, List.mem_cons, or_iff_right ha]

section Reparent

variable [DecidableEq D]

/-- `d` moved under the new parent `np`, which is not below it. The nodes at
or below `d` are lifted above the rank of `np`. -/
def reparent (d np : D) (h : d ∉ F.ancestors np) : RankedForest D where
  parent := Function.update F.parent d (some np)
  rank c := if d ∈ F.ancestors c then F.rank c + F.rank np + 1 else F.rank c
  rank_lt := by
    intro c q hq
    by_cases hc : c = d
    · subst hc
      rw [Function.update_self, Option.some.injEq] at hq
      subst hq
      simp only [h, if_false, F.mem_ancestors_self, if_true]
      omega
    · rw [Function.update_of_ne hc] at hq
      have hr := F.rank_lt hq
      by_cases hd : d ∈ F.ancestors c
      · have hdq : d ∈ F.ancestors q := (F.mem_ancestors_iff_of_parent hq (Ne.symm hc)).1 hd
        simp only [hd, hdq, if_true]
        omega
      · have hdq : d ∉ F.ancestors q := mt (F.mem_ancestors_iff_of_parent hq (Ne.symm hc)).2 hd
        simp only [hd, hdq, if_false]
        exact hr

@[simp] theorem reparent_parent (np : D) (h : d ∉ F.ancestors np) :
    (F.reparent d np h).parent = Function.update F.parent d (some np) := rfl

end Reparent

/-- `r` is the forest's one root: it has no parent and every other node has one. -/
structure Rooted (F : RankedForest D) (r : D) : Prop where
  parent_root : F.parent r = none
  parent_ne_none : ∀ {d}, d ≠ r → F.parent d ≠ none

section Rooted

variable {F}

/-- The walk up from any node ends at the root. -/
theorem Rooted.mem_ancestors {r : D} (h : F.Rooted r) (d : D) : r ∈ F.ancestors d := by
  suffices ∀ n, F.rank d < n → r ∈ F.ancestors d from this _ (Nat.lt_succ_self _)
  intro n
  induction n generalizing d with
  | zero => omega
  | succ n ih =>
    intro hd
    cases hp : F.parent d with
    | none =>
      have hdr : d = r := by_contra fun hne => h.parent_ne_none hne hp
      rw [hdr]
      exact F.mem_ancestors_self
    | some p =>
      rw [F.ancestors_of_parent hp]
      exact List.mem_cons_of_mem _ (ih p (by have := F.rank_lt hp; omega))

theorem Rooted.reparent [DecidableEq D] {r np : D} (h : F.Rooted r) (hd : d ≠ r)
    (hnp : d ∉ F.ancestors np) : (F.reparent d np hnp).Rooted r where
  parent_root := by rw [reparent_parent, Function.update_of_ne (Ne.symm hd), h.parent_root]
  parent_ne_none := by
    intro c hc
    by_cases hcd : c = d
    · rw [hcd, reparent_parent, Function.update_self]
      exact Option.some_ne_none np
    · rw [reparent_parent, Function.update_of_ne hcd]
      exact h.parent_ne_none hc

end Rooted

section ChildSum

variable [DecidableEq D] {M : Type*} [AddCommGroup M] {x : D}

/-- `v` charged to the parent of `x`, if it has one. -/
@[grind] def toParent (x : D) (v : M) : D → M := fun d => if F.parent x = some d then v else 0

@[simp] theorem toParent_self (x : D) (v : M) : F.toParent x v x = 0 := by
  simp only [toParent, F.parent_ne_self, if_false]

@[simp] theorem toParent_zero (x : D) : F.toParent x (0 : M) = 0 := by
  funext d
  simp only [toParent, ite_self, Pi.zero_apply]

theorem toParent_of_parent_none (h : F.parent x = none) (v : M) : F.toParent x v = 0 := by
  funext d
  simp only [toParent, h, reduceCtorEq, if_false, Pi.zero_apply]

theorem toParent_of_parent (h : F.parent x = some p) (v : M) :
    F.toParent x v = Pi.single p v := by
  funext d
  simp only [toParent, h, Option.some.injEq, Pi.single_apply, eq_comm]

variable [Fintype D]

theorem sum_update_univ (f : D → M) (i : D) (b : M) :
    ∑ c, Function.update f i b c = ∑ c, f c + (b - f i) := by
  rw [Finset.sum_update_of_mem (Finset.mem_univ i),
    Finset.sum_eq_add_sum_sdiff_singleton_of_mem (Finset.mem_univ i) f]
  abel

/-- The sum of `g` over the children of `d`. -/
def childSum (g : D → M) (d : D) : M := ∑ c, if F.parent c = some d then g c else 0

/-- Changing `g` at `x` moves only the sum of `x`'s parent. -/
theorem childSum_update (g : D → M) (x : D) (v : M) (d : D) :
    F.childSum (Function.update g x v) d = F.childSum g d + F.toParent x (v - g x) d := by
  have hfun : (fun c => if F.parent c = some d then Function.update g x v c else 0) =
      Function.update (fun c => if F.parent c = some d then g c else 0) x
        (if F.parent x = some d then v else 0) := by
    funext c
    by_cases hc : c = x
    · subst hc; simp only [Function.update_self]
    · simp only [Function.update_of_ne hc]
  unfold childSum toParent
  rw [hfun, sum_update_univ]
  split_ifs <;> simp

/-- `childSum_update` for a function read off a map `φ` changed at `x`. -/
theorem childSum_comp_update {β : Type*} (f : β → M) (φ : D → β) (x : D) (v : β) (d : D) :
    F.childSum (fun c => f (Function.update φ x v c)) d =
      F.childSum (fun c => f (φ c)) d + F.toParent x (f v - f (φ x)) d := by
  have hfun : (fun c => f (Function.update φ x v c)) = Function.update (fun c => f (φ c)) x (f v) := by
    funext c
    by_cases hc : c = x
    · subst hc; simp only [Function.update_self]
    · simp only [Function.update_of_ne hc]
  rw [hfun, childSum_update]

/-- The sums after `d` moves under `np`: its old parent loses `g d` and `np`
gains it. -/
theorem childSum_reparent (np : D) (h : d ∉ F.ancestors np) (g : D → M) (e : D) :
    (F.reparent d np h).childSum g e = F.childSum g e - F.toParent d (g d) e + (Pi.single np (g d) : D → M) e := by
  have hfun : (fun c => if (F.reparent d np h).parent c = some e then g c else 0) =
      Function.update (fun c => if F.parent c = some e then g c else 0) d
        (if np = e then g d else 0) := by
    funext c
    by_cases hc : c = d
    · subst hc; simp only [reparent_parent, Function.update_self, Option.some.injEq]
    · simp only [reparent_parent, Function.update_of_ne hc]
  have hsymm : (if e = np then g d else 0) = if np = e then g d else 0 := by simp only [eq_comm]
  unfold childSum toParent
  rw [hfun, sum_update_univ, Pi.single_apply, hsymm]
  abel

theorem childSum_add (g h : D → M) (d : D) :
    F.childSum (g + h) d = F.childSum g d + F.childSum h d := by
  unfold childSum
  rw [← Finset.sum_add_distrib]
  refine Finset.sum_congr rfl fun c _ => ?_
  split_ifs <;> simp

/-- Every node's `a` is the sum of its children's `b` plus the offset `o`. -/
def Accounts {β : Type*} (φ : D → β) (a b : β → M) (o : D → M) : Prop :=
  ∀ d, a (φ d) = F.childSum (fun c => b (φ c)) d + o d

variable {F} {β : Type*} {φ : D → β} {a b : β → M} {o : D → M}

/-- Changing one node moves its own offset by the change of `a` and its
parent's by the change of `b`. -/
theorem Accounts.update (h : F.Accounts φ a b o) (x : D) (v : β) :
    F.Accounts (Function.update φ x v) a b
      (o + Pi.single x (a v - a (φ x)) - F.toParent x (b v - b (φ x))) := by
  intro d
  rw [F.childSum_comp_update, Pi.sub_apply, Pi.add_apply]
  by_cases hd : d = x
  · subst hd
    rw [Function.update_self, Pi.single_eq_same, h d]
    abel
  · rw [Function.update_of_ne hd, Pi.single_eq_of_ne hd, h d]
    abel

/-- Moving `d` under `np` moves the offsets of its old parent and of `np` by
`b` of `d`. -/
theorem Accounts.reparent (h : F.Accounts φ a b o) (np : D) (hnp : d ∉ F.ancestors np) :
    (F.reparent d np hnp).Accounts φ a b
      (o + F.toParent d (b (φ d)) - Pi.single np (b (φ d))) := by
  intro e
  rw [F.childSum_reparent, Pi.sub_apply, Pi.add_apply, h e]
  abel


end ChildSum

end RankedForest
