import ZfsOsx.Avl.Remove
import ZfsOsx.Lib.Ordered

/-!
# Walking to a neighbour, and `avl_update`

`avl_walk` (`module/avl/avl.c:124-166`) steps from a node to its in-order
neighbour: down once and then all the way the other way when there is a child
on that side, else up until the climb comes out of a child on the other side.
`AVL_NEXT` and `AVL_PREV` (`include/sys/avl.h:205-206`) are its two
directions. `avl_update_lt`, `avl_update_gt` and `avl_update`
(avl.c:809-866) look at these neighbours to see whether a node whose key the
caller changed is still in order, and reinsert it (`AVL_REINSERT`:
`avl_remove`, then `avl_add`) when it is not.

* `walkUp_eq`: the climb on the heap stops where `firstUp` says, at the
  first frame of the path on the given side.
* `firstUp_zero`, `firstUp_one`: that is the first address after the subtree
  in in-order sequence, resp. the last one before it.
* `avlNext_eq`, `avlPrev_eq`: on a laid-out tree, `AVL_NEXT` is the next
  address of the in-order sequence and `AVL_PREV` the previous one.
-/
namespace ZfsOsx.Avl

/-- The climb of `avl_walk` (avl.c:150-158): up through the parents until the
node came out of child `right`; NULL past the root. -/
def walkUp (t : AvlTree) (right : Fin 2) : Nat → Nat → Option Nat
  | 0, _ => none
  | fuel + 1, node =>
    let wasChild := t.childIndex node
    match t.parent node with
    | none => none
    | some p => if wasChild = right then some p else walkUp t right fuel p

/-- `avl_walk` (avl.c:124-166) from a node of the tree: the previous node for
`left = 0` (`AVL_BEFORE`), the next one for `left = 1` (`AVL_AFTER`). Both
loops run on fuel `avl_numnodes`. -/
def avlWalk (t : AvlTree) (oldnode : Nat) (left : Fin 2) : Option Nat :=
  let right := 1 - left
  match t.child oldnode left with
  | some c => descendLoop t right t.numnodes c
  | none => walkUp t right t.numnodes oldnode

/-- `AVL_NEXT` (avl.h:205). -/
def avlNext (t : AvlTree) (node : Nat) : Option Nat := avlWalk t node 1

/-- `AVL_PREV` (avl.h:206). -/
def avlPrev (t : AvlTree) (node : Nat) : Option Nat := avlWalk t node 0

/-- `AVL_REINSERT` (avl.c:809-811): `avl_remove` and then `avl_add`. -/
def avlReinsert (compar : Nat → Nat → Ordering) (t : AvlTree) (obj tmp : Nat) :
    Option AvlTree :=
  (avlRemove t obj tmp).bind fun t => avlAdd compar t obj

/-- The test the three update functions share: the neighbour on side `dir`
exists and `obj` compares on its wrong side, less than the previous node or
greater than the next one. -/
def outOfOrder (compar : Nat → Nat → Ordering) (t : AvlTree) (obj : Nat) (dir : Fin 2) : Bool :=
  (avlWalk t obj dir).any fun neighbor => compar obj neighbor = if dir = 0 then .lt else .gt

/-- `avl_update_lt` (avl.c:813-828), for a key that can only have gone down:
only the previous node is checked. The `ASSERT` on the next node is not
compiled into kernels and is no code here. -/
def avlUpdateLt (compar : Nat → Nat → Ordering) (t : AvlTree) (obj tmp : Nat) :
    Option (AvlTree × Bool) :=
  if outOfOrder compar t obj 0 then (avlReinsert compar t obj tmp).map fun t => (t, true)
  else some (t, false)

/-- `avl_update_gt` (avl.c:830-845), for a key that can only have gone up. -/
def avlUpdateGt (compar : Nat → Nat → Ordering) (t : AvlTree) (obj tmp : Nat) :
    Option (AvlTree × Bool) :=
  if outOfOrder compar t obj 1 then (avlReinsert compar t obj tmp).map fun t => (t, true)
  else some (t, false)

/-- `avl_update` (avl.c:847-866): both neighbours, the previous one first. -/
def avlUpdate (compar : Nat → Nat → Ordering) (t : AvlTree) (obj tmp : Nat) :
    Option (AvlTree × Bool) :=
  if outOfOrder compar t obj 0 then (avlReinsert compar t obj tmp).map fun t => (t, true)
  else if outOfOrder compar t obj 1 then (avlReinsert compar t obj tmp).map fun t => (t, true)
  else some (t, false)

open BinaryTree

/-! ## The climb on shapes -/

/-- Where the climb stops on a path: the node of the first frame whose
subtree hangs at index `right`. -/
@[grind] def firstUp (right : Fin 2) : List (Frame (Nat × Int)) → Option Nat
  | [] => none
  | f :: fs => if f.side = right then some f.val.1 else firstUp right fs

/-- With more fuel than frames, the heap climb from the node at the end of a
laid-out path stops at `firstUp`. -/
theorem walkUp_eq {t : AvlTree} (right : Fin 2) {fs : List (Frame (Nat × Int))} :
    ∀ {x : Nat} {fuel : Nat}, LinkOK t (some x) (up fs) → PathRep t fs (some x) →
      fs.length < fuel → walkUp t right fuel x = firstUp right fs := by
  induction fs with
  | nil =>
    intro x fuel hl _ hf
    obtain ⟨k, rfl⟩ : ∃ k, fuel = k + 1 := ⟨fuel - 1, by simp at hf; omega⟩
    have hp : t.parent x = none := hl
    simp [walkUp, hp, firstUp]
  | cons f fs ih =>
    intro x fuel hl hpath hf
    obtain ⟨k, rfl⟩ : ∃ k, fuel = k + 1 := ⟨fuel - 1, by simp at hf; omega⟩
    obtain ⟨hp, hi⟩ := hl
    obtain ⟨-, -, -, -, -, hl', hpath'⟩ := hpath
    simp only [walkUp, hp, hi, firstUp]
    split
    · rfl
    · exact ih hl' hpath' (by simp at hf; omega)

/-- Climbing out of a left child reaches the first address after the subtree. -/
theorem firstUp_zero (fs : List (Frame (Nat × Int))) :
    firstUp 0 fs = ((rightCtx fs).map Prod.fst).head? := by
  induction fs with
  | nil => rfl
  | cons f fs ih =>
    rcases fin2_cases f.side with h | h
    · simp [firstUp, rightCtx, h, after]
    · simp [firstUp, rightCtx, h, after, ih]

/-- Climbing out of a right child reaches the last address before the subtree. -/
theorem firstUp_one (fs : List (Frame (Nat × Int))) :
    firstUp 1 fs = ((leftCtx fs).map Prod.fst).getLast? := by
  induction fs with
  | nil => rfl
  | cons f fs ih =>
    rcases fin2_cases f.side with h | h
    · simp [firstUp, leftCtx, h, before, ih]
    · simp [firstUp, leftCtx, h, before]

/-! ## `AVL_NEXT` and `AVL_PREV` are the in-order neighbours -/

section Walk

variable {t : AvlTree} {s : Shape} {x : Nat}

/-- The node `x` of the tree at the end of its path, with the facts both
directions of the walk read, and the fuel they need. -/
theorem walk_setup (hrep : Rep t s) (hnd : (addrs s).Nodup) (hsize : t.numnodes = s.numNodes)
    (hx : x ∈ addrs s) :
    ∃ fs b l r, s = plug fs (node (x, b) l r) ∧ LinkOK t (some x) (up fs) ∧
      PathRep t fs (some x) ∧ t.child x 0 = rootPtr l ∧ t.child x 1 = rootPtr r ∧
      Body t l ∧ Body t r ∧
      addrs s = (leftCtx fs).map Prod.fst ++ addrs l ++ x :: (addrs r ++ (rightCtx fs).map Prod.fst) ∧
      x ∉ (leftCtx fs).map Prod.fst ++ addrs l ∧ x ∉ addrs r ++ (rightCtx fs).map Prod.fst ∧
      fs.length < t.numnodes ∧ l.height ≤ t.numnodes ∧ r.height ≤ t.numnodes := by
  obtain ⟨⟨x, b⟩, hp, rfl⟩ := List.mem_map.1 hx
  obtain ⟨fs, l, r, rfl⟩ := exists_plug_of_mem hp
  obtain ⟨hlink, hbody, hpath⟩ := (rep_plug _ _ _).1 hrep
  obtain ⟨-, hl, hr, -, -, hbl, hbr⟩ := hbody
  have hadd : addrs (plug fs (node (x, b) l r)) =
      (leftCtx fs).map Prod.fst ++ addrs l ++ x :: (addrs r ++ (rightCtx fs).map Prod.fst) := by
    rw [addrs_plug, addrs_node]
    simp
  have hfuel : fs.length + (l.numNodes + r.numNodes + 1) ≤ t.numnodes := by
    have := length_add_numNodes_le fs (node (x, b) l r)
    rw [hsize]
    simpa using this
  have hhl := height_le_numNodes l
  have hhr := height_le_numNodes r
  rw [hadd] at hnd
  have hnd' := (List.nodup_append.1 hnd).2.1
  refine ⟨fs, b, l, r, rfl, hlink, hpath, hl, hr, hbl, hbr, hadd, ?_, (List.nodup_cons.1 hnd').1,
    by omega, by omega, by omega⟩
  intro hmem
  exact (List.nodup_append.1 hnd).2.2 x hmem x List.mem_cons_self rfl

/-- `AVL_NEXT` on a laid-out tree is the next address in in-order sequence. -/
theorem avlNext_eq (hrep : Rep t s) (hnd : (addrs s).Nodup) (hsize : t.numnodes = s.numNodes)
    (hx : x ∈ addrs s) : avlNext t x = (addrs s).nextOf x := by
  obtain ⟨fs, b, l, r, rfl, hlink, hpath, -, hr, -, hbr, hadd, hxL, -, hfuel, -, hh⟩ :=
    walk_setup hrep hnd hsize hx
  rw [hadd, List.nextOf_append_cons hxL, avlNext, avlWalk, hr]
  rcases hroot : rootPtr r with _ | a
  · -- no right child: climb to the first ancestor entered from its left child
    rcases r with _ | ⟨⟨a, ab⟩, rl, rr⟩
    · simp only [addrs_nil, List.nil_append]
      rw [← firstUp_zero]
      exact walkUp_eq 0 hlink hpath hfuel
    · cases hroot
  · -- a right child: its leftmost node
    obtain ⟨gs, n, nb, X, rfl, hgs, hd⟩ := descendLoop_spec hbr 0 a hroot t.numnodes hh
    have hl0 : leftCtx gs = [] := leftCtx_eq_nil hgs
    simp [addrs_plug, hl0, hd]

/-- `AVL_PREV` on a laid-out tree is the previous address in in-order sequence. -/
theorem avlPrev_eq (hrep : Rep t s) (hnd : (addrs s).Nodup) (hsize : t.numnodes = s.numNodes)
    (hx : x ∈ addrs s) : avlPrev t x = (addrs s).prevOf x := by
  obtain ⟨fs, b, l, r, rfl, hlink, hpath, hl, -, hbl, -, hadd, -, hxR, hfuel, hh, -⟩ :=
    walk_setup hrep hnd hsize hx
  rw [hadd, List.prevOf_append_cons hxR, avlPrev, avlWalk, hl]
  rcases hroot : rootPtr l with _ | a
  · -- no left child: climb to the first ancestor entered from its right child
    rcases l with _ | ⟨⟨a, ab⟩, ll, lr⟩
    · simp only [addrs_nil, List.append_nil]
      rw [← firstUp_one]
      exact walkUp_eq 1 hlink hpath hfuel
    · cases hroot
  · -- a left child: its rightmost node
    obtain ⟨gs, n, nb, X, rfl, hgs, hd⟩ := descendLoop_spec hbl 1 a hroot t.numnodes hh
    have hr0 : rightCtx gs = [] := rightCtx_eq_nil hgs
    simp [addrs_plug, hr0, hd]

end Walk

end ZfsOsx.Avl
