import Mathlib

/-!
# Binary trees: in-order traversal, child indices and zippers

General facts about Mathlib's `BinaryTree` that the AVL development uses.
Children are addressed by an index `i : Fin 2` (0 = left, 1 = right), the
way C code that keeps `child[2]` arrays writes them; `mk i a x y` is the node
`a` with `x` at index `i` and `y` at the other one.

A `Frame` is one step of a path from a subtree up to the root: the index at
which the subtree hangs, the value of the node above it and the sibling
subtree. `plug fs t` rebuilds the whole tree from the path `fs` (deepest frame
first) and the subtree `t`.

* `inorder_plug`: the in-order sequence of `plug fs t` is `t`'s, with the
  frames' left parts before it and their right parts after it.
* `IsAvl`: every node records `height right - height left` and that
  difference lies in `{-1, 0, 1}`.
-/
namespace BinaryTree

variable {α β : Type*}

/-- In-order sequence of the node values. -/
def inorder : BinaryTree α → List α
  | nil => []
  | node a l r => l.inorder ++ a :: r.inorder

@[simp] theorem inorder_nil : (nil : BinaryTree α).inorder = [] := rfl

@[simp] theorem inorder_node (a : α) (l r : BinaryTree α) :
    (node a l r).inorder = l.inorder ++ a :: r.inorder := rfl

@[simp] theorem length_inorder (t : BinaryTree α) : t.inorder.length = t.numNodes := by
  induction t with
  | nil => rfl
  | node a l r ihl ihr => simp [ihl, ihr]; omega

theorem inorder_map (f : α → β) (t : BinaryTree α) : (t.map f).inorder = t.inorder.map f := by
  induction t with
  | nil => rfl
  | node a l r ihl ihr => simp [map, ihl, ihr]

/-- Post-order sequence of the node values: both subtrees before their root. -/
def postorder : BinaryTree α → List α
  | nil => []
  | node a l r => l.postorder ++ r.postorder ++ [a]

@[simp] theorem postorder_nil : (nil : BinaryTree α).postorder = [] := rfl

@[simp] theorem postorder_node (a : α) (l r : BinaryTree α) :
    (node a l r).postorder = l.postorder ++ r.postorder ++ [a] := rfl

/-- Both traversals visit every node once. -/
theorem postorder_perm_inorder (t : BinaryTree α) : t.postorder.Perm t.inorder := by
  induction t with
  | nil => rfl
  | node a l r ihl ihr =>
    rw [postorder_node, inorder_node, List.append_assoc]
    exact ihl.append ((ihr.append_right [a]).trans (List.perm_append_singleton _ _))

/-- The `NeZero 2` behind the numerals of `Fin 2`, named once so that every
definition that indexes children refers to the same instance. -/
instance neZeroTwo : NeZero (2 : ℕ) := ⟨two_ne_zero⟩

/-- Node `a` with `x` at child index `i` and `y` at index `1 - i`. -/
def mk (i : Fin 2) (a : α) (x y : BinaryTree α) : BinaryTree α :=
  if i = 0 then node a x y else node a y x

/-- The child at index `i`; `nil` has none. -/
def child : BinaryTree α → Fin 2 → BinaryTree α
  | nil, _ => nil
  | node _ l r, i => if i = 0 then l else r

@[simp] theorem mk_zero (a : α) (x y : BinaryTree α) : mk 0 a x y = node a x y := rfl

@[simp] theorem mk_one (a : α) (x y : BinaryTree α) : mk 1 a x y = node a y x := rfl

@[simp] theorem child_nil (i : Fin 2) : (nil : BinaryTree α).child i = nil := rfl

@[simp] theorem child_node_zero (a : α) (l r : BinaryTree α) : (node a l r).child 0 = l := rfl

@[simp] theorem child_node_one (a : α) (l r : BinaryTree α) : (node a l r).child 1 = r := rfl

theorem fin2_cases (i : Fin 2) : i = 0 ∨ i = 1 := by
  match i with
  | 0 => exact .inl rfl
  | 1 => exact .inr rfl

@[simp] theorem one_sub_one_sub (i : Fin 2) : 1 - (1 - i) = i := by
  rcases fin2_cases i with rfl | rfl <;> rfl

theorem one_sub_ne (i : Fin 2) : 1 - i ≠ i := by
  rcases fin2_cases i with rfl | rfl <;> decide

theorem eq_or_eq_one_sub (i j : Fin 2) : i = j ∨ i = 1 - j := by
  rcases fin2_cases i with rfl | rfl <;> rcases fin2_cases j with rfl | rfl <;> simp

@[simp] theorem child_mk_self (i : Fin 2) (a : α) (x y : BinaryTree α) :
    (mk i a x y).child i = x := by
  rcases fin2_cases i with rfl | rfl <;> rfl

@[simp] theorem child_mk_other (i : Fin 2) (a : α) (x y : BinaryTree α) :
    (mk i a x y).child (1 - i) = y := by
  rcases fin2_cases i with rfl | rfl <;> rfl

/-- Every node is `mk i` of its own children, for either index. -/
theorem node_eq_mk (i : Fin 2) (a : α) (l r : BinaryTree α) :
    node a l r = mk i a ((node a l r).child i) ((node a l r).child (1 - i)) := by
  rcases fin2_cases i with rfl | rfl <;> rfl

theorem mk_other (i : Fin 2) (a : α) (x y : BinaryTree α) : mk (1 - i) a y x = mk i a x y := by
  rcases fin2_cases i with rfl | rfl <;> rfl

@[simp] theorem numNodes_mk (i : Fin 2) (a : α) (x y : BinaryTree α) :
    (mk i a x y).numNodes = x.numNodes + y.numNodes + 1 := by
  rcases fin2_cases i with rfl | rfl <;> simp; omega

@[simp] theorem height_mk (i : Fin 2) (a : α) (x y : BinaryTree α) :
    (mk i a x y).height = max x.height y.height + 1 := by
  rcases fin2_cases i with rfl | rfl <;> simp [Nat.max_comm]

/-- The part of `mk i a x y`'s in-order sequence that precedes `x`. -/
def before (i : Fin 2) (a : α) (y : BinaryTree α) : List α :=
  if i = 0 then [] else y.inorder ++ [a]

/-- The part of `mk i a x y`'s in-order sequence that follows `x`. -/
def after (i : Fin 2) (a : α) (y : BinaryTree α) : List α :=
  if i = 0 then a :: y.inorder else []

@[simp] theorem before_zero (a : α) (y : BinaryTree α) : before 0 a y = [] := rfl

@[simp] theorem before_one (a : α) (y : BinaryTree α) : before 1 a y = y.inorder ++ [a] := rfl

@[simp] theorem after_zero (a : α) (y : BinaryTree α) : after 0 a y = a :: y.inorder := rfl

@[simp] theorem after_one (a : α) (y : BinaryTree α) : after 1 a y = [] := rfl

theorem inorder_mk (i : Fin 2) (a : α) (x y : BinaryTree α) :
    (mk i a x y).inorder = before i a y ++ x.inorder ++ after i a y := by
  rcases fin2_cases i with rfl | rfl <;> simp [before, after]

/-! ## Zippers -/

/-- One step of a path: the subtree hangs at index `side` below `val`, next
to `sib`. -/
structure Frame (α : Type*) where
  side : Fin 2
  val : α
  sib : BinaryTree α
  deriving DecidableEq, Repr

/-- Rebuild the tree from a path (deepest frame first) and the subtree at its
end. -/
def plug : List (Frame α) → BinaryTree α → BinaryTree α
  | [], t => t
  | f :: fs, t => plug fs (mk f.side f.val t f.sib)

@[simp] theorem plug_nil (t : BinaryTree α) : plug [] t = t := rfl

@[simp] theorem plug_cons (f : Frame α) (fs : List (Frame α)) (t : BinaryTree α) :
    plug (f :: fs) t = plug fs (mk f.side f.val t f.sib) := rfl

theorem plug_append (fs gs : List (Frame α)) (t : BinaryTree α) :
    plug (fs ++ gs) t = plug gs (plug fs t) := by
  induction fs generalizing t with
  | nil => rfl
  | cons f fs ih => exact ih _

/-- What the path puts before the subtree in the in-order sequence. -/
@[grind] def leftCtx : List (Frame α) → List α
  | [] => []
  | f :: fs => leftCtx fs ++ before f.side f.val f.sib

/-- What the path puts after the subtree in the in-order sequence. -/
@[grind] def rightCtx : List (Frame α) → List α
  | [] => []
  | f :: fs => after f.side f.val f.sib ++ rightCtx fs

theorem leftCtx_append (fs gs : List (Frame α)) : leftCtx (fs ++ gs) = leftCtx gs ++ leftCtx fs := by
  induction fs with
  | nil => simp [leftCtx]
  | cons f fs ih => simp [leftCtx, ih]

theorem rightCtx_append (fs gs : List (Frame α)) :
    rightCtx (fs ++ gs) = rightCtx fs ++ rightCtx gs := by
  induction fs with
  | nil => simp [rightCtx]
  | cons f fs ih => simp [rightCtx, ih]

/-- A path that only ever goes left puts nothing before its subtree. -/
theorem leftCtx_eq_nil {fs : List (Frame α)} (h : ∀ f ∈ fs, f.side = 0) : leftCtx fs = [] := by
  induction fs with
  | nil => rfl
  | cons f fs ih =>
    simp only [leftCtx, h f List.mem_cons_self, before, if_true, List.append_nil]
    exact ih fun g hg => h g (List.mem_cons_of_mem _ hg)

/-- A path that only ever goes right puts nothing after its subtree. -/
theorem rightCtx_eq_nil {fs : List (Frame α)} (h : ∀ f ∈ fs, f.side = 1) : rightCtx fs = [] := by
  induction fs with
  | nil => rfl
  | cons f fs ih =>
    simp only [rightCtx, h f List.mem_cons_self, after, Fin.one_eq_zero_iff]
    exact ih fun g hg => h g (List.mem_cons_of_mem _ hg)

theorem inorder_plug (fs : List (Frame α)) (t : BinaryTree α) :
    (plug fs t).inorder = leftCtx fs ++ t.inorder ++ rightCtx fs := by
  induction fs generalizing t with
  | nil => simp [leftCtx, rightCtx]
  | cons f fs ih => simp [ih, inorder_mk, leftCtx, rightCtx]

theorem numNodes_plug (fs : List (Frame α)) (t : BinaryTree α) :
    (plug fs t).numNodes = (leftCtx fs).length + t.numNodes + (rightCtx fs).length := by
  rw [← length_inorder, inorder_plug]; simp; omega

/-- Every frame of a path holds a node of the plugged tree. -/
theorem length_add_numNodes_le (fs : List (Frame α)) (t : BinaryTree α) :
    fs.length + t.numNodes ≤ (plug fs t).numNodes := by
  induction fs generalizing t with
  | nil => simp
  | cons f fs ih =>
    have h := ih (mk f.side f.val t f.sib)
    simp only [numNodes_mk, plug_cons, List.length_cons] at h ⊢
    omega

/-- Every value of the tree sits at the end of some path. -/
theorem exists_plug_of_mem {t : BinaryTree α} {x : α} (h : x ∈ t.inorder) :
    ∃ fs l r, t = plug fs (node x l r) := by
  induction t with
  | nil => cases h
  | node a l r ihl ihr =>
    rw [inorder_node, List.mem_append, List.mem_cons] at h
    rcases h with h | rfl | h
    · obtain ⟨fs, l', r', rfl⟩ := ihl h
      exact ⟨fs ++ [⟨0, a, r⟩], l', r', by rw [plug_append]; rfl⟩
    · exact ⟨[], l, r, rfl⟩
    · obtain ⟨fs, l', r', rfl⟩ := ihr h
      exact ⟨fs ++ [⟨1, a, l⟩], l', r', by rw [plug_append]; rfl⟩

/-! ## AVL balance -/

/-- Every node records, through `bal`, the height of its right subtree minus
that of its left one, and the difference is -1, 0 or 1. -/
def IsAvl (bal : α → Int) : BinaryTree α → Prop
  | nil => True
  | node a l r =>
    bal a = (r.height : Int) - l.height ∧ -1 ≤ bal a ∧ bal a ≤ 1 ∧ IsAvl bal l ∧ IsAvl bal r

@[simp] theorem isAvl_nil (bal : α → Int) : IsAvl bal (nil : BinaryTree α) := trivial

theorem isAvl_node {bal : α → Int} {a : α} {l r : BinaryTree α} :
    IsAvl bal (node a l r) ↔
      bal a = (r.height : Int) - l.height ∧ -1 ≤ bal a ∧ bal a ≤ 1 ∧ IsAvl bal l ∧ IsAvl bal r :=
  Iff.rfl

end BinaryTree
