import ZfsOsx.Lib.Tree

/-!
# The AVL algorithms of `avl.c` on abstract trees

`module/avl/avl.c` rebalances by walking parent pointers upwards. Here the
same walks run over a zipper: a `Shape` is a binary tree of
`(address, stored balance)` pairs, and the path from the current node to the
root is a list of `Frame`s. `Avl/Rotation.lean`, `Avl/Insert.lean` and
`Avl/Remove.lean` then show that the pointer code does exactly these steps on
the heap.

* `rotateShape` is `avl_rotation` (both cases, written once for both
  directions through the index `left`, as the C does).
* `insertFix` is the retrace loop of `avl_insert`: it stops at the first
  ancestor brought to balance 0, or after one rotation.
* `removeFix` is the retrace loop of `avl_remove`: it stops at the first
  ancestor that was balanced, or after a rotation that kept the height.

The results are stated with `IsAvl bal`, `bal = Prod.snd`: the stored balance
is the real one.
-/
namespace ZfsOsx.Avl

open BinaryTree

/-- A tree of `(address, stored balance)` pairs. -/
abbrev Shape := BinaryTree (Nat × Int)

/-- `avl_child2balance`: the balance change when child `i` grows. -/
def child2balance (i : Fin 2) : Int := if i = 0 then -1 else 1

/-- `avl_balance2child[1 + b]` for `b` in `{-1, 0, 1}`. -/
def balance2child (b : Int) : Fin 2 := if b = 1 then 1 else 0

@[simp] theorem child2balance_zero : child2balance 0 = -1 := rfl

@[simp] theorem child2balance_one : child2balance 1 = 1 := rfl

/-- The address at the root: the pointer to the subtree, `NULL` for `nil`. -/
def rootPtr : Shape → Option Nat
  | nil => none
  | node (a, _) _ _ => some a

@[simp] theorem rootPtr_nil : rootPtr nil = none := rfl

@[simp] theorem rootPtr_node (a : Nat) (b : Int) (l r : Shape) :
    rootPtr (node (a, b) l r) = some a := rfl

@[simp] theorem rootPtr_mk (i : Fin 2) (a : Nat) (b : Int) (x y : Shape) :
    rootPtr (mk i (a, b) x y) = some a := by
  rcases fin2_cases i with rfl | rfl <;> rfl

theorem exists_rootPtr {s : Shape} (h : s ≠ nil) : ∃ a, rootPtr s = some a := by
  rcases s with _ | ⟨⟨a, b⟩, l, r⟩
  · exact absurd rfl h
  · exact ⟨a, rfl⟩

/-- The addresses of a shape in in-order sequence. -/
@[grind] def addrs (s : Shape) : List Nat := s.inorder.map Prod.fst

@[simp] theorem addrs_nil : addrs nil = [] := rfl

@[simp] theorem addrs_node (a : Nat × Int) (l r : Shape) :
    addrs (node a l r) = addrs l ++ a.1 :: addrs r := by
  simp [addrs]

theorem length_addrs (s : Shape) : (addrs s).length = s.numNodes := by
  simp [addrs]


theorem addrs_mk_congr (i : Fin 2) {a b : Nat × Int} (h : a.1 = b.1) (x y : Shape) :
    addrs (mk i a x y) = addrs (mk i b x y) := by
  rcases fin2_cases i with rfl | rfl <;> simp [h]

theorem mem_addrs_mk (i : Fin 2) (a : Nat) (b : Int) (x y : Shape) (z : Nat) :
    z ∈ addrs (mk i (a, b) x y) ↔ z = a ∨ z ∈ addrs x ∨ z ∈ addrs y := by
  rcases fin2_cases i with rfl | rfl <;> simp <;> tauto

theorem addrs_plug (fs : List (Frame (Nat × Int))) (t : Shape) :
    addrs (plug fs t) = (leftCtx fs).map Prod.fst ++ addrs t ++ (rightCtx fs).map Prod.fst := by
  simp [addrs, inorder_plug]

theorem addrs_plug_congr (fs : List (Frame (Nat × Int))) {t u : Shape} (h : addrs t = addrs u) :
    addrs (plug fs t) = addrs (plug fs u) := by
  rw [addrs_plug, addrs_plug, h]

/-- The stored balance is `height right - height left`, in `{-1, 0, 1}`. -/
def Balanced (s : Shape) : Prop := IsAvl Prod.snd s

/-- `avl_rotation` on shapes. `t` is the subtree rooted at `node`, `balance`
(±2) its new balance. The result is the rotated subtree and whether its
height went down (the C's return value). -/
def rotateShape (t : Shape) (balance : Int) : Shape × Bool :=
  let left : Fin 2 := if balance < 0 then 0 else 1
  let right : Fin 2 := 1 - left
  -- `balance >> 1`
  let leftHeavy : Int := balance / 2
  let rightHeavy : Int := -leftHeavy
  match t with
  | nil => (nil, false)
  | node (n, _) _ _ =>
    match t.child left with
    | nil => (t, false)
    | child@(node (c, childBal) _ _) =>
      if childBal ≠ rightHeavy then
        -- case 1: single rotation, `child` comes up
        let childBal' := childBal + rightHeavy
        (mk left (c, childBal') (child.child left)
          (mk left (n, -childBal') (child.child right) (t.child right)), childBal' == 0)
      else
        match child.child right with
        | nil => (t, false)
        | gchild@(node (g, gBal) _ _) =>
          -- case 2: double rotation, `gchild` comes up
          (mk left (g, 0)
            (mk left (c, if gBal = rightHeavy then leftHeavy else 0) (child.child left)
              (gchild.child left))
            (mk left (n, if gBal = leftHeavy then rightHeavy else 0) (gchild.child right)
              (t.child right)), true)

/-- The retrace loop of `avl_insert`: the subtree `t` below the path grew by
one level. -/
def insertFix : List (Frame (Nat × Int)) → Shape → Shape
  | [], t => t
  | f :: fs, t =>
    let newBalance := f.val.2 + child2balance f.side
    if newBalance = 0 then plug fs (mk f.side (f.val.1, 0) t f.sib)
    else if f.val.2 ≠ 0 then plug fs (rotateShape (mk f.side f.val t f.sib) newBalance).1
    else insertFix fs (mk f.side (f.val.1, newBalance) t f.sib)

/-- The retrace loop of `avl_remove`: the subtree `t` below the path lost one
level. -/
def removeFix : List (Frame (Nat × Int)) → Shape → Shape
  | [], t => t
  | f :: fs, t =>
    let newBalance := f.val.2 - child2balance f.side
    if f.val.2 = 0 then plug fs (mk f.side (f.val.1, newBalance) t f.sib)
    else if newBalance = 0 then removeFix fs (mk f.side (f.val.1, 0) t f.sib)
    else
      let r := rotateShape (mk f.side f.val t f.sib) newBalance
      if r.2 then removeFix fs r.1 else plug fs r.1

/-! ## In-order sequence -/

theorem addrs_rotateShape (t : Shape) (balance : Int) :
    addrs (rotateShape t balance).1 = addrs t := by
  unfold rotateShape
  generalize hL : (if balance < 0 then (0 : Fin 2) else 1) = L
  rcases t with _ | ⟨⟨n, nb⟩, l, r⟩
  · rfl
  · simp only
    rw [node_eq_mk L (n, nb) l r]
    generalize (node (n, nb) l r).child L = c
    generalize (node (n, nb) l r).child (1 - L) = s
    simp only [child_mk_self, child_mk_other]
    rcases c with _ | ⟨⟨c, cb⟩, cl, cr⟩
    · rfl
    · simp only
      rw [node_eq_mk L (c, cb) cl cr]
      generalize (node (c, cb) cl cr).child L = x
      generalize (node (c, cb) cl cr).child (1 - L) = y
      simp only [child_mk_self, child_mk_other]
      split
      · rcases fin2_cases L with rfl | rfl <;> simp
      · rcases y with _ | ⟨⟨g, gb⟩, gl, gr⟩
        · rfl
        · simp only
          rw [node_eq_mk L (g, gb) gl gr]
          simp only [child_mk_self, child_mk_other]
          rcases fin2_cases L with rfl | rfl <;> simp

/-- Removing an address of the subtree at the end of a path removes it there. -/
theorem erase_addrs_plug {fs : List (Frame (Nat × Int))} {x y : Shape} {a : Nat}
    (hx : a ∈ addrs x) (hfs : a ∉ (leftCtx fs).map Prod.fst) (h : (addrs x).erase a = addrs y) :
    (addrs (plug fs x)).erase a = addrs (plug fs y) := by
  rw [addrs_plug, addrs_plug, List.append_assoc, List.erase_append_right _ hfs,
    List.erase_append_left _ hx, h, List.append_assoc]

/-- Unlinking a node with at most one child leaves that child in its place. -/
theorem erase_addrs_mk_nil (i : Fin 2) (a : Nat) (b : Int) (c : Shape) (ha : a ∉ addrs c) :
    (addrs (mk i (a, b) c nil)).erase a = addrs c := by
  rcases fin2_cases i with rfl | rfl
  · simp [List.erase_append_right _ ha]
  · simp

/-- The swap of `avl_remove`: `d`'s in-order neighbour `n`, at the end of a
descent from `d` down side `L` and then down the other side, takes `d`'s place.
In in-order sequence this is `d` removed. -/
theorem erase_addrs_swap {L : Fin 2} {gs : List (Frame (Nat × Int))} {d n : Nat} {b nb : Int}
    {C B : Shape} (hgs : ∀ g ∈ gs, g.side = 1 - L) (hdA : d ∉ addrs (plug gs (mk L (n, nb) C nil)))
    (hdB : d ∉ addrs B) :
    (addrs (mk L (d, b) (plug gs (mk L (n, nb) C nil)) B)).erase d =
      addrs (mk L (n, b) (plug gs C) B) := by
  rcases fin2_cases L with rfl | rfl
  · -- `n` is the last node of the left subtree: nothing of the descent comes after it
    have hr : rightCtx gs = [] := rightCtx_eq_nil fun g hg => by simpa using hgs g hg
    simp only [mk_zero, addrs_node] at hdA ⊢
    rw [List.erase_append_right _ hdA, List.erase_cons_head, addrs_plug, addrs_plug, hr]
    simp
  · -- `n` is the first node of the right subtree: nothing of the descent comes before it
    have hl : leftCtx gs = [] := leftCtx_eq_nil fun g hg => by simpa using hgs g hg
    simp only [mk_one, addrs_node]
    rw [List.erase_append_right _ hdB, List.erase_cons_head, addrs_plug, addrs_plug, hl]
    simp

theorem addrs_insertFix (fs : List (Frame (Nat × Int))) (t : Shape) :
    addrs (insertFix fs t) = addrs (plug fs t) := by
  induction fs generalizing t with
  | nil => rfl
  | cons f fs ih =>
    simp only [insertFix, plug_cons]
    split
    · exact addrs_plug_congr fs (addrs_mk_congr _ (by rfl) _ _)
    · split
      · exact addrs_plug_congr fs (addrs_rotateShape _ _)
      · rw [ih]; exact addrs_plug_congr fs (addrs_mk_congr _ (by rfl) _ _)

theorem addrs_removeFix (fs : List (Frame (Nat × Int))) (t : Shape) :
    addrs (removeFix fs t) = addrs (plug fs t) := by
  induction fs generalizing t with
  | nil => rfl
  | cons f fs ih =>
    simp only [removeFix, plug_cons]
    split
    · exact addrs_plug_congr fs (addrs_mk_congr _ (by rfl) _ _)
    · split
      · rw [ih]; exact addrs_plug_congr fs (addrs_mk_congr _ (by rfl) _ _)
      · split
        · rw [ih]; exact addrs_plug_congr fs (addrs_rotateShape _ _)
        · exact addrs_plug_congr fs (addrs_rotateShape _ _)

/-! ## Balance -/

/-- The balance stored at the root; 0 for the empty tree. -/
def rootBal : Shape → Int
  | nil => 0
  | node (_, b) _ _ => b

@[simp] theorem rootBal_mk (i : Fin 2) (a : Nat) (b : Int) (x y : Shape) :
    rootBal (mk i (a, b) x y) = b := by
  rcases fin2_cases i with rfl | rfl <;> rfl

theorem child2balance_cases (i : Fin 2) : child2balance i = -1 ∨ child2balance i = 1 := by
  rcases fin2_cases i with rfl | rfl <;> simp

@[simp] theorem child2balance_other (i : Fin 2) : child2balance (1 - i) = -child2balance i := by
  rcases fin2_cases i with rfl | rfl <;> rfl

/-- The balance of `mk i a x y` seen from index `i`: it leans towards `x` by
`child2balance i` for every level `x` has over `y`. -/
theorem balanced_mk (i : Fin 2) (a : Nat) (b : Int) (x y : Shape) :
    Balanced (mk i (a, b) x y) ↔
      b = child2balance i * ((x.height : Int) - y.height) ∧ -1 ≤ b ∧ b ≤ 1 ∧
        Balanced x ∧ Balanced y := by
  rcases fin2_cases i with rfl | rfl
  · simp only [Balanced, mk_zero, isAvl_node, child2balance_zero]
    constructor <;> rintro ⟨h1, h2, h3, h4, h5⟩ <;> exact ⟨by omega, h2, h3, h4, h5⟩
  · simp only [Balanced, mk_one, isAvl_node, child2balance_one]
    constructor <;> rintro ⟨h1, h2, h3, h4, h5⟩ <;> exact ⟨by omega, h2, h3, h5, h4⟩

/-- The frames' stored balances are right for a subtree of height `h` at the
hole, and their siblings are balanced. -/
def PathBalanced : List (Frame (Nat × Int)) → Nat → Prop
  | [], _ => True
  | f :: fs, h =>
    f.val.2 = child2balance f.side * ((h : Int) - f.sib.height) ∧ -1 ≤ f.val.2 ∧ f.val.2 ≤ 1 ∧
      Balanced f.sib ∧ PathBalanced fs (max h f.sib.height + 1)

theorem pathBalanced_range {fs : List (Frame (Nat × Int))} {h : Nat} (hp : PathBalanced fs h) :
    ∀ f ∈ fs, -1 ≤ f.val.2 ∧ f.val.2 ≤ 1 := by
  induction fs generalizing h with
  | nil => simp
  | cons f fs ih =>
    obtain ⟨-, h1, h2, -, hfs⟩ := hp
    intro g hg
    rcases List.mem_cons.1 hg with rfl | hg
    exacts [⟨h1, h2⟩, ih hfs g hg]

theorem balanced_plug (fs : List (Frame (Nat × Int))) (t : Shape) :
    Balanced (plug fs t) ↔ Balanced t ∧ PathBalanced fs t.height := by
  induction fs generalizing t with
  | nil => simp [PathBalanced]
  | cons f fs ih =>
    obtain ⟨w, ⟨a, b⟩, s⟩ := f
    simp only [plug_cons, ih, balanced_mk, height_mk, PathBalanced]
    tauto

/-- `rotateShape` on a node whose `L` child is itself split at `L`: case 1
when the child does not lean away from `L`, case 2 (through the grandchild
`y`) when it does. -/
theorem rotateShape_mk (L : Fin 2) (n cv : Nat) (nb cb : Int) (x y s : Shape) :
    rotateShape (mk L (n, nb) (mk L (cv, cb) x y) s) (2 * child2balance L) =
      if cb ≠ -child2balance L then
        (mk L (cv, cb + -child2balance L) x (mk L (n, -(cb + -child2balance L)) y s),
          cb + -child2balance L == 0)
      else match y with
        | nil => (mk L (n, nb) (mk L (cv, cb) x y) s, false)
        | node (g, gb) _ _ =>
          (mk L (g, 0) (mk L (cv, if gb = -child2balance L then child2balance L else 0) x (y.child L))
            (mk L (n, if gb = child2balance L then -child2balance L else 0) (y.child (1 - L)) s),
            true) := by
  rcases fin2_cases L with rfl | rfl <;> rcases y with _ | ⟨⟨g, gb⟩, gl, gr⟩ <;>
    simp only [rotateShape] <;> split_ifs <;> simp_all

theorem rotateShape_mk_nil (L : Fin 2) (n : Nat) (nb : Int) (s : Shape) :
    rotateShape (mk L (n, nb) nil s) (2 * child2balance L) = (mk L (n, nb) nil s, false) := by
  rcases fin2_cases L with rfl | rfl <;> rfl

/-- `avl_rotation` rebalances: a node whose `L` child `c` is two levels taller
than its other child `s` becomes a balanced subtree, one level lower exactly
when `c` was not balanced (the C returns that as "height went down"). -/
theorem rotateShape_balanced (L : Fin 2) (n : Nat) (nb : Int) (c s : Shape) (hc : Balanced c)
    (hs : Balanced s) (hh : c.height = s.height + 2) {r : Shape × Bool}
    (hr : rotateShape (mk L (n, nb) c s) (2 * child2balance L) = r) :
    Balanced r.1 ∧ (r.2 = true → r.1.height = s.height + 2) ∧
      (r.2 = false → r.1.height = s.height + 3) ∧ (r.2 = true ↔ rootBal c ≠ 0) := by
  rcases c with _ | ⟨⟨cv, cb⟩, cl, cr⟩
  · simp at hh
  rw [node_eq_mk L] at hc hh hr
  simp only [rootBal]
  generalize (node (cv, cb) cl cr).child L = x at hc hh hr
  generalize (node (cv, cb) cl cr).child (1 - L) = y at hc hh hr
  rw [rotateShape_mk] at hr
  rw [balanced_mk] at hc
  obtain ⟨hcb, hc1, hc2, hx, hy⟩ := hc
  simp only [height_mk] at hh
  split at hr
  · -- case 1: single rotation
    rename_i hne
    subst hr
    simp only [balanced_mk, height_mk, beq_iff_eq, beq_eq_false_iff_ne]
    refine ⟨⟨?_, ?_, ?_, hx, ?_, ?_, ?_, hy, hs⟩, ?_, ?_, ?_⟩ <;>
      rcases fin2_cases L with rfl | rfl <;>
      simp only [child2balance_zero, child2balance_one] at hcb hne ⊢ <;> omega
  · -- case 2: double rotation through the grandchild
    rename_i heq
    rcases y with _ | ⟨⟨g, gb⟩, gl, gr⟩
    · rcases fin2_cases L with rfl | rfl <;> simp at hcb heq hh <;> omega
    simp only at hr
    subst hr
    rw [node_eq_mk L] at hy hh hcb
    generalize (node (g, gb) gl gr).child L = p at hy hh hcb ⊢
    generalize (node (g, gb) gl gr).child (1 - L) = q at hy hh hcb ⊢
    rw [balanced_mk] at hy
    obtain ⟨hgb, hg1, hg2, hp, hq⟩ := hy
    simp only [balanced_mk, height_mk, Bool.true_eq_false, IsEmpty.forall_iff, true_implies] at hh hcb ⊢
    refine ⟨⟨?_, ?_, ?_, ⟨?_, ?_, ?_, hx, hp⟩, ⟨?_, ?_, ?_, hq, hs⟩⟩, ?_, ?_, ?_⟩ <;>
      rcases fin2_cases L with rfl | rfl <;>
      simp only [child2balance_zero, child2balance_one, not_not, true_iff] at hcb heq hgb ⊢ <;>
      (try split_ifs) <;> omega

/-- The retrace of `avl_insert` rebalances: the subtree `t` at the end of the
path grew from height `H` to `H + 1`, and is either the new leaf or leans to
one side. -/
theorem balanced_insertFix (fs : List (Frame (Nat × Int))) (t : Shape) (H : Nat)
    (hp : PathBalanced fs H) (ht : Balanced t) (hh : t.height = H + 1)
    (hr : t.height = 1 ∨ rootBal t ≠ 0) : Balanced (insertFix fs t) := by
  induction fs generalizing t H with
  | nil => exact ht
  | cons f fs ih =>
    obtain ⟨w, ⟨a, b⟩, s⟩ := f
    obtain ⟨hb, hb1, hb2, hs, hfs⟩ := hp
    simp only at hb hb1 hb2 hs hfs
    simp only [insertFix]
    split
    · -- the ancestor is balanced now, its height did not change: stop
      rename_i h0
      have hsH : s.height = H + 1 := by
        rcases child2balance_cases w with hw | hw <;> simp only [hw] at hb h0 <;> omega
      rw [balanced_plug, height_mk, hh, hsH]
      refine ⟨(balanced_mk w a 0 t s).2 ⟨?_, by omega, by omega, ht, hs⟩, ?_⟩
      · rcases child2balance_cases w with hw | hw <;> simp only [hw] <;> omega
      · rwa [hsH, show max H (H + 1) + 1 = max (H + 1) (H + 1) + 1 by omega] at hfs
    · split
      · -- the ancestor leaned towards `t` already: one rotation, and stop
        rename_i h0 hb0
        have hb' : b = child2balance w := by
          rcases child2balance_cases w with hw | hw <;> simp only [hw] at hb h0 ⊢ <;> omega
        have hsH : H = s.height + 1 := by
          rcases child2balance_cases w with hw | hw <;> simp only [hw] at hb hb' <;> omega
        rw [show b + child2balance w = 2 * child2balance w by omega]
        obtain ⟨hr1, hr2, -, hr4⟩ := rotateShape_balanced w a b t s ht hs (by omega) rfl
        have hbal : rootBal t ≠ 0 := by omega
        rw [balanced_plug, hr2 (hr4.2 hbal)]
        exact ⟨hr1, by rwa [show max H s.height + 1 = s.height + 2 by omega] at hfs⟩
      · -- the ancestor was balanced: it now leans towards `t` and grew too
        rename_i h0 hb0
        have hsH : s.height = H := by
          rcases child2balance_cases w with hw | hw <;> simp only [hw, not_not] at hb hb0 <;> omega
        simp only [not_not] at hb0
        subst hb0
        apply ih _ (H + 1) (by rwa [hsH, Nat.max_self] at hfs)
        · exact (balanced_mk w a _ t s).2 ⟨by
            rcases child2balance_cases w with hw | hw <;> simp only [hw] <;> omega,
            by rcases child2balance_cases w with hw | hw <;> simp only [hw] <;> omega,
            by rcases child2balance_cases w with hw | hw <;> simp only [hw] <;> omega, ht, hs⟩
        · simp only [height_mk]; omega
        · right; rw [rootBal_mk]; exact h0

/-- The retrace of `avl_remove` rebalances: the subtree `t` at the end of the
path went down from height `H + 1` to `H`. -/
theorem balanced_removeFix (fs : List (Frame (Nat × Int))) (t : Shape) (H : Nat)
    (hp : PathBalanced fs (H + 1)) (ht : Balanced t) (hh : t.height = H) :
    Balanced (removeFix fs t) := by
  induction fs generalizing t H with
  | nil => exact ht
  | cons f fs ih =>
    obtain ⟨w, ⟨a, b⟩, s⟩ := f
    obtain ⟨hb, hb1, hb2, hs, hfs⟩ := hp
    simp only at hb hb1 hb2 hs hfs
    simp only [removeFix]
    split
    · -- the ancestor was balanced: it now leans away from `t`, same height
      rename_i h0
      subst h0
      have hsH : s.height = H + 1 := by
        rcases child2balance_cases w with hw | hw <;> simp only [hw] at hb <;> omega
      rw [balanced_plug, height_mk, hh, hsH]
      refine ⟨(balanced_mk w a _ t s).2 ⟨?_, ?_, ?_, ht, hs⟩, ?_⟩
      · rcases child2balance_cases w with hw | hw <;> simp only [hw] <;> omega
      · rcases child2balance_cases w with hw | hw <;> simp only [hw] <;> omega
      · rcases child2balance_cases w with hw | hw <;> simp only [hw] <;> omega
      · rwa [hsH, show max (H + 1) (H + 1) + 1 = max H (H + 1) + 1 by omega] at hfs
    · split
      · -- the ancestor leaned towards `t`: balanced now, one level lower
        rename_i hb0 h0
        have hsH : s.height = H := by
          rcases child2balance_cases w with hw | hw <;> simp only [hw] at hb h0 <;> omega
        apply ih _ (H + 1) (by rwa [hsH, show max (H + 1) H + 1 = H + 1 + 1 by omega] at hfs)
        · refine (balanced_mk w a 0 t s).2 ⟨?_, by omega, by omega, ht, hs⟩
          rcases child2balance_cases w with hw | hw <;> simp only [hw] <;> omega
        · simp only [height_mk]; omega
      · -- the ancestor leaned away from `t`: rotate towards the sibling
        rename_i hb0 h0
        have hb' : b = -child2balance w := by
          rcases child2balance_cases w with hw | hw <;> simp only [hw] at hb h0 ⊢ <;> omega
        have hsH : s.height = H + 2 := by
          rcases child2balance_cases w with hw | hw <;> simp only [hw] at hb hb' <;> omega
        rw [← mk_other w, show b - child2balance w = 2 * child2balance (1 - w) by
          rw [child2balance_other]; omega]
        obtain ⟨hr1, hr2, hr3, -⟩ := rotateShape_balanced (1 - w) a b s t hs ht (by omega) rfl
        rw [hsH, show max (H + 1) (H + 2) + 1 = H + 3 by omega] at hfs
        split
        · rename_i hr
          exact ih _ (H + 2) hfs hr1 (by rw [hr2 hr]; omega)
        · rename_i hr
          rw [balanced_plug, hr3 (by simpa using hr)]
          exact ⟨hr1, by rwa [hh]⟩

/-- After unlinking a node with at most one child, the retrace of `avl_remove`
rebalances the path above it. -/
theorem balanced_removeFix_of_plug {hs : List (Frame (Nat × Int))} {i : Fin 2} {a : Nat} {b : Int}
    {c : Shape} (h : Balanced (plug hs (mk i (a, b) c nil))) : Balanced (removeFix hs c) := by
  rw [balanced_plug, balanced_mk] at h
  obtain ⟨⟨-, -, -, hc, -⟩, hp⟩ := h
  rw [height_mk] at hp
  exact balanced_removeFix hs c c.height (by simpa using hp) hc rfl

end ZfsOsx.Avl
