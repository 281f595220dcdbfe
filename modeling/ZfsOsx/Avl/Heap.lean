import ZfsOsx.Avl.Shape

/-!
# The `avl.c` heap and the shapes it lays out

`include/sys/avl_impl.h` embeds an `avl_node_t` in every element: two child
pointers, the parent pointer, the index of the node in its parent's
`avl_child[]` and the balance (packed into `avl_pcb` on LP64; the packing does
not change what is stored). `AvlTree` holds the `avl_tree_t` fields the code
uses together with these links, one map per field, indexed by the element's
address (`AVL_DATA2NODE`/`AVL_NODE2DATA` add and subtract a constant offset,
so an element and its node share one address here). A NULL pointer is `none`.

`Rep t s` says that the heap `t` lays out the shape `s`: `avl_root` points at
its root, every node stores the balance and the child pointers `s` gives it,
and every child's parent pointer and child index point back to its parent
(the root has a NULL parent). `PathRep` lays out a path above a hole, and
`rep_plug` splits `Rep` along a path. The write lemmas say which reads each
store (`AVL_SETPARENT`, `AVL_SETCHILD`, `AVL_SETBALANCE`, `avl_child[i] = p`)
can change.
-/
namespace ZfsOsx.Avl

open BinaryTree

/-- `avl_tree_t` (`avl_root`, `avl_numnodes`) and the `avl_node_t` links of
every element. `childIndex` is `AVL_XCHILD`, `balance` is `AVL_XBALANCE`.
mirrors include/sys/avl_impl.h:40-140, include/sys/avl.h -/
structure AvlTree where
  root : Option Nat
  numnodes : Nat
  child : Nat → Fin 2 → Option Nat
  parent : Nat → Option Nat
  childIndex : Nat → Fin 2
  balance : Nat → Int

namespace AvlTree

/-- `AVL_SETPARENT(n, p)` -/
@[simps -fullyApplied] def setParent (t : AvlTree) (n : Nat) (p : Option Nat) : AvlTree :=
  { t with parent := Function.update t.parent n p }

/-- `AVL_SETCHILD(n, c)`: the child index, not a child pointer. -/
@[simps -fullyApplied] def setChildIndex (t : AvlTree) (n : Nat) (c : Fin 2) : AvlTree :=
  { t with childIndex := Function.update t.childIndex n c }

/-- `AVL_SETBALANCE(n, b)` -/
@[simps -fullyApplied] def setBalance (t : AvlTree) (n : Nat) (b : Int) : AvlTree :=
  { t with balance := Function.update t.balance n b }

/-- `n->avl_child[i] = p` -/
@[simps -fullyApplied] def writeChild (t : AvlTree) (n : Nat) (i : Fin 2) (p : Option Nat) : AvlTree :=
  { t with child := Function.update t.child n (Function.update (t.child n) i p) }

/-- `tree->avl_root = p` -/
@[simps -fullyApplied] def setRoot (t : AvlTree) (p : Option Nat) : AvlTree := { t with root := p }

/-- `*dst = *src`: the node at `dst` gets every link of the node at `src`. -/
@[simps -fullyApplied] def copyNode (t : AvlTree) (dst src : Nat) : AvlTree :=
  { t with
    child := Function.update t.child dst (t.child src)
    parent := Function.update t.parent dst (t.parent src)
    childIndex := Function.update t.childIndex dst (t.childIndex src)
    balance := Function.update t.balance dst (t.balance src) }

/-- `if (c != NULL) { AVL_SETPARENT(c, n); AVL_SETCHILD(c, i); }`: the code's
way of hanging a possibly empty subtree below `n` at index `i`. -/
def adopt (t : AvlTree) (c : Option Nat) (n : Nat) (i : Fin 2) : AvlTree :=
  match c with
  | some c => (t.setParent c (some n)).setChildIndex c i
  | none => t

/-- `if (parent != NULL) parent->avl_child[which] = p; else tree->avl_root = p;`:
the code's way of pointing the link above a subtree at its new root. -/
def linkChild (t : AvlTree) (parent : Option Nat) (which : Fin 2) (p : Option Nat) : AvlTree :=
  match parent with
  | some q => t.writeChild q which p
  | none => t.setRoot p

@[simp] theorem adopt_root (t : AvlTree) (c : Option Nat) (n : Nat) (i : Fin 2) :
    (t.adopt c n i).root = t.root := by cases c <;> rfl

@[simp] theorem adopt_numnodes (t : AvlTree) (c : Option Nat) (n : Nat) (i : Fin 2) :
    (t.adopt c n i).numnodes = t.numnodes := by cases c <;> rfl

@[simp] theorem adopt_child (t : AvlTree) (c : Option Nat) (n : Nat) (i : Fin 2) :
    (t.adopt c n i).child = t.child := by cases c <;> rfl

@[simp] theorem adopt_balance (t : AvlTree) (c : Option Nat) (n : Nat) (i : Fin 2) :
    (t.adopt c n i).balance = t.balance := by cases c <;> rfl

theorem adopt_parent (t : AvlTree) (c : Option Nat) (n : Nat) (i : Fin 2) (a : Nat) :
    (t.adopt c n i).parent a = if c = some a then some n else t.parent a := by
  cases c with
  | none => simp [adopt]
  | some c => by_cases h : c = a <;> simp [adopt, Function.update_apply, h, eq_comm]

theorem adopt_childIndex (t : AvlTree) (c : Option Nat) (n : Nat) (i : Fin 2) (a : Nat) :
    (t.adopt c n i).childIndex a = if c = some a then i else t.childIndex a := by
  cases c with
  | none => simp [adopt]
  | some c => by_cases h : c = a <;> simp [adopt, Function.update_apply, h, eq_comm]

@[simp] theorem linkChild_numnodes (t : AvlTree) (q : Option Nat) (w : Fin 2) (p : Option Nat) :
    (t.linkChild q w p).numnodes = t.numnodes := by cases q <;> rfl

@[simp] theorem linkChild_parent (t : AvlTree) (q : Option Nat) (w : Fin 2) (p : Option Nat) :
    (t.linkChild q w p).parent = t.parent := by cases q <;> rfl

@[simp] theorem linkChild_childIndex (t : AvlTree) (q : Option Nat) (w : Fin 2) (p : Option Nat) :
    (t.linkChild q w p).childIndex = t.childIndex := by cases q <;> rfl

@[simp] theorem linkChild_root (t : AvlTree) (q : Option Nat) (w : Fin 2) (p : Option Nat) :
    (t.linkChild q w p).root = if q = none then p else t.root := by cases q <;> rfl

theorem linkChild_child (t : AvlTree) (q : Option Nat) (w : Fin 2) (p : Option Nat) (a : Nat) :
    (t.linkChild q w p).child a = if q = some a then Function.update (t.child a) w p else t.child a := by
  cases q with
  | none => simp [linkChild]
  | some q =>
    by_cases h : q = a
    · subst h; simp [linkChild]
    · simp [linkChild, h, Ne.symm h]

@[simp] theorem linkChild_balance (t : AvlTree) (q : Option Nat) (w : Fin 2) (p : Option Nat) :
    (t.linkChild q w p).balance = t.balance := by cases q <;> rfl

end AvlTree

/-! ## Layouts -/

/-- The node at `p` may hang at `up`: nothing to check for NULL; a NULL
parent at the top of the tree; parent `q` and child index `i` as child `i` of
`q`. -/
@[grind] def LinkOK (t : AvlTree) : Option Nat → Option (Nat × Fin 2) → Prop
  | none, _ => True
  | some a, none => t.parent a = none
  | some a, some (q, i) => t.parent a = some q ∧ t.childIndex a = i

/-- The heap lays out `s` below its root: every node stores its balance and
its children, and the children point back. The root's own parent link is
not part of it. -/
def Body (t : AvlTree) : Shape → Prop
  | nil => True
  | node (a, b) l r =>
    t.balance a = b ∧ t.child a 0 = rootPtr l ∧ t.child a 1 = rootPtr r ∧
      LinkOK t (rootPtr l) (some (a, 0)) ∧ LinkOK t (rootPtr r) (some (a, 1)) ∧
      Body t l ∧ Body t r

/-- The whole tree: `avl_root` points at the root of `s`, whose parent is NULL. -/
def Rep (t : AvlTree) (s : Shape) : Prop :=
  t.root = rootPtr s ∧ LinkOK t (rootPtr s) none ∧ Body t s

/-- Where a subtree at the end of the path hangs. -/
def up : List (Frame (Nat × Int)) → Option (Nat × Fin 2)
  | [] => none
  | f :: _ => some (f.val.1, f.side)

/-- The path `fs` is laid out above a hole holding the pointer `p`. -/
@[grind] def PathRep (t : AvlTree) : List (Frame (Nat × Int)) → Option Nat → Prop
  | [], p => t.root = p
  | f :: fs, p =>
    t.balance f.val.1 = f.val.2 ∧ t.child f.val.1 f.side = p ∧
      t.child f.val.1 (1 - f.side) = rootPtr f.sib ∧
      LinkOK t (rootPtr f.sib) (some (f.val.1, 1 - f.side)) ∧ Body t f.sib ∧
      LinkOK t (some f.val.1) (up fs) ∧ PathRep t fs (some f.val.1)

@[simp] theorem linkOK_none (t : AvlTree) (u : Option (Nat × Fin 2)) : LinkOK t none u := trivial

@[simp] theorem up_nil : up ([] : List (Frame (Nat × Int))) = none := rfl

@[simp] theorem up_cons (f : Frame (Nat × Int)) (fs : List (Frame (Nat × Int))) :
    up (f :: fs) = some (f.val.1, f.side) := rfl

@[simp] theorem body_nil (t : AvlTree) : Body t nil := trivial

/-- `Body` seen from child index `i`. -/
theorem body_mk (t : AvlTree) (i : Fin 2) (a : Nat) (b : Int) (x y : Shape) :
    Body t (mk i (a, b) x y) ↔
      t.balance a = b ∧ t.child a i = rootPtr x ∧ t.child a (1 - i) = rootPtr y ∧
        LinkOK t (rootPtr x) (some (a, i)) ∧ LinkOK t (rootPtr y) (some (a, 1 - i)) ∧
        Body t x ∧ Body t y := by
  rcases fin2_cases i with rfl | rfl
  · rfl
  · simp only [mk_one, Body]
    constructor <;> rintro ⟨h1, h2, h3, h4, h5, h6, h7⟩ <;> exact ⟨h1, h3, h2, h5, h4, h7, h6⟩

/-- `Rep` split along a path: the subtree at the end of `fs`, hanging where
the path says, and the path itself above it. -/
theorem rep_plug (t : AvlTree) (fs : List (Frame (Nat × Int))) (s : Shape) :
    Rep t (plug fs s) ↔ LinkOK t (rootPtr s) (up fs) ∧ Body t s ∧ PathRep t fs (rootPtr s) := by
  induction fs generalizing s with
  | nil => simp only [Rep, plug_nil, up_nil, PathRep]; tauto
  | cons f fs ih =>
    obtain ⟨w, ⟨a, b⟩, sib⟩ := f
    simp only [plug_cons, ih, rootPtr_mk, body_mk, up_cons, PathRep]
    tauto

/-! ## Which stores change which reads -/

/-- Addresses strictly below the root of a shape. -/
@[grind] def below : Shape → List Nat
  | nil => []
  | node _ l r => addrs l ++ addrs r

/-- Addresses on a path: its nodes and their siblings' subtrees. -/
@[grind] def pathAddrs (fs : List (Frame (Nat × Int))) : List Nat :=
  (leftCtx fs).map Prod.fst ++ (rightCtx fs).map Prod.fst

theorem mem_addrs_of_rootPtr {s : Shape} {a : Nat} (h : rootPtr s = some a) : a ∈ addrs s := by
  rcases s with _ | ⟨⟨b, _⟩, l, r⟩
  · cases h
  · simp only [rootPtr_node, Option.some.injEq] at h; simp [h]

theorem mem_addrs_of_mem_below {s : Shape} {a : Nat} (h : a ∈ below s) : a ∈ addrs s := by
  rcases s with _ | ⟨⟨b, _⟩, l, r⟩
  · cases h
  · simp only [below, List.mem_append] at h; simp only [addrs_node, List.mem_append, List.mem_cons]; tauto

/-- A node that takes over another's parent pointer and child index takes over
where it hangs. -/
theorem linkOK_of_same {t t' : AvlTree} {a a' : Nat} {u : Option (Nat × Fin 2)}
    (hp : t'.parent a' = t.parent a) (hi : t'.childIndex a' = t.childIndex a)
    (h : LinkOK t (some a) u) : LinkOK t' (some a') u := by
  rcases u with _ | ⟨q, i⟩
  · simpa [LinkOK, hp] using h
  · simpa [LinkOK, hp, hi] using h

theorem parent_of_linkOK {t : AvlTree} {a : Nat} {u : Option (Nat × Fin 2)}
    (h : LinkOK t (some a) u) : t.parent a = u.map Prod.fst := by
  rcases u with _ | ⟨q, i⟩
  · exact h
  · exact h.1

theorem childIndex_of_linkOK {t : AvlTree} {a : Nat} {u : Option (Nat × Fin 2)}
    (h : LinkOK t (some a) u) : ∀ v, u = some v → t.childIndex a = v.2 := by
  rintro ⟨q, i⟩ rfl
  exact h.2

theorem linkOK_congr {t t' : AvlTree} (p : Option Nat) (u : Option (Nat × Fin 2))
    (h : ∀ a, p = some a → t'.parent a = t.parent a ∧ t'.childIndex a = t.childIndex a) :
    LinkOK t' p u ↔ LinkOK t p u := by
  rcases p with _ | a
  · rfl
  · obtain ⟨h1, h2⟩ := h a rfl
    rcases u with _ | ⟨q, i⟩ <;> simp [LinkOK, h1, h2]

/-- `Body` reads the child pointers and balances of every node of the shape
and the parent links of every node below its root. -/
theorem body_congr {t t' : AvlTree} {s : Shape}
    (hcb : ∀ a ∈ addrs s, t'.child a = t.child a ∧ t'.balance a = t.balance a)
    (hpi : ∀ a ∈ below s, t'.parent a = t.parent a ∧ t'.childIndex a = t.childIndex a) :
    Body t' s ↔ Body t s := by
  induction s with
  | nil => rfl
  | node v l r ihl ihr =>
    obtain ⟨a, b⟩ := v
    simp only [below] at hpi
    obtain ⟨hc, hb⟩ := hcb a (by simp)
    have hl := ihl (fun x hx => hcb x (by simp [hx]))
      (fun x hx => hpi x (List.mem_append_left _ (mem_addrs_of_mem_below hx)))
    have hr := ihr (fun x hx => hcb x (by simp [hx]))
      (fun x hx => hpi x (List.mem_append_right _ (mem_addrs_of_mem_below hx)))
    have ll := linkOK_congr (rootPtr l) (some (a, 0)) (fun x hx =>
      hpi x (List.mem_append_left _ (mem_addrs_of_rootPtr hx)))
    have lr := linkOK_congr (rootPtr r) (some (a, 1)) (fun x hx =>
      hpi x (List.mem_append_right _ (mem_addrs_of_rootPtr hx)))
    simp only [Body, hc, hb, hl, hr, ll, lr]

theorem mem_pathAddrs_cons {f : Frame (Nat × Int)} {fs : List (Frame (Nat × Int))} {a : Nat} :
    a ∈ pathAddrs (f :: fs) ↔ a = f.val.1 ∨ a ∈ addrs f.sib ∨ a ∈ pathAddrs fs := by
  obtain ⟨w, ⟨b, bal⟩, sib⟩ := f
  rcases fin2_cases w with rfl | rfl <;>
    simp [pathAddrs, leftCtx, rightCtx, before, after, addrs] <;> tauto

/-- `PathRep` reads the root pointer and every link of the path's nodes and
of their siblings' subtrees. -/
theorem pathRep_congr {t t' : AvlTree} {fs : List (Frame (Nat × Int))} (p : Option Nat)
    (hr : t'.root = t.root)
    (h : ∀ a ∈ pathAddrs fs, t'.child a = t.child a ∧ t'.balance a = t.balance a ∧
      t'.parent a = t.parent a ∧ t'.childIndex a = t.childIndex a) :
    PathRep t' fs p ↔ PathRep t fs p := by
  induction fs generalizing p with
  | nil => simp [PathRep, hr]
  | cons f fs ih =>
    obtain ⟨hc, hb, hpa, hci⟩ := h f.val.1 (mem_pathAddrs_cons.2 (.inl rfl))
    have hs : Body t' f.sib ↔ Body t f.sib := body_congr
      (fun a ha => ⟨(h a (mem_pathAddrs_cons.2 (.inr (.inl ha)))).1,
        (h a (mem_pathAddrs_cons.2 (.inr (.inl ha)))).2.1⟩)
      (fun a ha => (h a (mem_pathAddrs_cons.2 (.inr (.inl (mem_addrs_of_mem_below ha))))).2.2)
    have hl : LinkOK t' (rootPtr f.sib) (some (f.val.1, 1 - f.side)) ↔
        LinkOK t (rootPtr f.sib) (some (f.val.1, 1 - f.side)) := linkOK_congr _ _
      (fun a ha => (h a (mem_pathAddrs_cons.2 (.inr (.inl (mem_addrs_of_rootPtr ha))))).2.2)
    have hu : LinkOK t' (some f.val.1) (up fs) ↔ LinkOK t (some f.val.1) (up fs) := linkOK_congr _ _
      (fun a ha => by cases ha; exact ⟨hpa, hci⟩)
    have hrest := ih (some f.val.1) (fun a ha => h a (mem_pathAddrs_cons.2 (.inr (.inr ha))))
    simp only [PathRep, hc, hb, hs, hl, hu, hrest]

/-! ## Distinct addresses -/

/-- Distinct addresses in `mk i (a, b) x y`: `a` is in neither child, and the
children share none. -/
theorem nodup_mk (i : Fin 2) (a : Nat) (b : Int) (x y : Shape) :
    (addrs (mk i (a, b) x y)).Nodup ↔
      (addrs x).Nodup ∧ (addrs y).Nodup ∧ a ∉ addrs x ∧ a ∉ addrs y ∧
        ∀ z ∈ addrs x, z ∉ addrs y := by
  have key : ∀ u v : Shape, (addrs u ++ a :: addrs v).Nodup ↔
      (addrs u).Nodup ∧ (addrs v).Nodup ∧ a ∉ addrs u ∧ a ∉ addrs v ∧
        ∀ z ∈ addrs u, z ∉ addrs v := by
    intro u v
    simp only [List.nodup_append, List.nodup_cons, List.mem_cons]
    constructor
    · rintro ⟨hu, ⟨hav, hv⟩, hd⟩
      exact ⟨hu, hv, fun h => hd a h a (.inl rfl) rfl, hav, fun z hz hzv => hd z hz z (.inr hzv) rfl⟩
    · rintro ⟨hu, hv, hau, hav, hd⟩
      refine ⟨hu, ⟨hav, hv⟩, ?_⟩
      rintro z hz w (rfl | hw) rfl
      · exact hau hz
      · exact hd z hz hw
  rcases fin2_cases i with rfl | rfl
  · simp only [mk_zero, addrs_node]; exact key x y
  · simp only [mk_one, addrs_node, key]
    constructor <;> rintro ⟨h1, h2, h3, h4, h5⟩ <;>
      exact ⟨h2, h1, h4, h3, fun z hz hzx => h5 z hzx hz⟩

/-- Distinct addresses along a path: within the subtree, within the path, and
none shared. -/
theorem nodup_plug (fs : List (Frame (Nat × Int))) (s : Shape) :
    (addrs (plug fs s)).Nodup ↔
      (addrs s).Nodup ∧ (pathAddrs fs).Nodup ∧ ∀ z ∈ addrs s, z ∉ pathAddrs fs := by
  rw [addrs_plug, pathAddrs]
  generalize (leftCtx fs).map Prod.fst = L
  generalize (rightCtx fs).map Prod.fst = R
  simp only [List.nodup_append, List.mem_append]
  constructor
  · rintro ⟨⟨hL, hS, hLS⟩, hR, hLSR⟩
    refine ⟨hS, ⟨hL, hR, fun a ha b hb => hLSR a (.inl ha) b hb⟩, ?_⟩
    rintro z hz (hzL | hzR)
    · exact hLS z hzL z hz rfl
    · exact hLSR z (.inr hz) z hzR rfl
  · rintro ⟨hS, ⟨hL, hR, hLR⟩, hd⟩
    refine ⟨⟨hL, hS, fun a ha b hb hab => hd b hb (.inl (hab ▸ ha))⟩, hR, ?_⟩
    rintro a (ha | ha) b hb rfl
    · exact hLR a ha a hb rfl
    · exact hd a ha (.inr hb)

theorem rootPtr_not_mem_below {s : Shape} {a : Nat} (hs : (addrs s).Nodup) (h : rootPtr s = some a) :
    a ∉ below s := by
  rcases s with _ | ⟨⟨b, bal⟩, l, r⟩
  · cases h
  · simp only [rootPtr_node, Option.some.injEq] at h
    subst h
    simp only [addrs_node, List.nodup_append, List.nodup_cons, List.mem_cons] at hs
    simp only [below, List.mem_append, not_or]
    exact ⟨fun hl => hs.2.2 b hl b (.inl rfl) rfl, hs.2.1.1⟩

theorem pathAddrs_cons_perm (f : Frame (Nat × Int)) (fs : List (Frame (Nat × Int))) :
    (pathAddrs (f :: fs)).Perm (f.val.1 :: (addrs f.sib ++ pathAddrs fs)) := by
  obtain ⟨w, ⟨a, b⟩, sib⟩ := f
  simp only [pathAddrs, leftCtx, rightCtx, List.map_append]
  have hm : ((before w (a, b) sib).map Prod.fst ++ (after w (a, b) sib).map Prod.fst).Perm
      (a :: addrs sib) := by
    rcases fin2_cases w with rfl | rfl
    · simp [before, after, addrs]
    · simp [before, after, addrs]
  have e : (leftCtx fs).map Prod.fst ++ (before w (a, b) sib).map Prod.fst ++
      ((after w (a, b) sib).map Prod.fst ++ (rightCtx fs).map Prod.fst) =
      (leftCtx fs).map Prod.fst ++ ((before w (a, b) sib).map Prod.fst ++
        (after w (a, b) sib).map Prod.fst) ++ (rightCtx fs).map Prod.fst := by simp
  rw [e]
  refine ((hm.append_left _).append_right _).trans ?_
  rw [List.append_assoc]
  exact List.perm_append_comm_assoc _ _ _

theorem nodup_pathAddrs_cons {f : Frame (Nat × Int)} {fs : List (Frame (Nat × Int))}
    (h : (pathAddrs (f :: fs)).Nodup) :
    f.val.1 ∉ addrs f.sib ∧ f.val.1 ∉ pathAddrs fs ∧ (addrs f.sib).Nodup ∧
      (pathAddrs fs).Nodup ∧ ∀ z ∈ addrs f.sib, z ∉ pathAddrs fs := by
  rw [(pathAddrs_cons_perm f fs).nodup_iff, List.nodup_cons, List.nodup_append,
    List.mem_append, not_or] at h
  obtain ⟨⟨h1, h2⟩, h3, h4, h5⟩ := h
  exact ⟨h1, h2, h3, h4, fun z hz hz' => h5 z hz z hz' rfl⟩

theorem up_mem_pathAddrs {fs : List (Frame (Nat × Int))} {q : Nat} {i : Fin 2}
    (h : up fs = some (q, i)) : q ∈ pathAddrs fs := by
  cases fs with
  | nil => cases h
  | cons f fs =>
    simp only [up_cons, Option.some.injEq, Prod.mk.injEq] at h
    exact mem_pathAddrs_cons.2 (.inl h.1.symm)

/-- The parent of a node hanging below the path is a node of the path. -/
theorem parent_mem_pathAddrs {t : AvlTree} {fs : List (Frame (Nat × Int))} {n q : Nat}
    (hl : LinkOK t (some n) (up fs)) (hq : t.parent n = some q) : q ∈ pathAddrs fs := by
  cases hu : up fs with
  | none => rw [hu] at hl; simp [LinkOK, hq] at hl
  | some u =>
    obtain ⟨q', i⟩ := u
    rw [hu] at hl
    obtain ⟨h1, -⟩ := hl
    rw [hq, Option.some.injEq] at h1
    exact h1 ▸ up_mem_pathAddrs hu

/-- Pointing the link above the hole at `p'` (`avl_root` when the path is
empty) lays the same path out above `p'`. -/
theorem pathRep_linkChild {t : AvlTree} {fs : List (Frame (Nat × Int))} {p : Option Nat}
    (hp : PathRep t fs p) (hnd : (pathAddrs fs).Nodup) (q : Option Nat) (w : Fin 2)
    (hq : q = (up fs).map Prod.fst) (hw : ∀ u, up fs = some u → w = u.2) (p' : Option Nat) :
    PathRep (t.linkChild q w p') fs p' := by
  cases fs with
  | nil => subst hq; simp [AvlTree.linkChild, PathRep]
  | cons f fs =>
    simp only [up_cons, Option.map_some] at hq
    have hw' := hw _ rfl
    simp only at hw'
    subst hq hw'
    obtain ⟨hn1, hn2, -, -, -⟩ := nodup_pathAddrs_cons hnd
    obtain ⟨h1, -, h3, h4, h5, h6, h7⟩ := hp
    have hne := one_sub_ne f.side
    simp only [AvlTree.linkChild, PathRep, AvlTree.writeChild_child, AvlTree.writeChild_balance,
      Function.update_self, Function.update_of_ne hne, h1, h3, true_and]
    refine ⟨(linkOK_congr _ _ (fun _ _ => ⟨rfl, rfl⟩)).2 h4, (body_congr ?_ ?_).2 h5,
      (linkOK_congr _ _ (fun _ _ => ⟨rfl, rfl⟩)).2 h6, (pathRep_congr _ (by simp) ?_).2 h7⟩
    · intro a ha
      have : a ≠ f.val.1 := fun e => hn1 (e ▸ ha)
      simp [this]
    · intro _ _; exact ⟨rfl, rfl⟩
    · intro a ha
      have : a ≠ f.val.1 := fun e => hn2 (e ▸ ha)
      simp [this]

/-- `AVL_SETBALANCE` at a node of the tree lays out the same tree with that
node's balance changed. -/
theorem rep_setBalance {t : AvlTree} {fs : List (Frame (Nat × Int))} {i : Fin 2} {a : Nat}
    {b : Int} {x y : Shape} (hrep : Rep t (plug fs (mk i (a, b) x y)))
    (hnd : (addrs (plug fs (mk i (a, b) x y))).Nodup) (b' : Int) :
    Rep (t.setBalance a b') (plug fs (mk i (a, b') x y)) := by
  rw [rep_plug] at hrep ⊢
  obtain ⟨hlink, hbody, hpath⟩ := hrep
  rw [nodup_plug, nodup_mk] at hnd
  obtain ⟨⟨-, -, hax, hay, -⟩, -, hdisj⟩ := hnd
  have hap : a ∉ pathAddrs fs := hdisj a ((mem_addrs_mk i a b x y a).2 (.inl rfl))
  -- only the balance of `a` changes, and `a` is neither in `x`, `y` nor on the path
  have keep : ∀ u : Shape, a ∉ addrs u → Body t u → Body (t.setBalance a b') u := by
    intro u hu
    refine (body_congr (fun c hc => ⟨by rfl, ?_⟩) (fun _ _ => ⟨by rfl, by rfl⟩)).2
    simp [show c ≠ a from fun h => hu (h ▸ hc)]
  rw [rootPtr_mk] at hlink hpath ⊢
  rw [body_mk] at hbody ⊢
  obtain ⟨-, h1, h2, h3, h4, h5, h6⟩ := hbody
  refine ⟨hlink, ⟨by simp, h1, h2, h3, h4, keep x hax h5, keep y hay h6⟩, ?_⟩
  refine (pathRep_congr _ (by rfl) fun c hc => ⟨by rfl, ?_, by rfl, by rfl⟩).2 hpath
  simp [show c ≠ a from fun h => hap (h ▸ hc)]

/-! ## Links determine the tree -/

/-- A child pointer of a laid-out node points at a node below it, whose
parent link points back. -/
theorem body_child_parent {t : AvlTree} {s : Shape} (h : Body t s) {a : Nat} (ha : a ∈ addrs s)
    {i : Fin 2} {c : Nat} (hc : t.child a i = some c) :
    c ∈ below s ∧ t.parent c = some a ∧ t.childIndex c = i := by
  induction s with
  | nil => cases ha
  | node v l r ihl ihr =>
    obtain ⟨x, bx⟩ := v
    obtain ⟨-, hl, hr, hll, hlr, hbl, hbr⟩ := h
    simp only [addrs_node, List.mem_append, List.mem_cons] at ha
    simp only [below, List.mem_append]
    rcases ha with ha | rfl | ha
    · obtain ⟨h1, h2⟩ := ihl hbl ha
      exact ⟨.inl (mem_addrs_of_mem_below h1), h2⟩
    · rcases fin2_cases i with rfl | rfl
      · rw [hl] at hc
        rw [hc] at hll
        exact ⟨.inl (mem_addrs_of_rootPtr hc), hll⟩
      · rw [hr] at hc
        rw [hc] at hlr
        exact ⟨.inr (mem_addrs_of_rootPtr hc), hlr⟩
    · obtain ⟨h1, h2⟩ := ihr hbr ha
      exact ⟨.inr (mem_addrs_of_mem_below h1), h2⟩

/-- The parent link of a node below the root points at a laid-out node whose
child pointer points back. -/
theorem body_parent_child {t : AvlTree} {s : Shape} (h : Body t s) {c : Nat} (hc : c ∈ below s) :
    ∃ a ∈ addrs s, t.parent c = some a ∧ t.child a (t.childIndex c) = some c := by
  induction s with
  | nil => cases hc
  | node v l r ihl ihr =>
    obtain ⟨x, bx⟩ := v
    obtain ⟨-, hl, hr, hll, hlr, hbl, hbr⟩ := h
    simp only [below, List.mem_append] at hc
    have hx : x ∈ addrs (node (x, bx) l r) := by simp
    rcases hc with hc | hc
    · by_cases hroot : rootPtr l = some c
      · rw [hroot] at hll
        exact ⟨x, hx, hll.1, by rw [hll.2, hl, hroot]⟩
      · obtain ⟨a, ha, h1, h2⟩ := ihl hbl (by
          rcases l with _ | ⟨⟨y, yb⟩, ll, lr⟩
          · cases hc
          · simp only [rootPtr_node, Option.some.injEq] at hroot
            simp only [addrs_node, List.mem_append, List.mem_cons] at hc
            simp only [below, List.mem_append]
            rcases hc with hc | rfl | hc
            exacts [.inl hc, absurd rfl hroot, .inr hc])
        exact ⟨a, by simp [ha], h1, h2⟩
    · by_cases hroot : rootPtr r = some c
      · rw [hroot] at hlr
        exact ⟨x, hx, hlr.1, by rw [hlr.2, hr, hroot]⟩
      · obtain ⟨a, ha, h1, h2⟩ := ihr hbr (by
          rcases r with _ | ⟨⟨y, yb⟩, rl, rr⟩
          · cases hc
          · simp only [rootPtr_node, Option.some.injEq] at hroot
            simp only [addrs_node, List.mem_append, List.mem_cons] at hc
            simp only [below, List.mem_append]
            rcases hc with hc | rfl | hc
            exacts [.inl hc, absurd rfl hroot, .inr hc])
        exact ⟨a, by simp [ha], h1, h2⟩

/-- Only the root of a laid-out tree has a NULL parent. -/
theorem mem_below_of_parent {t : AvlTree} {s : Shape} (h : Rep t s) {a : Nat} (ha : a ∈ addrs s)
    (hp : t.parent a ≠ none) : a ∈ below s := by
  obtain ⟨-, hl, -⟩ := h
  rcases s with _ | ⟨⟨r, rb⟩, l, r'⟩
  · cases ha
  · simp only [addrs_node, List.mem_append, List.mem_cons] at ha
    simp only [below, List.mem_append]
    rcases ha with ha | rfl | ha
    · exact .inl ha
    · exact absurd hl hp
    · exact .inr ha

/-- The heap determines the tree below a pointer. -/
theorem body_unique {t : AvlTree} {s₁ s₂ : Shape} (h₁ : Body t s₁) (h₂ : Body t s₂)
    (hr : rootPtr s₁ = rootPtr s₂) : s₁ = s₂ := by
  induction s₁ generalizing s₂ with
  | nil =>
    rcases s₂ with _ | ⟨⟨a, b⟩, l, r⟩
    · rfl
    · cases hr
  | node v l r ihl ihr =>
    obtain ⟨a, b⟩ := v
    rcases s₂ with _ | ⟨⟨a', b'⟩, l', r'⟩
    · cases hr
    · simp only [rootPtr_node, Option.some.injEq] at hr
      subst hr
      obtain ⟨hb, hl, hr, -, -, hbl, hbr⟩ := h₁
      obtain ⟨hb', hl', hr', -, -, hbl', hbr'⟩ := h₂
      rw [ihl hbl hbl' (hl.symm.trans hl'), ihr hbr hbr' (hr.symm.trans hr'), ← hb, hb']

/-- A heap lays out at most one tree: "the tree of `t`" is well defined. -/
theorem rep_unique {t : AvlTree} {s₁ s₂ : Shape} (h₁ : Rep t s₁) (h₂ : Rep t s₂) : s₁ = s₂ :=
  body_unique h₁.2.2 h₂.2.2 (h₁.1.symm.trans h₂.1)

/-! ## Renaming -/

/-- The shape with every address `a` renamed to `σ a`. -/
def renameShape (σ : Nat → Nat) (s : Shape) : Shape := s.map (Prod.map σ id)

@[simp] theorem renameShape_nil (σ : Nat → Nat) : renameShape σ nil = nil := rfl

@[simp] theorem renameShape_node (σ : Nat → Nat) (a : Nat) (b : Int) (l r : Shape) :
    renameShape σ (node (a, b) l r) = node (σ a, b) (renameShape σ l) (renameShape σ r) := rfl

@[simp] theorem rootPtr_renameShape (σ : Nat → Nat) (s : Shape) :
    rootPtr (renameShape σ s) = (rootPtr s).map σ := by
  rcases s with _ | ⟨⟨a, b⟩, l, r⟩ <;> rfl

theorem addrs_renameShape (σ : Nat → Nat) (s : Shape) : addrs (renameShape σ s) = (addrs s).map σ := by
  simp [renameShape, addrs, inorder_map]

/-- A heap in which every node `σ a` carries the links of `a`, renamed by `σ`,
lays out the renamed shape. -/
theorem body_renameShape {t t' : AvlTree} {σ : Nat → Nat} {s : Shape}
    (hc : ∀ a ∈ addrs s, ∀ i, t'.child (σ a) i = (t.child a i).map σ)
    (hb : ∀ a ∈ addrs s, t'.balance (σ a) = t.balance a)
    (hp : ∀ a ∈ below s, t'.parent (σ a) = (t.parent a).map σ ∧
      t'.childIndex (σ a) = t.childIndex a)
    (h : Body t s) : Body t' (renameShape σ s) := by
  induction s with
  | nil => trivial
  | node v l r ihl ihr =>
    obtain ⟨a, b⟩ := v
    obtain ⟨hba, hl, hr, hll, hlr, hbl, hbr⟩ := h
    have ha : a ∈ addrs (node (a, b) l r) := by simp
    -- the children's links, renamed
    have link : ∀ (u : Shape) (j : Fin 2), (∀ x ∈ addrs u, x ∈ below (node (a, b) l r)) →
        LinkOK t (rootPtr u) (some (a, j)) → LinkOK t' (rootPtr (renameShape σ u)) (some (σ a, j)) := by
      intro u j hu hlink
      rw [rootPtr_renameShape]
      rcases hr' : rootPtr u with _ | x
      · trivial
      · rw [hr'] at hlink
        obtain ⟨h1, h2⟩ := hp x (hu x (mem_addrs_of_rootPtr hr'))
        exact ⟨by rw [h1, hlink.1]; rfl, by rw [h2, hlink.2]⟩
    rw [renameShape_node]
    refine ⟨by rw [hb a ha, hba], by rw [hc a ha, hl, rootPtr_renameShape],
      by rw [hc a ha, hr, rootPtr_renameShape], link l 0 (fun x hx => by simp [below, hx]) hll,
      link r 1 (fun x hx => by simp [below, hx]) hlr, ihl ?_ ?_ ?_ hbl, ihr ?_ ?_ ?_ hbr⟩
    · exact fun x hx => hc x (by simp [hx])
    · exact fun x hx => hb x (by simp [hx])
    · exact fun x hx => hp x (by simp [below, mem_addrs_of_mem_below hx])
    · exact fun x hx => hc x (by simp [hx])
    · exact fun x hx => hb x (by simp [hx])
    · exact fun x hx => hp x (by simp [below, mem_addrs_of_mem_below hx])

/-- `Rep` under a renaming: the root pointer and the root's NULL parent carry
over too. -/
theorem rep_renameShape {t t' : AvlTree} {σ : Nat → Nat} {s : Shape}
    (hroot : t'.root = t.root.map σ)
    (htop : ∀ r, rootPtr s = some r → t'.parent (σ r) = (t.parent r).map σ)
    (hc : ∀ a ∈ addrs s, ∀ i, t'.child (σ a) i = (t.child a i).map σ)
    (hb : ∀ a ∈ addrs s, t'.balance (σ a) = t.balance a)
    (hp : ∀ a ∈ below s, t'.parent (σ a) = (t.parent a).map σ ∧
      t'.childIndex (σ a) = t.childIndex a)
    (h : Rep t s) : Rep t' (renameShape σ s) := by
  obtain ⟨h1, h2, h3⟩ := h
  refine ⟨by rw [hroot, h1, rootPtr_renameShape], ?_, body_renameShape hc hb hp h3⟩
  rw [rootPtr_renameShape]
  rcases hr : rootPtr s with _ | r
  · trivial
  · rw [hr] at h2
    show t'.parent (σ r) = none
    rw [htop r hr, show t.parent r = none from h2]; rfl

@[simp] theorem height_renameShape (σ : Nat → Nat) (s : Shape) :
    (renameShape σ s).height = s.height := by
  induction s with
  | nil => rfl
  | node v l r ihl ihr =>
    obtain ⟨a, b⟩ := v
    simp only [renameShape_node, height, ihl, ihr]

/-- Balance does not look at addresses. -/
theorem balanced_renameShape (σ : Nat → Nat) (s : Shape) :
    Balanced (renameShape σ s) ↔ Balanced s := by
  induction s with
  | nil => exact Iff.rfl
  | node v l r ihl ihr =>
    obtain ⟨a, b⟩ := v
    simp only [Balanced] at ihl ihr
    simp only [renameShape_node, Balanced, isAvl_node, height_renameShape, ihl, ihr]

theorem nodup_renameShape {σ : Nat → Nat} {s : Shape}
    (hinj : ∀ x ∈ addrs s, ∀ y ∈ addrs s, σ x = σ y → x = y) (h : (addrs s).Nodup) :
    (addrs (renameShape σ s)).Nodup := by
  rw [addrs_renameShape]
  exact h.map_on hinj

theorem renameShape_mk (σ : Nat → Nat) (i : Fin 2) (a : Nat) (b : Int) (x y : Shape) :
    renameShape σ (mk i (a, b) x y) = mk i (σ a, b) (renameShape σ x) (renameShape σ y) := by
  rcases fin2_cases i with rfl | rfl <;> rfl

theorem renameShape_eq_self {σ : Nat → Nat} {s : Shape} (h : ∀ a ∈ addrs s, σ a = a) :
    renameShape σ s = s := by
  induction s with
  | nil => rfl
  | node v l r ihl ihr =>
    obtain ⟨a, b⟩ := v
    rw [renameShape_node, h a (by simp), ihl fun x hx => h x (by simp [hx]),
      ihr fun x hx => h x (by simp [hx])]


theorem mem_addrs_plug {fs : List (Frame (Nat × Int))} {s : Shape} {a : Nat} :
    a ∈ addrs (plug fs s) ↔ a ∈ addrs s ∨ a ∈ pathAddrs fs := by
  rw [addrs_plug, pathAddrs]
  simp only [List.mem_append]
  tauto

theorem renameShape_plug {σ : Nat → Nat} {fs : List (Frame (Nat × Int))} (s : Shape)
    (h : ∀ a ∈ pathAddrs fs, σ a = a) : renameShape σ (plug fs s) = plug fs (renameShape σ s) := by
  induction fs generalizing s with
  | nil => rfl
  | cons f fs ih =>
    obtain ⟨w, ⟨a, b⟩, sib⟩ := f
    rw [plug_cons, plug_cons, ih _ fun x hx => h x (mem_pathAddrs_cons.2 (.inr (.inr hx))),
      renameShape_mk, h a (mem_pathAddrs_cons.2 (.inl rfl)),
      renameShape_eq_self fun x hx => h x (mem_pathAddrs_cons.2 (.inr (.inl hx)))]

theorem rootPtr_plug_mem {fs : List (Frame (Nat × Int))} (s : Shape) (hfs : fs ≠ []) {r : Nat}
    (hr : rootPtr (plug fs s) = some r) : r ∈ pathAddrs fs := by
  induction fs generalizing s with
  | nil => exact absurd rfl hfs
  | cons f fs ih =>
    obtain ⟨w, ⟨a, b⟩, sib⟩ := f
    rw [plug_cons] at hr
    rcases fs with _ | ⟨g, gs⟩
    · simp only [plug_nil, rootPtr_mk, Option.some.injEq] at hr
      exact mem_pathAddrs_cons.2 (.inl hr.symm)
    · exact mem_pathAddrs_cons.2 (.inr (.inr (ih _ (List.cons_ne_nil _ _) hr)))

end ZfsOsx.Avl
