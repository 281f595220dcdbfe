import ZfsOsx.Avl.Neighbours

/-!
# Tearing a tree down: `avl_destroy_nodes`

`avl_destroy_nodes` (avl.c:940-1032) hands the caller one node per call, with
no rebalancing: it keeps its place in a cookie, the parent of the node it
returned last together with that node's child index, and it unhooks that
node from its parent only at the next call. A node is returned once both its
children are gone, so the order is post-order; a leftmost node may still have
a right child, which the AVL balance makes a leaf.

After the call that returned `x`, `DestroyInv` holds of the path `fs` from
`x` up to the root: the heap lays out the path with `x` as a leaf below it;
the path's left siblings are gone and its right siblings are the untouched
subtrees they were.

* `destroyCheckRight_spec`: from the leftmost node of a subtree, the call
  returns the first node of the subtree in post-order.
* `DestroyInv.step`: each later call unhooks the node returned last and
  returns the next node in post-order, `restPost`.
* `DestroyInv.loop`: the caller's loop then returns the rest and ends at
  NULL with an empty tree.
* `avl_destroy_nodes_postorder`: from a NULL cookie on a valid tree, the
  loop returns every member once, in post-order.
-/
namespace ZfsOsx.Avl

open BinaryTree

/-- `done:` (avl.c:1022-1029): the cookie is the parent with the node's child
index, or `CHILDBIT` alone once the node is the root. -/
def destroyDone (t : AvlTree) (node : Nat) : Option Nat → AvlTree × AvlIndex × Option Nat
  | none => (t, (none, 1), some node)
  | some p => (t, (some p, t.childIndex node), some node)

/-- `check_right_side:` (avl.c:1008-1020): a node reached by going left may
still have a right child, which goes first. -/
def destroyCheckRight (t : AvlTree) (node : Nat) (parent : Option Nat) :
    AvlTree × AvlIndex × Option Nat :=
  match t.child node 1 with
  | some c => destroyDone t c (some node)
  | none => destroyDone t node parent

/-- The loop `while (node->avl_child[0] != NULL) { parent = node; node =
node->avl_child[0]; }` (avl.c:1000-1003), on fuel `avl_numnodes`. -/
def destroyDescend (t : AvlTree) : Nat → Nat → Nat → Option (Nat × Nat)
  | 0, _, _ => none
  | fuel + 1, parent, n =>
    match t.child n 0 with
    | none => some (parent, n)
    | some c => destroyDescend t fuel n c

/-- `avl_destroy_nodes(tree, &cookie)` (avl.c:940-1032): the tree after the
call, the new cookie and the node returned, NULL at the end; `none` where the
code panics (or a loop runs out of the model's fuel). A NULL cookie is
`(none, 0)`, `CHILDBIT` is `(none, 1)`. -/
@[grind] def avlDestroyNodes (t : AvlTree) (cookie : AvlIndex) : Option (AvlTree × AvlIndex × Option Nat) :=
  match cookie with
  | (none, 0) =>
    match avlFirst t with
    | none => some (t, (none, 1), none)
    | some first => some (destroyCheckRight t first (t.parent first))
  | (none, _) =>
    if t.root ≠ none then some ({ t with root := none, numnodes := 0 }, (none, 1), none)
    else some (t, (none, 1), none)
  | (some parent, child) =>
    let t := t.writeChild parent child none
    if t.numnodes ≤ 1 then none
    else
      let t := { t with numnodes := t.numnodes - 1 }
      if child = 1 ∨ t.child parent 1 = none then some (destroyDone t parent (t.parent parent))
      else
        match t.child parent 1 with
        | none => none
        | some c => (destroyDescend t t.numnodes parent c).map fun (parent, n) =>
            destroyCheckRight t n (some parent)

/-- The caller's loop `while ((node = avl_destroy_nodes(tree, &cookie)) != NULL)`
for at most `fuel` calls: the nodes returned, and the tree after the call that
returned NULL. -/
def destroyLoop : Nat → AvlTree → AvlIndex → Option (List Nat × AvlTree)
  | 0, _, _ => none
  | fuel + 1, t, cookie =>
    match avlDestroyNodes t cookie with
    | none => none
    | some (t', _, none) => some ([], t')
    | some (t', cookie', some x) =>
      (destroyLoop fuel t' cookie').map fun r => (x :: r.1, r.2)

/-! ## Post-order on paths -/

/-- The addresses of a shape in post-order. -/
@[grind] def postAddrs (s : Shape) : List Nat := s.postorder.map Prod.fst

/-- The cookie that points at the node at the end of `fs`. -/
@[grind] def cookieOf : List (Frame (Nat × Int)) → AvlIndex
  | [] => (none, 1)
  | f :: _ => (some f.val.1, f.side)

/-- What the calls return after the node at the end of `fs`: per frame,
upwards, the sibling subtree if the path comes up from the left, then the
frame's node. -/
@[grind] def restPost : List (Frame (Nat × Int)) → List Nat
  | [] => []
  | f :: fs => (if f.side = 0 then postAddrs f.sib else []) ++ f.val.1 :: restPost fs

/-- The node a descent from `p` ends below: `p` itself, or the lowest frame's. -/
def parentOr (p : Nat) : List (Frame (Nat × Int)) → Nat
  | [] => p
  | g :: _ => g.val.1

theorem restPost_append (G P : List (Frame (Nat × Int))) :
    restPost (G ++ P) = restPost G ++ restPost P := by
  induction G with
  | nil => rfl
  | cons g G ih => simp [restPost, ih]

/-- Below a path that only goes left, a subtree comes first in post-order. -/
theorem postAddrs_plug_left {G : List (Frame (Nat × Int))} (hG : ∀ g ∈ G, g.side = 0)
    (v : Shape) : postAddrs (plug G v) = postAddrs v ++ restPost G := by
  induction G generalizing v with
  | nil => simp [restPost]
  | cons g G ih =>
    obtain ⟨side, a, sib⟩ := g
    have hs : side = 0 := hG _ List.mem_cons_self
    subst hs
    rw [plug_cons, ih (fun g hg => hG g (List.mem_cons_of_mem _ hg))]
    simp [postAddrs, restPost]

theorem balanced_sib_of_pathBalanced {fs : List (Frame (Nat × Int))} {h : Nat}
    (hp : PathBalanced fs h) : ∀ f ∈ fs, Balanced f.sib := by
  induction fs generalizing h with
  | nil => simp
  | cons f fs ih =>
    obtain ⟨-, -, -, hsib, hfs⟩ := hp
    intro g hg
    rcases List.mem_cons.1 hg with rfl | hg
    exacts [hsib, ih hfs g hg]

/-- A balanced node without a left child has at most a leaf on its right. -/
theorem right_leaf_of_balanced {m : Nat} {mb : Int} {mr : Shape}
    (h : Balanced (node (m, mb) nil mr)) : mr = nil ∨ ∃ r rb, mr = node (r, rb) nil nil := by
  obtain ⟨hb, -, hle, -, -⟩ := h
  rcases mr with _ | ⟨⟨r, rb⟩, rl, rr⟩
  · exact .inl rfl
  · -- a right subtree of height two would put the balance at 2
    refine .inr ⟨r, rb, ?_⟩
    cases rl with
    | node w wl wr =>
      simp only [height, Nat.cast_add, Nat.cast_one, Nat.cast_max, Nat.cast_zero] at hb
      omega
    | nil =>
      cases rr with
      | node w wl wr =>
        simp only [height, Nat.cast_add, Nat.cast_one, Nat.cast_max, Nat.cast_zero] at hb
        omega
      | nil => rfl

/-! ## The invariant between calls -/

/-- After the call that returned `x`, the node at the end of the path `fs`:
the heap lays out the path with `x` as a leaf below it. -/
structure DestroyInv (t : AvlTree) (fs : List (Frame (Nat × Int))) (x : Nat) : Prop where
  rep : Rep t (plug fs (node (x, t.balance x) nil nil))
  nodup : (addrs (plug fs (node (x, t.balance x) nil nil))).Nodup
  size : t.numnodes = (plug fs (node (x, t.balance x) nil nil)).numNodes
  /-- the left siblings have been returned and unhooked -/
  left_done : ∀ f ∈ fs, f.side = 1 → f.sib = nil
  /-- the right siblings are the balanced subtrees they were -/
  sib_balanced : ∀ f ∈ fs, Balanced f.sib

/-- `done:` on a node hanging where the path says gives the path's cookie. -/
theorem destroyDone_cookieOf {t : AvlTree} {fs : List (Frame (Nat × Int))} {x : Nat}
    (hl : LinkOK t (some x) (up fs)) :
    destroyDone t x ((up fs).map Prod.fst) = (t, cookieOf fs, some x) := by
  cases fs with
  | nil => rfl
  | cons f fs =>
    have hi : t.childIndex x = f.side := hl.2
    simp [destroyDone, cookieOf, hi]

/-- The descent of `avl_destroy_nodes` to the leftmost node of a laid-out
subtree, started below `p`: it ends at a node `n` at the end of a path that
only goes left, with the node above `n` as `parent`. -/
theorem destroyDescend_spec {t : AvlTree} {u : Shape} (hs : Body t u) (a : Nat)
    (ha : rootPtr u = some a) (fuel : Nat) (hf : u.height ≤ fuel) (p : Nat) :
    ∃ gs n nb x, u = plug gs (node (n, nb) nil x) ∧ (∀ g ∈ gs, g.side = 0) ∧
      destroyDescend t fuel p a = some (parentOr p gs, n) := by
  induction u generalizing fuel a p with
  | nil => cases ha
  | node v l r ihl ihr =>
    obtain ⟨n, nb⟩ := v
    simp only [rootPtr_node, Option.some.injEq] at ha
    subst ha
    obtain ⟨k, rfl⟩ : ∃ k, fuel = k + 1 := ⟨fuel - 1, by simp at hf; omega⟩
    obtain ⟨-, hl, -, -, -, hbl, -⟩ := hs
    simp only [height] at hf
    cases l with
    | nil => exact ⟨[], n, nb, r, rfl, by simp, by simp [destroyDescend, hl, parentOr]⟩
    | node w ll lr =>
      obtain ⟨m, mb⟩ := w
      obtain ⟨gs, n', nb', x, he, hg, hd⟩ := ihl hbl m rfl k (by omega) n
      refine ⟨gs ++ [⟨0, (n, nb), r⟩], n', nb', x, ?_, ?_, ?_⟩
      · rw [plug_append, ← he]
        rfl
      · simp only [List.mem_append, List.mem_singleton]
        rintro g (h | rfl)
        exacts [hg g h, rfl]
      · have hpar : parentOr p (gs ++ [⟨0, (n, nb), r⟩]) = parentOr n gs := by
          cases gs <;> rfl
        simp only [destroyDescend, hl, rootPtr_node, hpar]
        exact hd

/-- From the leftmost node `m` of a subtree, `check_right_side` returns the
first node of the subtree in post-order: `m`, or its right child, a leaf. -/
theorem destroyCheckRight_spec {t : AvlTree} {Q : List (Frame (Nat × Int))} {m : Nat}
    {mb : Int} {mr : Shape} (hrep : Rep t (plug Q (node (m, mb) nil mr)))
    (hnd : (addrs (plug Q (node (m, mb) nil mr))).Nodup)
    (hsize : t.numnodes = (plug Q (node (m, mb) nil mr)).numNodes)
    (hleft : ∀ f ∈ Q, f.side = 1 → f.sib = nil) (hsib : ∀ f ∈ Q, Balanced f.sib)
    (hbal : Balanced (node (m, mb) nil mr)) :
    ∃ gs y, destroyCheckRight t m ((up Q).map Prod.fst) = (t, cookieOf gs, some y) ∧
      DestroyInv t gs y ∧ y :: restPost gs = postAddrs (node (m, mb) nil mr) ++ restPost Q := by
  obtain ⟨hlink, hbody, -⟩ := (rep_plug _ _ _).1 hrep
  obtain ⟨hmb, -, hm1, -, hlr, -, hbr⟩ := hbody
  rcases right_leaf_of_balanced hbal with rfl | ⟨r, rb, rfl⟩
  · -- no right child: `m` itself
    refine ⟨Q, m, ?_, ⟨?_, ?_, ?_, hleft, hsib⟩, ?_⟩
    · simp only [destroyCheckRight, hm1, rootPtr_nil]
      exact destroyDone_cookieOf hlink
    · rwa [hmb]
    · rwa [hmb]
    · rwa [hmb]
    · simp [postAddrs]
  · -- a right leaf `r` goes first, below `m`
    obtain ⟨hrb, -, -, -, -, -, -⟩ := hbr
    have hi : t.childIndex r = 1 := hlr.2
    refine ⟨⟨1, (m, mb), nil⟩ :: Q, r, ?_, ⟨?_, ?_, ?_, ?_, ?_⟩, ?_⟩
    · simp [destroyCheckRight, hm1, destroyDone, cookieOf, hi]
    · rw [hrb]
      exact hrep
    · rw [hrb]
      exact hnd
    · rw [hrb]
      exact hsize
    · simp only [List.mem_cons]
      rintro f (rfl | hf) hside
      exacts [rfl, hleft f hf hside]
    · simp only [List.mem_cons]
      rintro f (rfl | hf)
      exacts [trivial, hsib f hf]
    · simp [postAddrs, restPost]

/-- Unhooking the node at the end of a path leaves the path laid out over an
empty hole. -/
theorem rep_unhook {t : AvlTree} {f : Frame (Nat × Int)} {fs : List (Frame (Nat × Int))}
    {v : Shape} (hrep : Rep t (plug (f :: fs) v)) (hnd : (addrs (plug (f :: fs) v)).Nodup) :
    Rep (t.writeChild f.val.1 f.side none) (plug (f :: fs) nil) := by
  obtain ⟨-, -, hpath⟩ := (rep_plug _ _ _).1 hrep
  have hnd' := ((nodup_plug _ _).1 hnd).2.1
  refine (rep_plug _ _ _).2 ⟨trivial, trivial, ?_⟩
  exact pathRep_linkChild hpath hnd' (some f.val.1) f.side rfl (fun u hu => by cases hu; rfl) none

/-- `avl_numnodes` is no part of the layout. -/
theorem rep_withNumnodes {t : AvlTree} {s : Shape} (n : Nat) :
    Rep { t with numnodes := n } s ↔ Rep t s := by
  have hb : Body { t with numnodes := n } s ↔ Body t s :=
    body_congr (fun _ _ => ⟨rfl, rfl⟩) (fun _ _ => ⟨rfl, rfl⟩)
  have hl : LinkOK { t with numnodes := n } (rootPtr s) none ↔ LinkOK t (rootPtr s) none :=
    linkOK_congr _ _ (fun _ _ => ⟨rfl, rfl⟩)
  simp only [Rep, hb, hl]

@[simp] theorem cookieOf_cons (f : Frame (Nat × Int)) (fs : List (Frame (Nat × Int))) :
    cookieOf (f :: fs) = (some f.val.1, f.side) := rfl

/-- A call after the one that returned `x`: it unhooks `x` and returns the
next node in post-order, going up to `x`'s parent when that has no right
subtree left, else down to the first node of that subtree. -/
theorem DestroyInv.step {t : AvlTree} {f : Frame (Nat × Int)} {fs : List (Frame (Nat × Int))}
    {x : Nat} (hi : DestroyInv t (f :: fs) x) :
    ∃ t' gs y, avlDestroyNodes t (cookieOf (f :: fs)) = some (t', cookieOf gs, some y) ∧
      DestroyInv t' gs y ∧ y :: restPost gs = restPost (f :: fs) := by
  obtain ⟨side, ⟨p, pb⟩, u⟩ := f
  have hcount := length_add_numNodes_le (⟨side, (p, pb), u⟩ :: fs) (node (x, t.balance x) nil nil)
  rw [← hi.size] at hcount
  -- `x` and `p` are both still counted, so the count does not run out
  have hgt : ¬(t.writeChild p side none).numnodes ≤ 1 := by
    simp only [AvlTree.writeChild_numnodes, List.length_cons] at hcount ⊢
    simp at hcount
    omega
  simp only [avlDestroyNodes, cookieOf_cons, if_neg hgt]
  set t2 : AvlTree := { t.writeChild p side none with
    numnodes := (t.writeChild p side none).numnodes - 1 } with ht2
  have hrep2 : Rep t2 (plug (⟨side, (p, pb), u⟩ :: fs) nil) :=
    (rep_withNumnodes _).2 (rep_unhook hi.rep hi.nodup)
  have hnd2 : (addrs (plug (⟨side, (p, pb), u⟩ :: fs) nil)).Nodup := by
    refine hi.nodup.sublist ?_
    rw [addrs_plug, addrs_plug]
    simp
  have hsize2 : t2.numnodes = (plug (⟨side, (p, pb), u⟩ :: fs) nil).numNodes := by
    have h := hi.size
    rw [numNodes_plug] at h ⊢
    simp only [ht2, AvlTree.writeChild_numnodes, h]
    simp
  obtain ⟨-, -, hpath⟩ := (rep_plug _ _ _).1 hrep2
  obtain ⟨hpb, -, hpu, -, hbody, hlinkp, -⟩ := hpath
  dsimp only at hpb hpu hbody hlinkp
  by_cases hup : side = 1 ∨ (t.writeChild p side none).child p 1 = none
  · -- up to `p`: its right subtree is empty or done
    have hu : u = nil := by
      rcases fin2_cases side with rfl | rfl
      · have hnone : rootPtr u = none := by
          rcases hup with h | h
          · exact absurd h (by decide)
          · exact hpu.symm.trans h
        cases u with
        | nil => rfl
        | node _ _ _ => cases hnone
      · exact hi.left_done _ List.mem_cons_self rfl
    subst hu
    have hshape : plug fs (node (p, t2.balance p) nil nil) = plug (⟨side, (p, pb), nil⟩ :: fs) nil := by
      rw [hpb, plug_cons]
      rcases fin2_cases side with rfl | rfl <;> rfl
    rw [if_pos hup]
    refine ⟨t2, fs, p, ?_, ⟨?_, ?_, ?_, ?_, ?_⟩, ?_⟩
    · rw [parent_of_linkOK hlinkp, destroyDone_cookieOf hlinkp]
    · rw [hshape]
      exact hrep2
    · rw [hshape]
      exact hnd2
    · rw [hshape]
      exact hsize2
    · exact fun f hf => hi.left_done f (List.mem_cons_of_mem _ hf)
    · exact fun f hf => hi.sib_balanced f (List.mem_cons_of_mem _ hf)
    · rcases fin2_cases side with rfl | rfl <;> simp [restPost, postAddrs]
  · -- down into the right subtree `u` of `p`, to its first node in post-order
    have hside : side = 0 := by
      rcases fin2_cases side with h | h
      exacts [h, absurd (Or.inl h) hup]
    subst hside
    obtain ⟨c, hc⟩ : ∃ c, (t.writeChild p 0 none).child p 1 = some c :=
      Option.ne_none_iff_exists'.1 fun h => hup (Or.inr h)
    have hroot : rootPtr u = some c := hpu.symm.trans hc
    have hbu : Balanced u := hi.sib_balanced _ List.mem_cons_self
    have hheight : u.height ≤ (t.writeChild p 0 none).numnodes - 1 := by
      have h1 := length_add_numNodes_le fs (BinaryTree.mk 0 (p, pb) nil u)
      have h2 := height_le_numNodes u
      have h3 : t2.numnodes = (t.writeChild p 0 none).numnodes - 1 := rfl
      rw [← h3, hsize2, plug_cons]
      dsimp only
      simp only [numNodes_mk, numNodes] at h1
      omega
    obtain ⟨G, m, mb, mr, hG, hleft, hdesc⟩ :=
      destroyDescend_spec hbody c hroot ((t.writeChild p 0 none).numnodes - 1) hheight p
    rw [if_neg hup, hc]
    simp only [hdesc, Option.map_some]
    -- the node found hangs below the path `G`, then `p` with its left side done
    set Q := G ++ ⟨1, (p, pb), nil⟩ :: fs with hQ
    have hupQ : (up Q).map Prod.fst = some (parentOr p G) := by
      cases G <;> rfl
    have hshape : plug Q (node (m, mb) nil mr) = plug (⟨0, (p, pb), u⟩ :: fs) nil := by
      rw [hQ, plug_append, ← hG]
      rfl
    obtain ⟨hbm, hpathbal⟩ := (balanced_plug G _).1 (hG ▸ hbu)
    have hsibG := balanced_sib_of_pathBalanced hpathbal
    have hleftQ : ∀ f ∈ Q, f.side = 1 → f.sib = nil := by
      intro f hf hs
      rcases List.mem_append.1 hf with hf | hf
      · rw [hleft f hf] at hs
        exact absurd hs (by decide)
      · rcases List.mem_cons.1 hf with rfl | hf
        exacts [rfl, hi.left_done f (List.mem_cons_of_mem _ hf) hs]
    have hsibQ : ∀ f ∈ Q, Balanced f.sib := by
      intro f hf
      rcases List.mem_append.1 hf with hf | hf
      · exact hsibG f hf
      · rcases List.mem_cons.1 hf with rfl | hf
        exacts [trivial, hi.sib_balanced f (List.mem_cons_of_mem _ hf)]
    obtain ⟨gs, y, hcr, hinv, hrest⟩ := destroyCheckRight_spec (Q := Q)
      (by rw [hshape]; exact hrep2) (by rw [hshape]; exact hnd2) (by rw [hshape]; exact hsize2)
      hleftQ hsibQ hbm
    rw [← hupQ, hcr]
    refine ⟨t2, gs, y, rfl, hinv, ?_⟩
    rw [hrest, hQ, restPost_append, hG]
    simp [restPost, postAddrs_plug_left hleft]

/-- The call after the root was returned: the cookie is `CHILDBIT` alone, and
the tree is emptied. -/
theorem DestroyInv.last {t : AvlTree} {x : Nat} (hi : DestroyInv t [] x) :
    avlDestroyNodes t (cookieOf []) =
      some ({ t with root := none, numnodes := 0 }, (none, 1), none) := by
  have hroot : t.root = some x := hi.rep.1
  simp [avlDestroyNodes, cookieOf, hroot]

/-- The caller's loop from any point between calls: with fuel for the nodes
still to come, it returns them in post-order, then NULL, and leaves the tree
empty. The induction is on the fuel, one call per step. -/
theorem DestroyInv.loop (fuel : Nat) {t : AvlTree} {fs : List (Frame (Nat × Int))} {x : Nat}
    (hi : DestroyInv t fs x) (hf : (restPost fs).length < fuel) :
    ∃ t', destroyLoop fuel t (cookieOf fs) = some (restPost fs, t') ∧
      t'.root = none ∧ t'.numnodes = 0 := by
  induction fuel generalizing t fs x with
  | zero => omega
  | succ k ih =>
    cases fs with
    | nil =>
      refine ⟨{ t with root := none, numnodes := 0 }, ?_, rfl, rfl⟩
      simp [destroyLoop, hi.last, restPost]
    | cons f fs =>
      obtain ⟨t', gs, y, hcall, hinv, hrest⟩ := hi.step
      have hlen : (restPost gs).length < k := by
        have := congrArg List.length hrest
        simp only [List.length_cons] at this
        omega
      obtain ⟨t'', hloop, hroot, hnum⟩ := ih hinv hlen
      refine ⟨t'', ?_, hroot, hnum⟩
      simp only [destroyLoop, hcall, hloop, Option.map_some, hrest]

section

variable {compar : Nat → Nat → Ordering} [Std.ReflCmp compar] {t : AvlTree} {s : Shape}

/-- The first call, from a NULL cookie on a nonempty valid tree: it returns
the first node in post-order and leaves the tree as it was. -/
theorem destroy_first (hv : Valid compar t s) (hs : s ≠ nil) :
    ∃ gs y, avlDestroyNodes t (none, 0) = some (t, cookieOf gs, some y) ∧
      DestroyInv t gs y ∧ y :: restPost gs = postAddrs s := by
  obtain ⟨hroot, -, hbody⟩ := hv.rep
  obtain ⟨r, hr⟩ : ∃ r, rootPtr s = some r := by
    cases s with
    | nil => exact absurd rfl hs
    | node v _ _ => exact ⟨v.1, rfl⟩
  have hh : s.height ≤ t.numnodes := hv.size ▸ height_le_numNodes s
  -- `avl_first` walks left to `n`, which has no left child
  obtain ⟨gs, n, nb, x, hsg, hgs, hloop⟩ := descendLoop_spec hbody 0 r hr t.numnodes hh
  have hfirst : avlFirst t = some n := by
    rw [avlFirst, hroot, hr, Option.bind_some, hloop]
  replace hsg : s = plug gs (node (n, nb) nil x) := hsg
  subst hsg
  obtain ⟨hlink, -, -⟩ := (rep_plug _ _ _).1 hv.rep
  obtain ⟨hbm, hpath⟩ := (balanced_plug gs _).1 hv.balanced
  have hleft : ∀ f ∈ gs, f.side = 1 → f.sib = nil := fun f hf h1 =>
    absurd ((hgs f hf).symm.trans h1) (by decide)
  obtain ⟨gs', y, hcr, hinv, hrest⟩ := destroyCheckRight_spec hv.rep hv.nodup hv.size hleft
    (balanced_sib_of_pathBalanced hpath) hbm
  refine ⟨gs', y, ?_, hinv, ?_⟩
  · simp only [avlDestroyNodes, hfirst]
    rw [parent_of_linkOK hlink, hcr]
  · rw [hrest, postAddrs_plug_left hgs]

theorem length_postAddrs (s : Shape) : (postAddrs s).length = s.numNodes := by
  rw [postAddrs, List.length_map, (postorder_perm_inorder s).length_eq, length_inorder]

theorem avl_destroy_nodes_postorder (hv : Valid compar t s) :
    ∃ t', destroyLoop (t.numnodes + 1) t (none, 0) = some (postAddrs s, t') ∧
      t'.root = none ∧ t'.numnodes = 0 ∧ (postAddrs s).Perm (addrs s) := by
  have hperm : (postAddrs s).Perm (addrs s) := (postorder_perm_inorder s).map Prod.fst
  by_cases hs : s = nil
  · -- an empty tree: `avl_first` is NULL and the first call returns NULL
    subst hs
    have hroot : t.root = none := hv.rep.1
    have hfirst : avlFirst t = none := by simp [avlFirst, hroot]
    refine ⟨t, ?_, hroot, hv.size, hperm⟩
    simp [destroyLoop, avlDestroyNodes, hfirst, postAddrs]
  · obtain ⟨gs, y, hcall, hinv, hrest⟩ := destroy_first hv hs
    have hlen : (restPost gs).length < t.numnodes := by
      have := congrArg List.length hrest
      rw [List.length_cons, length_postAddrs, ← hv.size] at this
      omega
    obtain ⟨t', hloop, hroot, hnum⟩ := hinv.loop t.numnodes hlen
    refine ⟨t', ?_, hroot, hnum, hperm⟩
    simp [destroyLoop, hcall, hloop, hrest]

end

theorem avl_destroy_nodes_postorder_three :
    let t0 : AvlTree := avlCreate ⟨none, 0, fun _ _ => none, fun _ => none, fun _ => 0, fun _ => 0⟩
    let t1 := (avlAdd compare t0 5).getD t0
    let t2 := (avlAdd compare t1 3).getD t1
    let t3 := (avlAdd compare t2 8).getD t2
    ∃ s, Valid compare t3 s ∧
      ∃ t', destroyLoop (t3.numnodes + 1) t3 (none, 0) = some (postAddrs s, t') ∧
        t'.root = none ∧ t'.numnodes = 0 ∧ (postAddrs s).Perm (addrs s) := by
  intro t0 t1 t2 t3
  have hr : Reachable compare t3 :=
    .add (.add (.add (.create compare _) 5 rfl) 3 rfl) 8 rfl
  obtain ⟨s, hv⟩ := hr.valid
  exact ⟨s, hv, avl_destroy_nodes_postorder hv⟩

end ZfsOsx.Avl
