import ZfsOsx.Avl.Insert

/-!
# `avl_remove`

`avl_remove` first makes sure the node it takes out has at most one child:
a node with two children trades places with its neighbour on the taller side,
through the stack node `tmp` (`removeSwap`). The node is then cut out, its
child (if any) taking its place (`unlinkNode`), and the retrace climbs while
subtrees keep losing a level (`removeLoop`, which simulates `removeFix` of
`Avl/Shape.lean`).

* `removeLoop_rep`: the pointer retrace does the steps of `removeFix`.
* `unlinkNode_rep`: cutting out a node with at most one child.
* `removeSwap_rep`: after the swap the heap lays out the same tree with
  `delete` renamed to its neighbour and the neighbour renamed to `tmp`.
* `avlRemove_rep`: `avl_remove` of a member lays out `removeFix` of the path
  above the member's place, one node fewer, and the in-order sequence loses
  exactly that member.
-/
namespace ZfsOsx.Avl

/-- The retrace loop of `avl_remove`: the subtree of `node` on side
`whichChild` lost a level. `parent` and `whichChild` for the next round are
read before a rotation moves `node`; the C's `do ... while (parent != NULL)`
is entered with a non-NULL `parent`, so it is the same loop.
mirrors module/avl/avl.c:770-806 -/
def removeLoop : AvlTree → Nat → Option Nat → Fin 2 → Option AvlTree
  | _, 0, _, _ => none
  | t, _ + 1, none, _ => some t
  | t, fuel + 1, some node, whichChild =>
    let oldBalance := t.balance node
    let newBalance := oldBalance - child2balance whichChild
    let parent := t.parent node
    let whichChild := t.childIndex node
    if oldBalance = 0 then some (t.setBalance node newBalance)
    else if newBalance = 0 then removeLoop (t.setBalance node newBalance) fuel parent whichChild
    else
      let r := avlRotation t node newBalance
      if r.2 then removeLoop r.1 fuel parent whichChild else some r.1

/-- The swap of `avl_remove` for a node with two children: `node`, the
neighbour of `delete` on its taller side, takes `delete`'s place and the stack
node `tmp` takes `node`'s; `tmp` is the node removed afterwards. The `none`s
are NULL dereferences.
mirrors module/avl/avl.c:680-735 -/
def removeSwap (t : AvlTree) (delete tmp : Nat) : Option AvlTree := do
  -- choose node to swap from whichever side is taller
  let oldBalance := t.balance delete
  let left := balance2child oldBalance
  let right : Fin 2 := 1 - left
  -- down 1 left, as far as possible right
  let node ← (t.child delete left).bind (descendLoop t right t.numnodes)
  -- `tmp = *node; *node = *delete;`
  let t := t.copyNode tmp node
  let t := t.copyNode node delete
  let t := if t.child node left = some node then t.writeChild node left (some tmp) else t
  let parent := t.parent node
  let t := t.linkChild parent (t.childIndex node) (some node)
  let t := t.setParent (← t.child node left) (some node)
  let t := t.setParent (← t.child node right) (some node)
  -- put tmp where node used to be
  let delete := tmp
  let parent ← t.parent delete
  let t := t.writeChild parent (t.childIndex delete) (some delete)
  let whichChild : Fin 2 := if (t.child delete 1).isSome then 1 else 0
  match t.child delete whichChild with
  | some c => some (t.setParent c (some delete))
  | none => some t

/-- Cutting out `delete`, which has at most one child: the child takes its
place below `parent`. Returns where the retrace starts. The `none` is the
panic on a tree that counts no nodes.
mirrors module/avl/avl.c:738-767 -/
def unlinkNode (t : AvlTree) (delete : Nat) : Option (AvlTree × Option Nat × Fin 2) :=
  if t.numnodes = 0 then none
  else
    let t := { t with numnodes := t.numnodes - 1 }
    let parent := t.parent delete
    let whichChild := t.childIndex delete
    let node := if (t.child delete 0).isSome then t.child delete 0 else t.child delete 1
    -- connect parent directly to node (leaving out delete)
    let t := match node with
      | some node => (t.setParent node parent).setChildIndex node whichChild
      | none => t
    some (t.linkChild parent whichChild node, parent, whichChild)

/-- `avl_remove(tree, data)`; `tmp` is the address of its local `avl_node_t tmp`,
which is no element's.
mirrors module/avl/avl.c:662-807 -/
def avlRemove (t : AvlTree) (data tmp : Nat) : Option AvlTree := do
  let (t, delete) ←
    if (t.child data 0).isSome && (t.child data 1).isSome then
      (removeSwap t data tmp).map fun t => (t, tmp)
    else some (t, data)
  let (t, parent, whichChild) ← unlinkNode t delete
  removeLoop t (t.numnodes + 1) parent whichChild

open BinaryTree

/-- The retrace loop of `avl_remove` simulates `removeFix`: from a heap that
lays out the path `fs` above the shrunk subtree `s`, with enough fuel, it ends
in a heap that lays out `removeFix fs s`. -/
theorem removeLoop_rep {fs : List (Frame (Nat × Int))} :
    ∀ {t : AvlTree} {s : Shape}, Rep t (plug fs s) → (addrs (plug fs s)).Nodup →
      (∀ f ∈ fs, -1 ≤ f.val.2 ∧ f.val.2 ≤ 1) → ∀ (w : Fin 2), (∀ u, up fs = some u → w = u.2) →
      ∀ fuel, fs.length < fuel →
      ∃ t', removeLoop t fuel ((up fs).map Prod.fst) w = some t' ∧
        Rep t' (removeFix fs s) ∧ t'.numnodes = t.numnodes := by
  induction fs with
  | nil =>
    intro t s hrep _ _ w _ fuel hf
    obtain ⟨k, rfl⟩ : ∃ k, fuel = k + 1 := ⟨fuel - 1, by simp at hf; omega⟩
    exact ⟨t, rfl, hrep, rfl⟩
  | cons f fs ih =>
    intro t s hrep hnd hb w hw fuel hf
    obtain ⟨side, ⟨a, b⟩, sib⟩ := f
    obtain ⟨k, rfl⟩ : ∃ k, fuel = k + 1 := ⟨fuel - 1, by omega⟩
    have hw' : w = side := hw _ rfl
    subst hw'
    have hpath := ((rep_plug _ _ _).1 hrep).2.2
    obtain ⟨hba, -, -, -, -, hlink, -⟩ := hpath
    obtain ⟨hb1, hb2⟩ := hb _ (List.mem_cons_self ..)
    simp only at hba hb1 hb2
    simp only [plug_cons] at hrep hnd
    have hpar := parent_of_linkOK hlink
    have hidx := childIndex_of_linkOK hlink
    have hb' : ∀ g ∈ fs, -1 ≤ g.val.2 ∧ g.val.2 ≤ 1 := fun g hg => hb g (List.mem_cons_of_mem _ hg)
    have hf' : fs.length < k := by simpa using hf
    simp only [up_cons, Option.map_some, removeLoop, hba, hpar, removeFix]
    by_cases h0 : b = 0
    · -- the ancestor was balanced: it leans away now, and the height above is kept
      rw [if_pos h0, if_pos h0]
      exact ⟨_, rfl, rep_setBalance hrep hnd _, rfl⟩
    rw [if_neg h0, if_neg h0]
    by_cases h1 : b - child2balance w = 0
    · -- the ancestor leaned towards the shrunk side: balanced now, one level lower
      rw [if_pos h1, if_pos h1]
      have heq : addrs (mk w (a, b - child2balance w) s sib) = addrs (mk w (a, b) s sib) :=
        addrs_mk_congr w (by rfl) s sib
      have hnd' : (addrs (plug fs (mk w (a, b - child2balance w) s sib))).Nodup := by
        rwa [addrs_plug_congr fs heq]
      obtain ⟨t', ht', hrep', hn⟩ := ih (rep_setBalance hrep hnd _) hnd' hb' (t.childIndex a)
        (fun u hu => hidx u hu) k hf'
      rw [h1] at hrep'
      exact ⟨t', ht', hrep', by simpa using hn⟩
    · -- the ancestor leaned away from the shrunk side: rotate towards the sibling
      rw [if_neg h1, if_neg h1]
      have h2 : b - child2balance w = 2 * child2balance (1 - w) := by
        rw [child2balance_other]
        rcases child2balance_cases w with hc | hc <;> rw [hc] at h1 ⊢ <;> omega
      rw [h2, ← mk_other w] at *
      obtain ⟨hr, hflag⟩ := avlRotation_rep hrep hnd
      have hnd' : (addrs (plug fs (rotateShape (mk (1 - w) (a, b) sib s)
          (2 * child2balance (1 - w))).1)).Nodup := by
        rwa [addrs_plug_congr fs (addrs_rotateShape _ _)]
      rw [← hflag]
      split
      · obtain ⟨t', ht', hrep', hn⟩ := ih hr hnd' hb' (t.childIndex a) (fun u hu => hidx u hu) k hf'
        exact ⟨t', ht', hrep', by simpa using hn⟩
      · exact ⟨_, rfl, hr, avlRotation_numnodes _ _ _⟩

/-- `node` in `unlinkNode`: the one child a node with at most one child has. -/
theorem onlyChild_eq {t : AvlTree} {i : Fin 2} {d : Nat} {c : Shape}
    (hc : t.child d i = rootPtr c) (hn : t.child d (1 - i) = none) :
    (if (t.child d 0).isSome then t.child d 0 else t.child d 1) = rootPtr c := by
  rcases fin2_cases i with rfl | rfl
  · rcases hr : rootPtr c with _ | x
    · rw [hc, hr]; simpa using hn
    · simp [hc, hr]
  · have hn' : t.child d 0 = none := hn
    simp [hc, hn']

/-- Cutting out a node `d` that has the subtree `c` on side `i` and nothing on
the other side: the heap lays out the path with `c` in `d`'s place, and the
retrace starts at `d`'s parent. -/
theorem unlinkNode_rep {t : AvlTree} {fs : List (Frame (Nat × Int))} {i : Fin 2} {d : Nat}
    {b : Int} {c : Shape} (hrep : Rep t (plug fs (mk i (d, b) c nil)))
    (hnd : (addrs (plug fs (mk i (d, b) c nil))).Nodup) (hpos : t.numnodes ≠ 0) :
    ∃ t' w, unlinkNode t d = some (t', (up fs).map Prod.fst, w) ∧
      (∀ u, up fs = some u → w = u.2) ∧ Rep t' (plug fs c) ∧ t'.numnodes = t.numnodes - 1 := by
  rw [rep_plug] at hrep
  obtain ⟨hlink, hbody, hpath⟩ := hrep
  rw [body_mk] at hbody
  obtain ⟨-, hcd, hnil, -, -, hbc, -⟩ := hbody
  rw [nodup_plug, nodup_mk] at hnd
  obtain ⟨⟨hndc, -, hdc, -, -⟩, hndP, hdisj⟩ := hnd
  simp only [rootPtr_mk] at hlink hpath
  simp only [rootPtr_nil] at hnil
  have hpar := parent_of_linkOK hlink
  have hidx := childIndex_of_linkOK hlink
  -- the child's root and every node of `c` are off the path
  have hcP : ∀ x ∈ addrs c, x ∉ pathAddrs fs := fun x hx =>
    hdisj x ((mem_addrs_mk i d b c nil x).2 (.inr (.inl hx)))
  have hPc : ∀ q, t.parent d = some q → q ∉ addrs c := fun q hq hc =>
    hcP q hc (parent_mem_pathAddrs hlink hq)
  -- the heap after the stores
  let T : AvlTree := (match rootPtr c with
    | some x => ({ t with numnodes := t.numnodes - 1 }.setParent x (t.parent d)).setChildIndex
        x (t.childIndex d)
    | none => { t with numnodes := t.numnodes - 1 }).linkChild (t.parent d)
      (t.childIndex d) (rootPtr c)
  refine ⟨T, t.childIndex d, ?_, hidx, ?_, ?_⟩
  · rw [← hpar]
    simp only [unlinkNode, if_neg hpos, onlyChild_eq hcd hnil, T]
  · simp only [T]
    rw [rep_plug]
    refine ⟨?_, ?_, ?_⟩
    · rcases hr : rootPtr c with _ | x
      · trivial
      · refine linkOK_of_same ?_ ?_ hlink <;> simp
    · refine (body_congr (fun a ha => ?_) (fun a ha => ?_)).2 hbc
      · have : t.parent d ≠ some a := fun h => hPc a h ha
        rcases hr : rootPtr c with _ | x <;> simp [AvlTree.linkChild_child, this]
      · have : rootPtr c ≠ some a := fun h => rootPtr_not_mem_below hndc h ha
        rcases hr : rootPtr c with _ | x
        · simp
        · have hxa : x ≠ a := fun h => this (hr.trans (congrArg some h))
          simp [Ne.symm hxa]
    · refine pathRep_linkChild ((pathRep_congr _ ?_ fun a ha => ?_).2 hpath) hndP _ _ hpar
        hidx _
      · rcases hr : rootPtr c with _ | x <;> rfl
      · have : rootPtr c ≠ some a := fun h => hcP a (mem_addrs_of_rootPtr h) ha
        rcases hr : rootPtr c with _ | x
        · simp
        · have hxa : x ≠ a := fun h => this (hr.trans (congrArg some h))
          simp [Ne.symm hxa]
  · simp only [T]
    rcases hr : rootPtr c with _ | x <;> simp

theorem whichChild_eq {t : AvlTree} {n : Nat} {L : Fin 2} (hnr : t.child n (1 - L) = none) :
    t.child n (if (t.child n 1).isSome then 1 else 0) = t.child n L := by
  rcases fin2_cases L with rfl | rfl
  · have h1 : t.child n 1 = none := hnr
    simp [h1]
  · have h0 : t.child n 0 = none := hnr
    rcases h : t.child n 1 with _ | c <;> simp [h, h0]

theorem removeSwap_spec {t : AvlTree} {d tmp n a0 b0 pn : Nat} {L : Fin 2}
    (hL : balance2child (t.balance d) = L) (ha0 : t.child d L = some a0)
    (hb0 : t.child d (1 - L) = some b0) (hdesc : descendLoop t (1 - L) t.numnodes a0 = some n)
    (hnr : t.child n (1 - L) = none) (hpn : t.parent n = some pn) (hpn0 : pn = d ↔ a0 = n)
    (htd : tmp ≠ d) (htn : tmp ≠ n) (hnd : n ≠ d) (hPn : t.parent d ≠ some n)
    (hPt : t.parent d ≠ some tmp) (hbt : b0 ≠ tmp) (hbn : b0 ≠ n) (hat : a0 ≠ tmp) (hpt : pn ≠ tmp)
    (hpnn : pn ≠ n) (hWn : a0 = n → t.childIndex n = L)
    (hcn : ∀ c, t.child n L = some c →
      c ≠ b0 ∧ c ≠ tmp ∧ c ≠ n ∧ c ≠ d ∧ c ≠ a0 ∧ c ≠ pn ∧ t.parent d ≠ some c)
    (ha0d : a0 ≠ d) (hab : a0 ≠ b0) (hbd : b0 ≠ d) (hPp : t.parent d ≠ some pn) :
    ∃ t', removeSwap t d tmp = some t' ∧
      t'.root = (if t.parent d = none then some n else t.root) ∧ t'.numnodes = t.numnodes ∧
      (∀ x i, t'.child x i =
        if x = tmp then t.child n i
        else if x = (if a0 = n then n else pn) ∧ i = t.childIndex n then some tmp
        else if t.parent d = some x ∧ i = t.childIndex d then some n
        else if x = n then t.child d i else t.child x i) ∧
      (∀ x, t'.parent x =
        if t.child n L = some x then some tmp
        else if x = b0 ∨ x = (if a0 = n then tmp else a0) then some n
        else if x = n then t.parent d
        else if x = tmp then some pn else t.parent x) ∧
      (∀ x, t'.childIndex x =
        if x = n then t.childIndex d else if x = tmp then t.childIndex n else t.childIndex x) ∧
      (∀ x, t'.balance x =
        if x = n then t.balance d else if x = tmp then t.balance n else t.balance x) := by
  have hs1 : (t.child d L).bind (descendLoop t (1 - L) t.numnodes) = some n := by
    rw [ha0]; exact hdesc
  -- tmp hangs below n when n is delete's own child, else below n's old parent
  rcases hc : t.child n L with _ | c <;> by_cases h0 : a0 = n
  all_goals
    try (subst h0; obtain rfl : pn = d := hpn0.2 rfl; replace hWn := hWn rfl)
    refine ⟨?_, ?_, ?_⟩
    on_goal 2 =>
      simp [removeSwap, Function.update_apply, AvlTree.linkChild_child, Ne.symm hbt, Ne.symm htd,
        Ne.symm hat, Ne.symm hpt, one_sub_ne L, whichChild_eq hnr, *]
      rfl
    refine ⟨?_, ?_, ?_, ?_, ?_, ?_⟩
    all_goals clear hdesc hpn0 hs1 hL
    · simp
    · simp
    · intro x i
      simp only [AvlTree.writeChild_child, AvlTree.setParent_child, AvlTree.linkChild_child,
        AvlTree.copyNode_child, Function.update_apply]
      grind -ring
    · intro x
      simp only [AvlTree.writeChild_parent, AvlTree.setParent_parent, AvlTree.linkChild_parent,
        AvlTree.copyNode_parent, Function.update_apply]
      grind -ring
    · intro x
      simp only [AvlTree.writeChild_childIndex, AvlTree.setParent_childIndex,
        AvlTree.linkChild_childIndex, AvlTree.copyNode_childIndex, Function.update_apply]
      grind -ring
    · intro x
      simp only [AvlTree.writeChild_balance, AvlTree.setParent_balance, AvlTree.linkChild_balance,
        AvlTree.copyNode_balance, Function.update_apply]
      grind -ring

/-- The swap of avl.c:690-736 on the shape: the in-order neighbour `n` of `d`
(down once to the taller side, then as far as possible the other way) takes
`d`'s place, and the placeholder `tmp` takes `n`'s. -/
theorem removeSwap_rep {t : AvlTree} {fs : List (Frame (Nat × Int))} {d tmp : Nat} {b : Int}
    {A B : Shape} (hrep : Rep t (plug fs (mk (balance2child b) (d, b) A B)))
    (hnd : (addrs (plug fs (mk (balance2child b) (d, b) A B))).Nodup)
    (htmp : tmp ∉ addrs (plug fs (mk (balance2child b) (d, b) A B)))
    (hbal : Balanced (plug fs (mk (balance2child b) (d, b) A B))) (hA : A ≠ nil) (hB : B ≠ nil)
    (hsize : t.numnodes = (plug fs (mk (balance2child b) (d, b) A B)).numNodes) :
    ∃ gs n nb C t', A = plug gs (mk (balance2child b) (n, nb) C nil) ∧
      (∀ g ∈ gs, g.side = 1 - balance2child b) ∧ removeSwap t d tmp = some t' ∧
      Rep t' (plug fs (mk (balance2child b) (n, b)
        (plug gs (mk (balance2child b) (tmp, nb) C nil)) B)) ∧
      (addrs (plug fs (mk (balance2child b) (n, b)
        (plug gs (mk (balance2child b) (tmp, nb) C nil)) B))).Nodup ∧
      Balanced (plug fs (mk (balance2child b) (n, b)
        (plug gs (mk (balance2child b) (tmp, nb) C nil)) B)) ∧
      t'.numnodes = t.numnodes := by
  generalize hL : balance2child b = L at hrep hnd htmp hbal hsize ⊢
  obtain ⟨hlink, hbody, -⟩ := (rep_plug t fs _).1 hrep
  obtain ⟨hbald, hcA, hcB, hlA, hlB, hbA, -⟩ := (body_mk t L d b A B).1 hbody
  obtain ⟨a0, ha0⟩ := exists_rootPtr hA
  obtain ⟨b0, hb0⟩ := exists_rootPtr hB
  have hht : A.height ≤ t.numnodes := by
    have := height_le_numNodes A
    rw [hsize, numNodes_plug, numNodes_mk]
    omega
  -- the in-order neighbour n: down once to side L, then as far as possible to the other side
  obtain ⟨gs, n, nb, C, rfl, hgs, hdesc⟩ := descendLoop_spec hbA (1 - L) a0 ha0 t.numnodes hht
  rw [one_sub_one_sub] at hrep hnd htmp hbal hsize hbody hcA hlA hbA hA ha0 ⊢
  refine ⟨gs, n, nb, C, ?_⟩
  have hsplit : plug fs (mk L (d, b) (plug gs (mk L (n, nb) C nil)) B) =
      plug (gs ++ ⟨L, (d, b), B⟩ :: fs) (mk L (n, nb) C nil) := by
    rw [plug_append]; rfl
  obtain ⟨hlinkN, hbodyN, -⟩ := (rep_plug t _ _).1 (hsplit ▸ hrep)
  obtain ⟨-, hcC, hcnil, hlC, -, -, -⟩ := (body_mk t L n nb C nil).1 hbodyN
  rw [rootPtr_nil] at hcnil
  -- distinct addresses, and where each lies
  obtain ⟨hndS, -, hdfs⟩ := (nodup_plug fs _).1 hnd
  obtain ⟨hndA, -, hdA, hdB, hAB⟩ := (nodup_mk L d b _ B).1 hndS
  obtain ⟨hndX, -, hXgs⟩ := (nodup_plug gs _).1 hndA
  obtain ⟨-, -, hnC, -, -⟩ := (nodup_mk L n nb C nil).1 hndX
  have inS : ∀ z, z ∈ addrs (mk L (d, b) (plug gs (mk L (n, nb) C nil)) B) ∨ z ∈ pathAddrs fs →
      z ∈ addrs (plug fs (mk L (d, b) (plug gs (mk L (n, nb) C nil)) B)) :=
    fun z h => mem_addrs_plug.2 h
  have inD : ∀ z, z = d ∨ z ∈ addrs (plug gs (mk L (n, nb) C nil)) ∨ z ∈ addrs B →
      z ∈ addrs (mk L (d, b) (plug gs (mk L (n, nb) C nil)) B) :=
    fun z h => (mem_addrs_mk L d b _ B z).2 h
  have inA : ∀ z, z ∈ addrs (mk L (n, nb) C nil) ∨ z ∈ pathAddrs gs →
      z ∈ addrs (plug gs (mk L (n, nb) C nil)) := fun z h => mem_addrs_plug.2 h
  have inX : ∀ z, z = n ∨ z ∈ addrs C → z ∈ addrs (mk L (n, nb) C nil) :=
    fun z h => (mem_addrs_mk L n nb C nil z).2 (h.elim .inl fun h => .inr (.inl h))
  have ha0A := mem_addrs_of_rootPtr ha0
  have hb0B := mem_addrs_of_rootPtr hb0
  -- n hangs below pn: d itself when n is d's child, else a node of the descent
  obtain ⟨pn, hpn, hpnA, hWn⟩ : ∃ pn, t.parent n = some pn ∧
      (pn = d ∧ a0 = n ∨ pn ∈ pathAddrs gs ∧ a0 ∈ pathAddrs gs) ∧
      (a0 = n → t.childIndex n = L) := by
    rcases gs with _ | ⟨g, gs⟩
    · simp only [List.nil_append, up_cons, rootPtr_mk] at hlinkN
      have h0 : a0 = n := by simpa using ha0.symm
      exact ⟨d, hlinkN.1, .inl ⟨rfl, h0⟩, fun _ => hlinkN.2⟩
    · simp only [List.cons_append, up_cons, rootPtr_mk] at hlinkN
      have ha0g := rootPtr_plug_mem _ (List.cons_ne_nil g gs) ha0
      have hng : a0 ≠ n := fun h => hXgs n (inX n (.inl rfl)) (h ▸ ha0g)
      exact ⟨g.val.1, hlinkN.1, .inr ⟨mem_pathAddrs_cons.2 (.inl rfl), ha0g⟩,
        fun h => absurd h hng⟩
  rw [rootPtr_mk] at hlink
  have hPd : ∀ q, t.parent d = some q → q ∈ pathAddrs fs := fun q hq => parent_mem_pathAddrs hlink hq
  have hCn : ∀ c, t.child n L = some c → c ∈ addrs C := fun c hc => mem_addrs_of_rootPtr (hcC ▸ hc)
  have htd : tmp ≠ d := by grind -ring
  have htn : tmp ≠ n := by grind -ring
  have hnD : n ≠ d := by grind -ring
  have hPn : t.parent d ≠ some n := by grind -ring
  have hPt : t.parent d ≠ some tmp := by grind -ring
  have hbt : b0 ≠ tmp := by grind -ring
  have hbn : b0 ≠ n := by grind -ring
  have hat : a0 ≠ tmp := by grind -ring
  have hpt : pn ≠ tmp := by grind -ring
  have hpnn : pn ≠ n := by grind -ring
  have ha0d : a0 ≠ d := by grind -ring
  have hab : a0 ≠ b0 := by grind -ring
  have hbd : b0 ≠ d := by grind -ring
  have hPp : t.parent d ≠ some pn := by grind -ring
  have hpn0 : pn = d ↔ a0 = n := by grind -ring
  have hcn : ∀ c, t.child n L = some c →
      c ≠ b0 ∧ c ≠ tmp ∧ c ≠ n ∧ c ≠ d ∧ c ≠ a0 ∧ c ≠ pn ∧ t.parent d ≠ some c := by
    intro c hc
    have := hCn c hc
    grind -ring
  obtain ⟨t', hswap, hroot', hnum', hchild', hparent', hidx', hbal'⟩ :=
    removeSwap_spec (by rw [hbald, hL]) (hcA.trans ha0) (hcB.trans hb0) hdesc hcnil hpn hpn0 htd htn
      hnD hPn hPt hbt hbn hat hpt hpnn hWn hcn ha0d hab hbd hPp
  -- the new heap lays out the old tree renamed by d ↦ n, n ↦ tmp
  obtain ⟨σ, hσ⟩ : ∃ σ : Nat → Nat, ∀ a, σ a = if a = d then n else if a = n then tmp else a :=
    ⟨_, fun _ => rfl⟩
  have fix : ∀ a, a ≠ d → a ≠ n → σ a = a := fun a h1 h2 => by rw [hσ, if_neg h1, if_neg h2]
  have hσd : σ d = n := by rw [hσ, if_pos rfl]
  have hσn : σ n = tmp := by rw [hσ, if_neg hnD, if_pos rfl]
  have hCfix : renameShape σ C = C := renameShape_eq_self fun a ha => fix a (by grind -ring) (by grind -ring)
  have hBfix : renameShape σ B = B := renameShape_eq_self fun a ha => fix a (by grind -ring) (by grind -ring)
  have hshape : renameShape σ (plug fs (mk L (d, b) (plug gs (mk L (n, nb) C nil)) B)) =
      plug fs (mk L (n, b) (plug gs (mk L (tmp, nb) C nil)) B) := by
    rw [renameShape_plug _ fun a ha => fix a (by grind -ring) (by grind -ring), renameShape_mk, hσd,
      renameShape_plug _ fun a ha => fix a (by grind -ring) (by grind -ring), renameShape_mk, hσn,
      renameShape_nil, hCfix, hBfix]
  have hU1 : ∀ a ∈ addrs (plug fs (mk L (d, b) (plug gs (mk L (n, nb) C nil)) B)), ∀ i c, t.child a i = some c →
      t.parent c = some a ∧ t.childIndex c = i :=
    fun a ha i c hc => (body_child_parent hrep.2.2 ha hc).2
  have hU2 : ∀ a ∈ addrs (plug fs (mk L (d, b) (plug gs (mk L (n, nb) C nil)) B)), ∀ p, t.parent a = some p →
      t.child p (t.childIndex a) = some a := by
    intro a ha p hp
    obtain ⟨q, -, hq, hc⟩ := body_parent_child hrep.2.2 (mem_below_of_parent hrep ha (by simp [hp]))
    rw [hp, Option.some.injEq] at hq
    exact hq ▸ hc
  have hdS : d ∈ addrs (plug fs (mk L (d, b) (plug gs (mk L (n, nb) C nil)) B)) := inS d (.inl (inD d (.inl rfl)))
  have hnS : n ∈ addrs (plug fs (mk L (d, b) (plug gs (mk L (n, nb) C nil)) B)) := inS n (.inl (inD n (.inr (.inl (inA n (.inl (inX n (.inl rfl))))))))
  have hpa0 : t.parent a0 = some d ∧ t.childIndex a0 = L := hU1 d hdS L a0 (hcA.trans ha0)
  have hpb0 : t.parent b0 = some d ∧ t.childIndex b0 = 1 - L := hU1 d hdS (1 - L) b0 (hcB.trans hb0)
  have hpc : ∀ c, t.child n L = some c → t.parent c = some n ∧ t.childIndex c = L :=
    fun c hc => hU1 n hnS L c hc
  have hsubD : ∀ a ∈ addrs (plug fs (mk L (d, b) (plug gs (mk L (n, nb) C nil)) B)), t.parent a = some d → a = a0 ∨ a = b0 := by
    intro a ha hp
    have h := hU2 a ha d hp
    rcases eq_or_eq_one_sub (t.childIndex a) L with hi | hi
    · rw [hi, hcA.trans ha0] at h
      exact .inl (Option.some.inj h).symm
    · rw [hi, hcB.trans hb0] at h
      exact .inr (Option.some.inj h).symm
  have hsubN : ∀ a ∈ addrs (plug fs (mk L (d, b) (plug gs (mk L (n, nb) C nil)) B)), t.parent a = some n → t.child n L = some a := by
    intro a ha hp
    have h := hU2 a ha n hp
    -- n has no child on the far side
    rcases eq_or_eq_one_sub (t.childIndex a) L with hi | hi
    · rwa [hi] at h
    · rw [hi, hcnil] at h
      cases h
  have hPfix : ∀ q, t.parent d = some q → q ≠ d ∧ q ≠ n := fun q hq => by grind -ring
  have hdA0 : t.child d L = some a0 := hcA.trans ha0
  have hdB0 : t.child d (1 - L) = some b0 := hcB.trans hb0
  have hroot : t'.root = t.root.map σ := by
    rw [hroot', hrep.1]
    rcases fs with _ | ⟨f, fs⟩
    · have hPd0 : t.parent d = none := hlink
      rw [if_pos hPd0, plug_nil, rootPtr_mk, Option.map_some, hσd]
    · rw [if_neg (by rw [hlink.1]; simp)]
      rcases hr : rootPtr (plug (f :: fs) (mk L (d, b) (plug gs (mk L (n, nb) C nil)) B)) with _ | r
      · rfl
      · have hrf := rootPtr_plug_mem _ (List.cons_ne_nil f fs) hr
        rw [Option.map_some, fix r (fun h => hdfs d (inD d (.inl rfl)) (h ▸ hrf))
          (fun h => hdfs n (inD n (.inr (.inl (inA n (.inl (inX n (.inl rfl))))))) (h ▸ hrf))]
  -- parent links: d's now sit on n, n's on tmp; the children of d and n point at their new places
  have hpar : ∀ a ∈ addrs (plug fs (mk L (d, b) (plug gs (mk L (n, nb) C nil)) B)), t'.parent (σ a) = (t.parent a).map σ ∧
      t'.childIndex (σ a) = t.childIndex a := by
    intro a ha
    have haT : a ≠ tmp := fun h => htmp (h ▸ ha)
    by_cases h1 : a = d
    · rw [h1, hσd]
      refine ⟨?_, by rw [hidx', if_pos rfl]⟩
      have hx : ¬(n = b0 ∨ n = if a0 = n then tmp else a0) := by
        rintro (h | h)
        · exact hbn h.symm
        · split_ifs at h with h0
          exacts [htn h.symm, h0 h.symm]
      rw [hparent', if_neg (fun h => (hcn n h).2.2.1 rfl), if_neg hx, if_pos rfl]
      rcases hq : t.parent d with _ | q
      · rfl
      · obtain ⟨hq1, hq2⟩ := hPfix q hq
        rw [Option.map_some, fix q hq1 hq2]
    by_cases h2 : a = n
    · rw [h2, hσn]
      refine ⟨?_, by rw [hidx', if_neg htn, if_pos rfl]⟩
      rw [hparent', if_neg (fun h => (hcn tmp h).2.1 rfl), hpn, Option.map_some]
      by_cases h0 : a0 = n
      · rw [if_pos (.inr (if_pos h0).symm), hpn0.2 h0, hσd]
      · have hx : ¬(tmp = b0 ∨ tmp = if a0 = n then tmp else a0) := by
          rw [if_neg h0]
          rintro (h | h)
          exacts [hbt h.symm, hat h.symm]
        rw [if_neg hx, if_neg htn, if_pos rfl, fix pn (fun h => h0 (hpn0.1 h)) hpnn]
    rw [fix a h1 h2]
    refine ⟨?_, by rw [hidx', if_neg h2, if_neg haT]⟩
    rw [hparent']
    by_cases hc : t.child n L = some a
    · rw [if_pos hc, (hpc a hc).1, Option.map_some, hσn]
    rw [if_neg hc]
    by_cases hb : a = b0 ∨ a = if a0 = n then tmp else a0
    · have hpd : t.parent a = some d := by
        rcases hb with rfl | hb
        · exact hpb0.1
        · split_ifs at hb with h0
          exacts [absurd hb haT, hb ▸ hpa0.1]
      rw [if_pos hb, hpd, Option.map_some, hσd]
    rw [if_neg hb, if_neg h2, if_neg haT]
    rcases hp : t.parent a with _ | p
    · rfl
    · have hpd : p ≠ d := by
        rintro rfl
        rcases hsubD a ha hp with h | h
        · by_cases h0 : a0 = n
          exacts [h2 (h.trans h0), hb (.inr (by rw [if_neg h0]; exact h))]
        · exact hb (.inl h)
      have hpn' : p ≠ n := by
        rintro rfl
        exact hc (hsubN a ha hp)
      rw [Option.map_some, fix p hpd hpn']
  have hchd : ∀ a ∈ addrs (plug fs (mk L (d, b) (plug gs (mk L (n, nb) C nil)) B)), ∀ i, t'.child (σ a) i = (t.child a i).map σ := by
    intro a ha i
    have haT : a ≠ tmp := fun h => htmp (h ▸ ha)
    by_cases h1 : a = d
    · rw [h1, hσd, hchild', if_neg (Ne.symm htn)]
      by_cases h0 : a0 = n
      · rcases eq_or_eq_one_sub i L with rfl | rfl
        · rw [if_pos ⟨by rw [if_pos h0], by rw [hWn h0]⟩, hdA0, Option.map_some, h0, hσn]
        · rw [if_neg (fun h => one_sub_ne L (h.2.trans (hWn h0))), if_neg (fun h => hPn h.1),
            if_pos rfl, hdB0, Option.map_some, fix b0 hbd hbn]
      · rw [if_neg (fun h => hpnn (by rw [if_neg h0] at h; exact h.1.symm)),
          if_neg (fun h => hPn h.1), if_pos rfl]
        rcases eq_or_eq_one_sub i L with rfl | rfl
        · rw [hdA0, Option.map_some, fix a0 ha0d h0]
        · rw [hdB0, Option.map_some, fix b0 hbd hbn]
    by_cases h2 : a = n
    · rw [h2, hσn, hchild', if_pos rfl]
      rcases hc : t.child n i with _ | c
      · rfl
      · rcases eq_or_eq_one_sub i L with rfl | rfl
        · obtain ⟨-, -, hcn', hcd, -⟩ := hcn c hc
          rw [Option.map_some, fix c hcd hcn']
        · rw [hcnil] at hc
          cases hc
    rw [fix a h1 h2, hchild', if_neg haT]
    by_cases hA1 : a = (if a0 = n then n else pn) ∧ i = t.childIndex n
    · have h0 : a0 ≠ n := fun h0 => h2 (by rw [if_pos h0] at hA1; exact hA1.1)
      rw [if_neg h0] at hA1
      obtain ⟨rfl, rfl⟩ := hA1
      rw [if_pos ⟨by rw [if_neg h0], rfl⟩, hU2 n hnS a hpn, Option.map_some, hσn]
    rw [if_neg hA1]
    by_cases hA2 : t.parent d = some a ∧ i = t.childIndex d
    · obtain ⟨hA2, rfl⟩ := hA2
      rw [if_pos ⟨hA2, rfl⟩, hU2 d hdS a hA2, Option.map_some, hσd]
    rw [if_neg hA2, if_neg h2]
    rcases hc : t.child a i with _ | c
    · rfl
    · obtain ⟨hpc', hic⟩ := hU1 a ha i c hc
      have hcd : c ≠ d := by
        rintro rfl
        exact hA2 ⟨hpc', hic.symm⟩
      have hcn' : c ≠ n := by
        intro hcn0
        rw [hcn0] at hpc' hic
        have hapn : a = pn := Option.some.inj (hpc'.symm.trans hpn)
        by_cases h0 : a0 = n
        · exact h1 (hapn.trans (hpn0.2 h0))
        · exact hA1 ⟨by rw [if_neg h0]; exact hapn, hic.symm⟩
      rw [Option.map_some, fix c hcd hcn']
  have hbl : ∀ a ∈ addrs (plug fs (mk L (d, b) (plug gs (mk L (n, nb) C nil)) B)), t'.balance (σ a) = t.balance a := by
    intro a ha
    rw [hbal']
    grind -ring
  -- σ is one-to-one on the tree, as tmp is not in it
  have hinj : ∀ x ∈ addrs (plug fs (mk L (d, b) (plug gs (mk L (n, nb) C nil)) B)),
      ∀ y ∈ addrs (plug fs (mk L (d, b) (plug gs (mk L (n, nb) C nil)) B)), σ x = σ y → x = y := by
    intro x hx y hy h
    have hxT : x ≠ tmp := fun h => htmp (h ▸ hx)
    have hyT : y ≠ tmp := fun h => htmp (h ▸ hy)
    rw [hσ, hσ] at h
    split_ifs at h <;> omega
  refine ⟨t', rfl, hgs, hswap, ?_, hshape ▸ nodup_renameShape hinj hnd,
    hshape ▸ (balanced_renameShape σ _).2 hbal, hnum'⟩
  rw [← hshape]
  exact rep_renameShape hroot (fun r hr => (hpar r (mem_addrs_of_rootPtr hr)).1) hchd hbl
    (fun a ha => hpar a (mem_addrs_of_mem_below ha)) hrep

/-- The second half of `avl_remove` (avl.c:739-807): a node with at most one
child is unlinked and the path above it retraced. -/
theorem unlinkRetrace_rep {t : AvlTree} {hs : List (Frame (Nat × Int))} {i : Fin 2} {d : Nat}
    {b : Int} {c : Shape} (hrep : Rep t (plug hs (mk i (d, b) c nil)))
    (hnd : (addrs (plug hs (mk i (d, b) c nil))).Nodup) (hbal : Balanced (plug hs (mk i (d, b) c nil)))
    (hsize : t.numnodes = (plug hs (mk i (d, b) c nil)).numNodes) :
    ∃ t₂ p w t₃, unlinkNode t d = some (t₂, p, w) ∧ removeLoop t₂ (t₂.numnodes + 1) p w = some t₃ ∧
      Rep t₃ (removeFix hs c) ∧ t₃.numnodes = t.numnodes - 1 := by
  have hpos : t.numnodes ≠ 0 := by
    rw [hsize, numNodes_plug, numNodes_mk]
    omega
  obtain ⟨t₂, w, hun, hw, hrep₂, hnum₂⟩ := unlinkNode_rep hrep hnd hpos
  -- what is left of the tree: the child in the unlinked node's place
  have hnd₂ : (addrs (plug hs c)).Nodup := by
    obtain ⟨hndm, hndp, hdisj⟩ := (nodup_plug _ _).1 hnd
    obtain ⟨hndc, -, -, -, -⟩ := (nodup_mk _ _ _ _ _).1 hndm
    exact (nodup_plug _ _).2 ⟨hndc, hndp, fun z hz => hdisj z ((mem_addrs_mk _ _ _ _ _ _).2
      (.inr (.inl hz)))⟩
  have hfuel : hs.length < t₂.numnodes + 1 := by
    have h1 := length_add_numNodes_le hs c
    have h2 : (plug hs (mk i (d, b) c nil)).numNodes = (plug hs c).numNodes + 1 := by
      simp only [numNodes_plug, numNodes_mk, numNodes]
      omega
    omega
  have hrange := pathBalanced_range ((balanced_plug _ _).1 hbal).2
  obtain ⟨t₃, hloop, hrep₃, hnum₃⟩ := removeLoop_rep hrep₂ hnd₂ hrange w hw _ hfuel
  exact ⟨t₂, _, w, t₃, hun, hloop, hrep₃, hnum₃.trans hnum₂⟩

/-- `avl_remove` of a member of the tree: its node goes, through the swap with
its in-order neighbour when it has two children, and the tree is rebalanced.
`tmp` is the stack temporary of avl.c:712, at an address no tree node has. -/
theorem avlRemove_rep {t : AvlTree} {s : Shape} {data tmp : Nat} (hrep : Rep t s)
    (hnd : (addrs s).Nodup) (hbal : Balanced s) (hsize : t.numnodes = s.numNodes)
    (hmem : data ∈ addrs s) (htmp : tmp ∉ addrs s) :
    ∃ t' s', avlRemove t data tmp = some t' ∧ Rep t' s' ∧ addrs s' = (addrs s).erase data ∧
      Balanced s' ∧ t'.numnodes = t.numnodes - 1 := by
  obtain ⟨⟨data, b⟩, hp, rfl⟩ := List.mem_map.1 hmem
  obtain ⟨fs, l, r, rfl⟩ := exists_plug_of_mem hp
  have hbody := ((rep_plug _ _ _).1 hrep).2.1
  obtain ⟨-, hl, hr, -⟩ := hbody
  obtain ⟨hndS, hndP, hdisj⟩ := (nodup_plug _ _).1 hnd
  have hdP : data ∉ (leftCtx fs).map Prod.fst := fun h =>
    hdisj data (by simp) (by simp [pathAddrs, h])
  by_cases hlr : l ≠ nil ∧ r ≠ nil
  · -- two children: swap with the in-order neighbour on the taller side
    obtain ⟨a, ha⟩ := exists_rootPtr hlr.1
    obtain ⟨c, hc⟩ := exists_rootPtr hlr.2
    have hsw : ((t.child data 0).isSome && (t.child data 1).isSome) = true := by
      rw [hl, hr, ha, hc]; rfl
    rw [node_eq_mk (balance2child b)] at hrep hnd hbal hsize htmp hndS ⊢
    generalize hA : (node (data, b) l r).child (balance2child b) = A at *
    generalize hB : (node (data, b) l r).child (1 - balance2child b) = B at *
    have hAB : A ≠ nil ∧ B ≠ nil := by
      rw [← hA, ← hB]
      rcases fin2_cases (balance2child b) with h | h <;> rw [h] <;> simp [hlr.1, hlr.2]
    obtain ⟨gs, n, nb, C, t₁, rfl, hgs, hswap, hrep₁, hnd₁, hbal₁, hnum₁⟩ :=
      removeSwap_rep hrep hnd htmp hbal hAB.1 hAB.2 hsize
    obtain ⟨-, -, hdA, hdB, -⟩ := (nodup_mk _ _ _ _ _).1 hndS
    have hsplit : plug fs (mk (balance2child b) (n, b)
        (plug gs (mk (balance2child b) (tmp, nb) C nil)) B) =
        plug (gs ++ ⟨balance2child b, (n, b), B⟩ :: fs) (mk (balance2child b) (tmp, nb) C nil) := by
      rw [plug_append]; rfl
    have hsize₁ : t₁.numnodes = (plug (gs ++ ⟨balance2child b, (n, b), B⟩ :: fs)
        (mk (balance2child b) (tmp, nb) C nil)).numNodes := by
      rw [hnum₁, hsize, ← hsplit]
      simp only [numNodes_plug, numNodes_mk]
    rw [hsplit] at hrep₁ hnd₁ hbal₁
    obtain ⟨t₂, p, w, t₃, hun, hloop, hrep₃, hnum₃⟩ := unlinkRetrace_rep hrep₁ hnd₁ hbal₁ hsize₁
    refine ⟨t₃, _, by simp [avlRemove, hsw, hswap, hun, hloop], hrep₃, ?_,
      balanced_removeFix_of_plug hbal₁, by rw [hnum₃, hnum₁]⟩
    rw [addrs_removeFix, plug_append]
    exact (erase_addrs_plug (by simp [mem_addrs_mk]) hdP (erase_addrs_swap hgs hdA hdB)).symm
  · -- at most one child: unlink the node itself
    have hsw : ((t.child data 0).isSome && (t.child data 1).isSome) = false := by
      rw [hl, hr]
      rcases not_and_or.1 hlr with h | h <;> rw [not_not] at h <;> simp [h]
    obtain ⟨i, c, hic⟩ : ∃ i c, node (data, b) l r = mk i (data, b) c nil := by
      by_cases hr0 : r = nil
      · exact ⟨0, l, by rw [hr0]; rfl⟩
      · have hl0 : l = nil := by
          by_contra h
          exact hlr ⟨h, hr0⟩
        exact ⟨1, r, by rw [hl0]; rfl⟩
    rw [hic] at hrep hnd hbal hsize hndS
    obtain ⟨-, -, hdc, -, -⟩ := (nodup_mk _ _ _ _ _).1 hndS
    obtain ⟨t₂, p, w, t₃, hun, hloop, hrep₃, hnum₃⟩ := unlinkRetrace_rep hrep hnd hbal hsize
    refine ⟨t₃, removeFix fs c, by simp [avlRemove, hsw, hun, hloop], hrep₃, ?_,
      balanced_removeFix_of_plug hbal, hnum₃⟩
    rw [addrs_removeFix, hic]
    exact (erase_addrs_plug (by simp [mem_addrs_mk]) hdP (erase_addrs_mk_nil i data b c hdc)).symm

end ZfsOsx.Avl
