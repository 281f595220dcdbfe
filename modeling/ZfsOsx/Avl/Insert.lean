import ZfsOsx.Avl.Rotation
import ZfsOsx.Avl.Search

/-!
# `avl_insert`, `avl_add` and `avl_insert_here`

`avl_insert` hangs the new element as a leaf at the insertion point and then
retraces: each ancestor's balance moves towards the side that grew, until one
comes back to 0 or needs a rotation. On shapes that is `insertFix`
(`Avl/Shape.lean`). `avl_add` is `avl_find` followed by `avl_insert` where the
failed search stopped; `avl_insert_here` reaches its insertion point by
walking from `here` to its neighbour.

* `insertLoop_rep`: the pointer retrace does the steps of `insertFix`.
* `avlInsert_rep`: `avl_insert` at the end of a path lays out `insertFix` of
  the path with the new leaf, and counts one more node.
* `avlAdd_rep`, `avlInsertHere_rep`: the two callers find such a path.
-/
namespace ZfsOsx.Avl

/-- The first half of `avl_insert`: `node` becomes a leaf below `parent`, at
`whichChild` (or the root when `parent` is NULL).
mirrors module/avl/avl.c:487-504 -/
def insertLeaf (t : AvlTree) (node : Nat) (parent : Option Nat) (whichChild : Fin 2) : AvlTree :=
  let t := { t with numnodes := t.numnodes + 1 }
  let t := (t.writeChild node 0 none).writeChild node 1 none
  let t := ((t.setChildIndex node whichChild).setBalance node 0).setParent node parent
  t.linkChild parent whichChild (some node)

/-- The retrace loop of `avl_insert`, from `node = parent`; `whichChild` is the
side of `node` that grew.
mirrors module/avl/avl.c:505-545 -/
def insertLoop : AvlTree → Nat → Option Nat → Fin 2 → Option AvlTree
  | _, 0, _, _ => none
  | t, _ + 1, none, _ => some t
  | t, fuel + 1, some node, whichChild =>
    let oldBalance := t.balance node
    let newBalance := oldBalance + child2balance whichChild
    if newBalance = 0 then some (t.setBalance node 0)
    else if oldBalance ≠ 0 then some (avlRotation t node newBalance).1
    else
      let t := t.setBalance node newBalance
      insertLoop t fuel (t.parent node) (t.childIndex node)

/-- `avl_insert(tree, new_data, where)`. The retrace loop climbs at most to
the root; its fuel, one more than the number of nodes, is the model's.
mirrors module/avl/avl.c:469-545 -/
def avlInsert (t : AvlTree) (newData : Nat) (where_ : AvlIndex) : Option AvlTree :=
  let t := insertLeaf t newData where_.1 where_.2
  insertLoop t (t.numnodes + 1) where_.1 where_.2

/-- `avl_add(tree, new_node)`: the search must fail (the C panics when it does
not, `none` here) and the node goes where it stopped.
mirrors module/avl/avl.c:619-637 -/
def avlAdd (compar : Nat → Nat → Ordering) (t : AvlTree) (newNode : Nat) : Option AvlTree :=
  match avlFind compar t newNode with
  | some (.notFound where_) => avlInsert t newNode where_
  | _ => none

/-- `avl_insert_here(tree, new_data, here, direction)`: the insertion point is
`here`'s `direction` child when that is empty, otherwise the far end, in the
other direction, of the subtree there.
mirrors module/avl/avl.c:559-614 -/
def avlInsertHere (t : AvlTree) (newData here : Nat) (direction : Fin 2) : Option AvlTree :=
  let child := direction
  match t.child here child with
  | none => avlInsert t newData (some here, child)
  | some node =>
    let child := 1 - child
    match descendLoop t child t.numnodes node with
    | some node => avlInsert t newData (some node, child)
    | none => none

open BinaryTree

theorem indexOf_fst (fs : List (Frame (Nat × Int))) : (indexOf fs).1 = (up fs).map Prod.fst := by
  cases fs <;> rfl

theorem indexOf_snd (fs : List (Frame (Nat × Int))) :
    ∀ u, up fs = some u → (indexOf fs).2 = u.2 := by
  cases fs with
  | nil => intro u h; cases h
  | cons f fs => intro u h; cases h; rfl

/-- The new leaf at the end of the path: its links are those of a leaf hanging
at the path's insertion point, and the link above now points at it. -/
theorem rep_insertLeaf {t : AvlTree} {fs : List (Frame (Nat × Int))} {n : Nat}
    (hrep : Rep t (plug fs nil)) (hnd : (pathAddrs fs).Nodup) (hn : n ∉ pathAddrs fs) :
    Rep (insertLeaf t n (indexOf fs).1 (indexOf fs).2) (plug fs (node (n, 0) nil nil)) := by
  rw [rep_plug] at hrep ⊢
  obtain ⟨-, -, hpath⟩ := hrep
  have hq : ∀ q, (indexOf fs).1 = some q → q ≠ n := by
    intro q hq h
    subst h
    rw [indexOf_fst] at hq
    obtain ⟨⟨q', i⟩, hu, rfl⟩ := Option.map_eq_some_iff.1 hq
    exact hn (up_mem_pathAddrs hu)
  have hqn : (indexOf fs).1 ≠ some n := fun h => hq n h rfl
  refine ⟨?_, ?_, ?_⟩
  · cases fs with
    | nil => simp [LinkOK, insertLeaf, indexOf]
    | cons f fs => simp [LinkOK, insertLeaf, indexOf]
  · simp [Body, insertLeaf, AvlTree.linkChild_child, hqn]
  · simp only [insertLeaf]
    refine pathRep_linkChild ((pathRep_congr _ (by simp) fun a ha => ?_).2 hpath) hnd _ _
      (indexOf_fst fs) (indexOf_snd fs) _
    have : a ≠ n := fun h => hn (h ▸ ha)
    simp [this]

/-- The retrace loop of `avl_insert` simulates `insertFix`: from a heap that
lays out the path `fs` above the grown subtree `s`, with enough fuel, it ends
in a heap that lays out `insertFix fs s`. The balances stored on the path lie
in `{-1, 0, 1}`, so a rotation only happens at `±2`. -/
theorem insertLoop_rep {fs : List (Frame (Nat × Int))} :
    ∀ {t : AvlTree} {s : Shape}, Rep t (plug fs s) → (addrs (plug fs s)).Nodup →
      (∀ f ∈ fs, -1 ≤ f.val.2 ∧ f.val.2 ≤ 1) → ∀ (w : Fin 2), (∀ u, up fs = some u → w = u.2) →
      ∀ fuel, fs.length < fuel →
      ∃ t', insertLoop t fuel ((up fs).map Prod.fst) w = some t' ∧
        Rep t' (insertFix fs s) ∧ t'.numnodes = t.numnodes := by
  induction fs with
  | nil =>
    intro t s hrep _ _ w _ fuel hf
    obtain ⟨k, rfl⟩ : ∃ k, fuel = k + 1 := ⟨fuel - 1, by simp at hf; omega⟩
    exact ⟨t, rfl, hrep, rfl⟩
  | cons f fs ih =>
    intro t s hrep hnd hb w hw fuel hf
    obtain ⟨side, ⟨a, b⟩, sib⟩ := f
    obtain ⟨k, rfl⟩ : ∃ k, fuel = k + 1 := ⟨fuel - 1, by omega⟩
    have hw' : w = side := hw _ rfl
    subst hw'
    have hpath := ((rep_plug _ _ _).1 hrep).2.2
    obtain ⟨hba, -, -, -, -, hlink, -⟩ := hpath
    obtain ⟨hb1, hb2⟩ := hb _ (List.mem_cons_self ..)
    simp only at hba hb1 hb2
    simp only [plug_cons] at hrep hnd
    simp only [up_cons, Option.map_some, insertLoop, hba, insertFix]
    by_cases h0 : b + child2balance w = 0
    · -- the ancestor is balanced again: stop
      rw [if_pos h0, if_pos h0]
      exact ⟨_, rfl, rep_setBalance hrep hnd 0, rfl⟩
    rw [if_neg h0, if_neg h0]
    by_cases hb0 : b ≠ 0
    · -- the ancestor already leaned that way: one rotation, and stop
      rw [if_pos hb0, if_pos hb0]
      have h2 : b + child2balance w = 2 * child2balance w := by
        rcases child2balance_cases w with hc | hc <;> rw [hc] at h0 ⊢ <;> omega
      rw [h2]
      obtain ⟨hr, -⟩ := avlRotation_rep hrep hnd
      exact ⟨_, rfl, hr, avlRotation_numnodes _ _ _⟩
    · -- the ancestor was balanced: it leans now, and the subtree above grew
      rw [if_neg hb0, if_neg hb0]
      have hrep' := rep_setBalance hrep hnd (b + child2balance w)
      have heq : addrs (mk w (a, b + child2balance w) s sib) = addrs (mk w (a, b) s sib) :=
        addrs_mk_congr w (by rfl) s sib
      have hnd' : (addrs (plug fs (mk w (a, b + child2balance w) s sib))).Nodup := by
        rwa [addrs_plug_congr fs heq]
      have hpar := parent_of_linkOK hlink
      have hidx := childIndex_of_linkOK hlink
      obtain ⟨t', ht', hrep'', hn⟩ := ih hrep' hnd' (fun g hg => hb g (List.mem_cons_of_mem _ hg))
        (t.childIndex a) (fun u hu => (hidx u hu)) k (by simpa using hf)
      refine ⟨t', ?_, hrep'', by simpa using hn⟩
      simpa [hpar] using ht'

/-- `avl_insert` at the insertion point of a path ending in an empty subtree,
with a node that is not in the tree yet. -/
theorem avlInsert_rep {t : AvlTree} {fs : List (Frame (Nat × Int))} {n : Nat}
    (hrep : Rep t (plug fs nil)) (hnd : (addrs (plug fs nil)).Nodup) (hn : n ∉ addrs (plug fs nil))
    (hb : ∀ f ∈ fs, -1 ≤ f.val.2 ∧ f.val.2 ≤ 1) (hsize : t.numnodes = (plug fs nil).numNodes) :
    ∃ t', avlInsert t n (indexOf fs) = some t' ∧ Rep t' (insertFix fs (node (n, 0) nil nil)) ∧
      t'.numnodes = t.numnodes + 1 := by
  rw [nodup_plug] at hnd
  obtain ⟨-, hndP, -⟩ := hnd
  have hnP : n ∉ pathAddrs fs := by
    rw [addrs_plug] at hn; simpa [pathAddrs] using hn
  have hleaf := rep_insertLeaf hrep hndP hnP
  have hnd' : (addrs (plug fs (node (n, 0) nil nil))).Nodup := by
    rw [nodup_plug]
    exact ⟨by simp, hndP, by simpa using hnP⟩
  have hlen := length_add_numNodes_le fs (nil : Shape)
  obtain ⟨t', ht', hrep', hnum⟩ := insertLoop_rep hleaf hnd' hb _ (indexOf_snd fs) _
    (show fs.length < (insertLeaf t n (indexOf fs).1 (indexOf fs).2).numnodes + 1 by
      simp [insertLeaf] at hlen ⊢; omega)
  refine ⟨t', ?_, hrep', by simpa [insertLeaf] using hnum⟩
  simpa [avlInsert, indexOf_fst] using ht'

/-- `avl_add` of a node that compares equal to no member: the search stops at
an empty subtree and the node goes in there. -/
theorem avlAdd_rep {compar : Nat → Nat → Ordering} {t : AvlTree} {s : Shape} {n : Nat}
    (hrep : Rep t s) (hnd : (addrs s).Nodup) (hbal : Balanced s) (hsize : t.numnodes = s.numNodes)
    (hn : n ∉ addrs s) (hne : ∀ a ∈ addrs s, compar n a ≠ .eq) :
    ∃ fs t', descend compar n [] s = (fs, nil) ∧ avlAdd compar t n = some t' ∧
      Rep t' (insertFix fs (node (n, 0) nil nil)) ∧ t'.numnodes = t.numnodes + 1 := by
  obtain ⟨fs, hd⟩ := descend_eq_nil hne []
  have hfind : avlFind compar t n = some (.notFound (indexOf fs)) := by
    rw [avlFind_eq hrep hsize, hd]; rfl
  have hplug : plug fs nil = s := by simpa [hd] using plug_descend compar n [] s
  subst hplug
  have hb := pathBalanced_range ((balanced_plug _ _).1 hbal).2
  obtain ⟨t', h1, h2, h3⟩ := avlInsert_rep hrep hnd hn hb hsize
  exact ⟨fs, t', hd, by simp [avlAdd, hfind, h1], h2, h3⟩

/-- `avl_insert_here` next to a node `here` of the tree: it inserts at the
end of a path that, plugged with an empty subtree, is the tree, and whose
in-order context puts the new node right after `here` (direction 1) or right
before it (direction 0). -/
theorem avlInsertHere_rep {t : AvlTree} {fs : List (Frame (Nat × Int))} {d : Fin 2} {here : Nat}
    {hb : Int} {X Y : Shape} {n : Nat}
    (hrep : Rep t (plug fs (mk d (here, hb) X Y))) (hnd : (addrs (plug fs (mk d (here, hb) X Y))).Nodup)
    (hbal : Balanced (plug fs (mk d (here, hb) X Y)))
    (hsize : t.numnodes = (plug fs (mk d (here, hb) X Y)).numNodes)
    (hn : n ∉ addrs (plug fs (mk d (here, hb) X Y))) :
    ∃ hs t', plug hs nil = plug fs (mk d (here, hb) X Y) ∧
      (d = 1 → ((leftCtx hs).map Prod.fst).getLast? = some here) ∧
      (d = 0 → ((rightCtx hs).map Prod.fst).head? = some here) ∧
      avlInsertHere t n here d = some t' ∧ Rep t' (insertFix hs (node (n, 0) nil nil)) ∧
      t'.numnodes = t.numnodes + 1 := by
  have hbody := ((rep_plug _ _ _).1 hrep).2.1
  rw [body_mk] at hbody
  obtain ⟨-, hX, -, -, -, hbX, -⟩ := hbody
  -- the insertion point, and why it is next to `here`
  obtain ⟨hs, hplug, hleft, hright, hidx⟩ : ∃ hs, plug hs nil = plug fs (mk d (here, hb) X Y) ∧
      (d = 1 → ((leftCtx hs).map Prod.fst).getLast? = some here) ∧
      (d = 0 → ((rightCtx hs).map Prod.fst).head? = some here) ∧
      avlInsertHere t n here d = avlInsert t n (indexOf hs) := by
    cases X with
    | nil =>
      refine ⟨⟨d, (here, hb), Y⟩ :: fs, rfl, ?_, ?_, by simp [avlInsertHere, hX, indexOf]⟩
      · rintro rfl; simp [leftCtx]
      · rintro rfl; simp [rightCtx]
    | node v xl xr =>
      obtain ⟨c, cb⟩ := v
      have hh : (node (c, cb) xl xr).height ≤ t.numnodes := by
        rw [hsize]
        refine (height_le_numNodes _).trans ?_
        have := length_add_numNodes_le fs (mk d (here, hb) (node (c, cb) xl xr) Y)
        simp only [numNodes_mk] at this; omega
      obtain ⟨gs, m, mb, x, hgs, hside, hdl⟩ := descendLoop_spec hbX (1 - d) c rfl _ hh
      rw [one_sub_one_sub] at hgs
      refine ⟨⟨1 - d, (m, mb), x⟩ :: (gs ++ ⟨d, (here, hb), Y⟩ :: fs), ?_, ?_, ?_, ?_⟩
      · rw [plug_cons, plug_append, hgs, mk_other]; rfl
      · rintro rfl
        simp only [leftCtx, leftCtx_append, leftCtx_eq_nil hside]
        simp
      · rintro rfl
        simp only [rightCtx, rightCtx_append, rightCtx_eq_nil hside]
        simp
      · simp [avlInsertHere, hX, hdl, indexOf]
  rw [← hplug] at hrep hnd hbal hsize hn
  have hb' := pathBalanced_range ((balanced_plug _ _).1 hbal).2
  obtain ⟨t', h1, h2, h3⟩ := avlInsert_rep hrep hnd hn hb' hsize
  exact ⟨hs, t', hplug, hleft, hright, hidx ▸ h1, h2, h3⟩

end ZfsOsx.Avl
