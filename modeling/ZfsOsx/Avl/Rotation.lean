import ZfsOsx.Avl.Heap

/-!
# `avl_rotation` on the heap

`avlRotation` is `avl_rotation` store by store. `avlRotation_rep`: run on a
heap that lays out `plug fs (mk L (n, nb) c s)`, with the new balance of `n`
leaning two levels towards `L`, it lays out `plug fs` of `rotateShape`'s
result and returns `rotateShape`'s flag. Every parent pointer and child index
the rotation moves is rewired, including the link from the parent of `node`
(or `avl_root`).
-/
namespace ZfsOsx.Avl

open BinaryTree

/-- Case 1 of `avl_rotation`: `child`, the `left` child of `node`, comes up
and `node` becomes its `right` child; `childBal` is `child`'s new balance.
mirrors module/avl/avl.c:334-370 -/
def rotateSingle (t : AvlTree) (node child : Nat) (left : Fin 2) (childBal : Int)
    (parent : Option Nat) (whichChild : Fin 2) : AvlTree :=
  let right : Fin 2 := 1 - left
  -- move `cright` to be node's left child
  let cright := t.child child right
  let t := (t.writeChild node left cright).adopt cright node left
  -- move node to be child's right child
  let t := t.writeChild child right (some node)
  let t := ((t.setBalance node (-childBal)).setChildIndex node right).setParent node (some child)
  -- update the pointer into this subtree
  let t := ((t.setBalance child childBal).setChildIndex child whichChild).setParent child parent
  t.linkChild parent whichChild (some child)

/-- Case 2 of `avl_rotation`: `gchild`, the `right` child of `child`, comes
up with `child` and `node` as its children; `balance` is `gchild`'s balance
and `leftHeavy` the sign of the `left` side.
mirrors module/avl/avl.c:404-453 -/
def rotateDouble (t : AvlTree) (node child gchild : Nat) (left : Fin 2) (leftHeavy : Int)
    (parent : Option Nat) (whichChild : Fin 2) : AvlTree :=
  let right : Fin 2 := 1 - left
  let rightHeavy := -leftHeavy
  let gleft := t.child gchild left
  let gright := t.child gchild right
  -- move gright to left child of node and gleft to right child of node
  let t := (t.writeChild node left gright).adopt gright node left
  let t := (t.writeChild child right gleft).adopt gleft child right
  -- move child to left child of gchild and node to right child of gchild
  let balance := t.balance gchild
  let t := t.writeChild gchild left (some child)
  let t := ((t.setBalance child (if balance = rightHeavy then leftHeavy else 0)).setParent
    child (some gchild)).setChildIndex child left
  let t := t.writeChild gchild right (some node)
  let t := ((t.setBalance node (if balance = leftHeavy then rightHeavy else 0)).setParent
    node (some gchild)).setChildIndex node right
  -- fixup parent of all this to point to gchild
  let t := ((t.setBalance gchild 0).setParent gchild parent).setChildIndex gchild whichChild
  t.linkChild parent whichChild (some gchild)

/-- mirrors module/avl/avl.c:290-456 (`avl_rotation`). The `none` branches
are the NULL dereferences of `child` and `gchild`, which the balance rules
out. -/
def avlRotation (t : AvlTree) (node : Nat) (balance : Int) : AvlTree × Bool :=
  let left : Fin 2 := if balance < 0 then 0 else 1
  let right : Fin 2 := 1 - left
  -- `balance >> 1`
  let leftHeavy : Int := balance / 2
  let rightHeavy : Int := -leftHeavy
  let parent := t.parent node
  match t.child node left with
  | none => (t, false)
  | some child =>
    let whichChild := t.childIndex node
    let childBal := t.balance child
    if childBal ≠ rightHeavy then
      let childBal := childBal + rightHeavy
      (rotateSingle t node child left childBal parent whichChild, childBal == 0)
    else
      match t.child child right with
      | none => (t, false)
      | some gchild => (rotateDouble t node child gchild left leftHeavy parent whichChild, true)

@[simp] theorem avlRotation_numnodes (t : AvlTree) (node : Nat) (balance : Int) :
    (avlRotation t node balance).1.numnodes = t.numnodes := by
  simp only [avlRotation]
  split
  · rfl
  · split
    · simp [rotateSingle]
    · split <;> simp [rotateDouble]

theorem rotation_left (L : Fin 2) : (if 2 * child2balance L < 0 then (0 : Fin 2) else 1) = L := by
  rcases fin2_cases L with rfl | rfl <;> rfl

theorem rotation_leftHeavy (L : Fin 2) : 2 * child2balance L / 2 = child2balance L := by
  rcases fin2_cases L with rfl | rfl <;> rfl

/-! ## The rotations lay out the rotated shapes -/

/-- Case 1 rewires `node`, `child`, the root of `child`'s `right` subtree and the
link from above; every other node keeps its links. -/
theorem rotateSingle_rep {t : AvlTree} {fs : List (Frame (Nat × Int))} {L : Fin 2} {n c : Nat}
    {nb cb cb' : Int} {x y s : Shape}
    (hrep : Rep t (plug fs (mk L (n, nb) (mk L (c, cb) x y) s)))
    (hnd : (addrs (plug fs (mk L (n, nb) (mk L (c, cb) x y) s))).Nodup) :
    Rep (rotateSingle t n c L cb' (t.parent n) (t.childIndex n))
      (plug fs (mk L (c, cb') x (mk L (n, -cb') y s))) := by
  rw [rep_plug] at hrep
  obtain ⟨hlink, hbody, hpath⟩ := hrep
  rw [nodup_plug] at hnd
  obtain ⟨hndS, hndP, hdisj⟩ := hnd
  simp only [mem_addrs_mk] at hdisj
  rw [body_mk, body_mk] at hbody
  obtain ⟨hbn, hcn, hsn, hlc, hls, ⟨hbc, hxc, hyc, hlx, hly, hbx, hby⟩, hbs⟩ := hbody
  rw [nodup_mk, nodup_mk] at hndS
  obtain ⟨⟨hndx, hndy, hcx, hcy, hxy⟩, hnds, hnc, hns, hcs⟩ := hndS
  simp only [mem_addrs_mk, not_or] at hnc hcs
  simp only [rootPtr_mk] at hcn hlink hpath hlc
  obtain ⟨hnc, hnx, hny⟩ := hnc
  have hLL := one_sub_ne L
  -- the parent of `n` is on the path, away from the subtree
  have hpar : ∀ q, t.parent n = some q → q ≠ n ∧ q ≠ c ∧ q ∉ addrs x ∧ q ∉ addrs y ∧ q ∉ addrs s := by
    intro q hq
    have hm := parent_mem_pathAddrs hlink hq
    refine ⟨?_, ?_, ?_, ?_, ?_⟩ <;> intro h
    · exact hdisj q (.inl h) hm
    · exact hdisj q (.inr (.inl (.inl h))) hm
    · exact hdisj q (.inr (.inl (.inr (.inl h)))) hm
    · exact hdisj q (.inr (.inl (.inr (.inr h)))) hm
    · exact hdisj q (.inr (.inr h)) hm
  -- the root of `y`, the only node below `c` whose parent changes
  have hyr : ∀ r, rootPtr y = some r → r ≠ n ∧ r ≠ c ∧ r ∉ addrs x ∧ r ∉ addrs s ∧ r ∉ below y := by
    intro r hr
    have hm := mem_addrs_of_rootPtr hr
    exact ⟨fun h => hny (h ▸ hm), fun h => hcy (h ▸ hm), fun h => hxy r h hm,
      fun h => hcs r (.inr (.inr hm)) h, rootPtr_not_mem_below hndy hr⟩
  -- away from `n`, `c` and the parent link, no child pointer or balance changes
  have hagCB : ∀ a, a ≠ n → a ≠ c → t.parent n ≠ some a →
      (rotateSingle t n c L cb' (t.parent n) (t.childIndex n)).child a = t.child a ∧
      (rotateSingle t n c L cb' (t.parent n) (t.childIndex n)).balance a = t.balance a := by
    intro a h1 h2 h3
    simp [rotateSingle, AvlTree.linkChild_child, Function.update_apply, h1, h2, h3]
  -- away from `n`, `c` and the root of `y`, no parent link changes
  have hagPI : ∀ a, a ≠ n → a ≠ c → rootPtr y ≠ some a →
      (rotateSingle t n c L cb' (t.parent n) (t.childIndex n)).parent a = t.parent a ∧
      (rotateSingle t n c L cb' (t.parent n) (t.childIndex n)).childIndex a = t.childIndex a := by
    intro a h1 h2 h4
    simp [rotateSingle, hyc, AvlTree.adopt_parent, AvlTree.adopt_childIndex, h1, h2, h4]
  have hpn : t.parent n ≠ some n := fun h => (hpar n h).1 rfl
  have hpc : t.parent n ≠ some c := fun h => (hpar c h).2.1 rfl
  have hyn : rootPtr y ≠ some n := fun h => (hyr n h).1 rfl
  have hyc' : rootPtr y ≠ some c := fun h => (hyr c h).2.1 rfl
  rw [rep_plug]
  simp only [rootPtr_mk]
  refine ⟨?_, ?_, ?_⟩
  · -- `c` hangs where `n` hung
    refine linkOK_of_same ?_ ?_ hlink
    · simp [rotateSingle, hyc]
    · simp [rotateSingle, hyc]
  · simp only [body_mk, rootPtr_mk]
    refine ⟨?_, ?_, ?_, ?_, ?_, ?_, ?_, ?_, ?_, ?_, ?_, ?_, ?_⟩
    · simp [rotateSingle]
    · simp [rotateSingle, hyc, AvlTree.linkChild_child, Ne.symm hnc, hpc, Ne.symm hLL, hxc]
    · simp [rotateSingle, hyc, AvlTree.linkChild_child, Ne.symm hnc, hpc]
    · exact (linkOK_congr _ _ fun a ha => hagPI a (fun h => hnx (h ▸ mem_addrs_of_rootPtr ha))
        (fun h => hcx (h ▸ mem_addrs_of_rootPtr ha))
        (fun h => (hyr a h).2.2.1 (mem_addrs_of_rootPtr ha))).2 hlx
    · simp [LinkOK, rotateSingle, hyc, hnc]
    · refine (body_congr (fun a ha => hagCB a (fun h => hnx (h ▸ ha)) (fun h => hcx (h ▸ ha))
        (fun h => (hpar a h).2.2.1 ha)) (fun a ha => hagPI a ?_ ?_ ?_)).2 hbx
      · exact fun h => hnx (h ▸ mem_addrs_of_mem_below ha)
      · exact fun h => hcx (h ▸ mem_addrs_of_mem_below ha)
      · exact fun h => (hyr a h).2.2.1 (mem_addrs_of_mem_below ha)
    · simp [rotateSingle, hnc]
    · simp [rotateSingle, hyc, AvlTree.linkChild_child, hnc, Ne.symm hnc, hpn]
    · simp [rotateSingle, hyc, AvlTree.linkChild_child, hnc, Ne.symm hnc, hpn, hLL, hsn]
    · rcases hr : rootPtr y with _ | r
      · trivial
      · obtain ⟨hrn, hrc, -, -, -⟩ := hyr r hr
        simp [LinkOK, rotateSingle, hyc, hr, AvlTree.adopt_parent, AvlTree.adopt_childIndex,
          hrn, hrc]
    · exact (linkOK_congr _ _ fun a ha => hagPI a (fun h => hns (h ▸ mem_addrs_of_rootPtr ha))
        (fun h => hcs c (.inl rfl) (h ▸ mem_addrs_of_rootPtr ha))
        (fun h => (hyr a h).2.2.2.1 (mem_addrs_of_rootPtr ha))).2 hls
    · refine (body_congr (fun a ha => hagCB a (fun h => hny (h ▸ ha)) (fun h => hcy (h ▸ ha))
        (fun h => (hpar a h).2.2.2.1 ha)) (fun a ha => hagPI a ?_ ?_ ?_)).2 hby
      · exact fun h => hny (h ▸ mem_addrs_of_mem_below ha)
      · exact fun h => hcy (h ▸ mem_addrs_of_mem_below ha)
      · exact fun h => (hyr a h).2.2.2.2 ha
    · refine (body_congr (fun a ha => hagCB a (fun h => hns (h ▸ ha))
        (fun h => hcs c (.inl rfl) (h ▸ ha)) (fun h => (hpar a h).2.2.2.2 ha))
        (fun a ha => hagPI a ?_ ?_ ?_)).2 hbs
      · exact fun h => hns (h ▸ mem_addrs_of_mem_below ha)
      · exact fun h => hcs c (.inl rfl) (h ▸ mem_addrs_of_mem_below ha)
      · exact fun h => (hyr a h).2.2.2.1 (mem_addrs_of_mem_below ha)
  · -- the path is the same, but for the link into the subtree
    simp only [rotateSingle]
    refine pathRep_linkChild ((pathRep_congr _ (by simp) ?_).2 hpath) hndP _ _
      (parent_of_linkOK hlink) (childIndex_of_linkOK hlink) _
    intro a ha
    have h1 : a ≠ n := fun h => hdisj a (.inl h) ha
    have h2 : a ≠ c := fun h => hdisj a (.inr (.inl (.inl h))) ha
    have h4 : rootPtr y ≠ some a := fun h =>
      hdisj a (.inr (.inl (.inr (.inr (mem_addrs_of_rootPtr h))))) ha
    simp [hyc, AvlTree.adopt_parent, AvlTree.adopt_childIndex, Function.update_apply, h1, h2, h4]

/-- Case 2 rewires `node`, `child`, `gchild`, the roots of `gchild`'s two
subtrees and the link from above. -/
theorem rotateDouble_rep {t : AvlTree} {fs : List (Frame (Nat × Int))} {L : Fin 2} {n c g : Nat}
    {nb cb gb lh : Int} {x p q s : Shape}
    (hrep : Rep t (plug fs (mk L (n, nb) (mk L (c, cb) x (mk L (g, gb) p q)) s)))
    (hnd : (addrs (plug fs (mk L (n, nb) (mk L (c, cb) x (mk L (g, gb) p q)) s))).Nodup) :
    Rep (rotateDouble t n c g L lh (t.parent n) (t.childIndex n))
      (plug fs (mk L (g, 0) (mk L (c, if gb = -lh then lh else 0) x p)
        (mk L (n, if gb = lh then -lh else 0) q s))) := by
  rw [rep_plug] at hrep
  obtain ⟨hlink, hbody, hpath⟩ := hrep
  rw [nodup_plug] at hnd
  obtain ⟨hndS, hndP, hdisj⟩ := hnd
  simp only [mem_addrs_mk] at hdisj
  rw [body_mk, body_mk, body_mk] at hbody
  obtain ⟨hbn, hcn, hsn, hlc, hls, ⟨hbc, hxc, hgc, hlx, hlg, hbx,
    ⟨hbg, hpg, hqg, hlp, hlq, hbp, hbq⟩⟩, hbs⟩ := hbody
  rw [nodup_mk, nodup_mk, nodup_mk] at hndS
  obtain ⟨⟨hndx, ⟨hndp, hndq, hgp, hgq, hpq⟩, hcx, hcg, hxg⟩, hnds, hnc, hns, hcs⟩ := hndS
  simp only [mem_addrs_mk, not_or] at hnc hcs hcg hxg
  simp only [rootPtr_mk] at hcn hlink hpath hlc hgc hlg
  obtain ⟨hnc, hnx, hng, hnp, hnq⟩ := hnc
  obtain ⟨hcg, hcp, hcq⟩ := hcg
  have hLL := one_sub_ne L
  -- the parent of `n` is on the path, away from the subtree
  have hpar : ∀ r, t.parent n = some r → r ≠ n ∧ r ≠ c ∧ r ≠ g ∧ r ∉ addrs x ∧ r ∉ addrs p ∧
      r ∉ addrs q ∧ r ∉ addrs s := by
    intro r hr
    have hm := parent_mem_pathAddrs hlink hr
    refine ⟨?_, ?_, ?_, ?_, ?_, ?_, ?_⟩ <;> intro h <;> exact hdisj r (by simp [h]) hm
  -- the roots of `p` and `q` are the nodes below `g` whose parents change
  have hpr : ∀ r, rootPtr p = some r → r ≠ n ∧ r ≠ c ∧ r ≠ g ∧ r ∉ addrs x ∧ r ∉ addrs q ∧
      r ∉ addrs s ∧ r ∉ below p := by
    intro r hr
    have hm := mem_addrs_of_rootPtr hr
    exact ⟨fun h => hnp (h ▸ hm), fun h => hcp (h ▸ hm), fun h => hgp (h ▸ hm),
      fun h => (hxg r h).2.1 hm, hpq r hm, hcs r (by simp [hm]), rootPtr_not_mem_below hndp hr⟩
  have hqr : ∀ r, rootPtr q = some r → r ≠ n ∧ r ≠ c ∧ r ≠ g ∧ r ∉ addrs x ∧ r ∉ addrs p ∧
      r ∉ addrs s ∧ r ∉ below q := by
    intro r hr
    have hm := mem_addrs_of_rootPtr hr
    exact ⟨fun h => hnq (h ▸ hm), fun h => hcq (h ▸ hm), fun h => hgq (h ▸ hm),
      fun h => (hxg r h).2.2 hm, fun h => hpq r h hm, hcs r (by simp [hm]),
      rootPtr_not_mem_below hndq hr⟩
  -- away from `n`, `c`, `g` and the parent link, no child pointer or balance changes
  have hagCB : ∀ a, a ≠ n → a ≠ c → a ≠ g → t.parent n ≠ some a →
      (rotateDouble t n c g L lh (t.parent n) (t.childIndex n)).child a = t.child a ∧
      (rotateDouble t n c g L lh (t.parent n) (t.childIndex n)).balance a = t.balance a := by
    intro a h1 h2 h3 h4
    simp [rotateDouble, AvlTree.linkChild_child, Function.update_apply, h1, h2, h3, h4]
  -- away from `n`, `c`, `g` and the roots of `p` and `q`, no parent link changes
  have hagPI : ∀ a, a ≠ n → a ≠ c → a ≠ g → rootPtr p ≠ some a → rootPtr q ≠ some a →
      (rotateDouble t n c g L lh (t.parent n) (t.childIndex n)).parent a = t.parent a ∧
      (rotateDouble t n c g L lh (t.parent n) (t.childIndex n)).childIndex a = t.childIndex a := by
    intro a h1 h2 h3 h4 h5
    simp [rotateDouble, hpg, hqg, AvlTree.adopt_parent, AvlTree.adopt_childIndex,
      h1, h2, h3, h4, h5]
  -- a subtree that avoids every node the rotation writes keeps its layout
  have keep : ∀ u : Shape, (∀ a ∈ addrs u, a ≠ n ∧ a ≠ c ∧ a ≠ g ∧ t.parent n ≠ some a) →
      (∀ a ∈ below u, rootPtr p ≠ some a ∧ rootPtr q ≠ some a) →
      Body t u → Body (rotateDouble t n c g L lh (t.parent n) (t.childIndex n)) u := by
    intro u hu hb hbody
    refine (body_congr (fun a ha => ?_) (fun a ha => ?_)).2 hbody
    · obtain ⟨h1, h2, h3, h4⟩ := hu a ha
      exact hagCB a h1 h2 h3 h4
    · obtain ⟨h1, h2, h3, -⟩ := hu a (mem_addrs_of_mem_below ha)
      exact hagPI a h1 h2 h3 (hb a ha).1 (hb a ha).2
  have hpn : t.parent n ≠ some n := fun h => (hpar n h).1 rfl
  have hpc : t.parent n ≠ some c := fun h => (hpar c h).2.1 rfl
  have hpg' : t.parent n ≠ some g := fun h => (hpar g h).2.2.1 rfl
  have hpn' : rootPtr p ≠ some n := fun h => (hpr n h).1 rfl
  have hpc' : rootPtr p ≠ some c := fun h => (hpr c h).2.1 rfl
  have hpg'' : rootPtr p ≠ some g := fun h => (hpr g h).2.2.1 rfl
  have hqn' : rootPtr q ≠ some n := fun h => (hqr n h).1 rfl
  have hqc' : rootPtr q ≠ some c := fun h => (hqr c h).2.1 rfl
  have hqg' : rootPtr q ≠ some g := fun h => (hqr g h).2.2.1 rfl
  rw [rep_plug]
  simp only [rootPtr_mk]
  refine ⟨?_, ?_, ?_⟩
  · -- `g` hangs where `n` hung
    refine linkOK_of_same ?_ ?_ hlink
    · simp [rotateDouble, hpg, hqg]
    · simp [rotateDouble, hpg, hqg]
  · simp only [body_mk, rootPtr_mk]
    refine ⟨?_, ?_, ?_, ?_, ?_, ⟨?_, ?_, ?_, ?_, ?_, ?_, ?_⟩, ⟨?_, ?_, ?_, ?_, ?_, ?_, ?_⟩⟩
    · simp [rotateDouble]
    · simp [rotateDouble, AvlTree.linkChild_child, Function.update_apply, hpg', Ne.symm hng,
        Ne.symm hcg, Ne.symm hLL]
    · simp [rotateDouble, AvlTree.linkChild_child, Function.update_apply, hpg', Ne.symm hng,
        Ne.symm hcg]
    · simp [LinkOK, rotateDouble, hpg, hqg, hcg, Ne.symm hnc]
    · simp [LinkOK, rotateDouble, hpg, hqg, hng]
    · simp [rotateDouble, hbg, hcg, Ne.symm hnc]
    · simp [rotateDouble, AvlTree.linkChild_child, Function.update_apply, hpc, hcg, Ne.symm hnc,
        Ne.symm hLL, hxc]
    · simp [rotateDouble, AvlTree.linkChild_child, Function.update_apply, hpc, hcg, Ne.symm hnc,
        hpg]
    · exact (linkOK_congr _ _ fun a ha => hagPI a (fun h => hnx (h ▸ mem_addrs_of_rootPtr ha))
        (fun h => hcx (h ▸ mem_addrs_of_rootPtr ha)) (hxg a (mem_addrs_of_rootPtr ha)).1
        (fun h => (hpr a h).2.2.2.1 (mem_addrs_of_rootPtr ha))
        (fun h => (hqr a h).2.2.2.1 (mem_addrs_of_rootPtr ha))).2 hlx
    · rcases hr : rootPtr p with _ | r
      · trivial
      · obtain ⟨hrn, hrc, hrg, -, -, -, -⟩ := hpr r hr
        simp [LinkOK, rotateDouble, hpg, hqg, hr, AvlTree.adopt_parent, AvlTree.adopt_childIndex,
          hrn, hrc, hrg]
    · refine keep x (fun a ha => ⟨fun h => hnx (h ▸ ha), fun h => hcx (h ▸ ha), (hxg a ha).1,
        fun h => (hpar a h).2.2.2.1 ha⟩) (fun a ha => ?_) hbx
      exact ⟨fun h => (hpr a h).2.2.2.1 (mem_addrs_of_mem_below ha),
        fun h => (hqr a h).2.2.2.1 (mem_addrs_of_mem_below ha)⟩
    · refine keep p (fun a ha => ⟨fun h => hnp (h ▸ ha), fun h => hcp (h ▸ ha),
        fun h => hgp (h ▸ ha), fun h => (hpar a h).2.2.2.2.1 ha⟩) (fun a ha => ?_) hbp
      exact ⟨fun h => (hpr a h).2.2.2.2.2.2 ha,
        fun h => (hqr a h).2.2.2.2.1 (mem_addrs_of_mem_below ha)⟩
    · simp [rotateDouble, hbg, hng]
    · simp [rotateDouble, AvlTree.linkChild_child, Function.update_apply, hpn, hng, hnc, hqg]
    · simp [rotateDouble, AvlTree.linkChild_child, Function.update_apply, hpn, hng, hnc,
        hLL, hsn]
    · rcases hr : rootPtr q with _ | r
      · trivial
      · obtain ⟨hrn, hrc, hrg, -, hrp, -, -⟩ := hqr r hr
        have hpr' : rootPtr p ≠ some r := fun h => hrp (mem_addrs_of_rootPtr h)
        simp [LinkOK, rotateDouble, hpg, hqg, hr, AvlTree.adopt_parent, AvlTree.adopt_childIndex,
          hrn, hrc, hrg, hpr']
    · exact (linkOK_congr _ _ fun a ha => hagPI a (fun h => hns (h ▸ mem_addrs_of_rootPtr ha))
        (fun h => hcs c (.inl rfl) (h ▸ mem_addrs_of_rootPtr ha))
        (fun h => hcs g (by simp) (h ▸ mem_addrs_of_rootPtr ha))
        (fun h => (hpr a h).2.2.2.2.2.1 (mem_addrs_of_rootPtr ha))
        (fun h => (hqr a h).2.2.2.2.2.1 (mem_addrs_of_rootPtr ha))).2 hls
    · refine keep q (fun a ha => ⟨fun h => hnq (h ▸ ha), fun h => hcq (h ▸ ha),
        fun h => hgq (h ▸ ha), fun h => (hpar a h).2.2.2.2.2.1 ha⟩) (fun a ha => ?_) hbq
      exact ⟨fun h => (hpr a h).2.2.2.2.1 (mem_addrs_of_mem_below ha),
        fun h => (hqr a h).2.2.2.2.2.2 ha⟩
    · refine keep s (fun a ha => ⟨fun h => hns (h ▸ ha), fun h => hcs c (.inl rfl) (h ▸ ha),
        fun h => hcs g (by simp) (h ▸ ha), fun h => (hpar a h).2.2.2.2.2.2 ha⟩)
        (fun a ha => ?_) hbs
      exact ⟨fun h => (hpr a h).2.2.2.2.2.1 (mem_addrs_of_mem_below ha),
        fun h => (hqr a h).2.2.2.2.2.1 (mem_addrs_of_mem_below ha)⟩
  · -- the path is the same, but for the link into the subtree
    simp only [rotateDouble]
    refine pathRep_linkChild ((pathRep_congr _ (by simp) ?_).2 hpath) hndP _ _
      (parent_of_linkOK hlink) (childIndex_of_linkOK hlink) _
    intro a ha
    have hout : ∀ z, z = n ∨ (z = c ∨ z ∈ addrs x ∨ z = g ∨ z ∈ addrs p ∨ z ∈ addrs q) ∨
        z ∈ addrs s → z ≠ a := fun z hz h => hdisj z hz (h ▸ ha)
    have h1 : a ≠ n := fun h => hout n (.inl rfl) h.symm
    have h2 : a ≠ c := fun h => hout c (by simp) h.symm
    have h3 : a ≠ g := fun h => hout g (by simp) h.symm
    have h4 : rootPtr p ≠ some a := fun h => hout a (by simp [mem_addrs_of_rootPtr h]) rfl
    have h5 : rootPtr q ≠ some a := fun h => hout a (by simp [mem_addrs_of_rootPtr h]) rfl
    simp [hpg, hqg, AvlTree.adopt_parent, AvlTree.adopt_childIndex, h1, h2, h3, h4, h5]

/-- `avl_rotation` at a node whose balance is about to become `±2` simulates
`rotateShape`: same rotated layout, same "height went down" flag. -/
theorem avlRotation_rep {t : AvlTree} {fs : List (Frame (Nat × Int))} {L : Fin 2} {n : Nat}
    {nb : Int} {c s : Shape}
    (hrep : Rep t (plug fs (mk L (n, nb) c s)))
    (hnd : (addrs (plug fs (mk L (n, nb) c s))).Nodup) :
    Rep (avlRotation t n (2 * child2balance L)).1
        (plug fs (rotateShape (mk L (n, nb) c s) (2 * child2balance L)).1) ∧
      (avlRotation t n (2 * child2balance L)).2 =
        (rotateShape (mk L (n, nb) c s) (2 * child2balance L)).2 := by
  have hbody := ((rep_plug _ _ _).1 hrep).2.1
  rw [body_mk] at hbody
  obtain ⟨-, hcn, -, -, -, hbc, -⟩ := hbody
  rcases c with _ | ⟨⟨cv, cb⟩, cl, cr⟩
  · -- no `L` child: the NULL dereference, which changes nothing
    rw [rotateShape_mk_nil]
    simp only [rootPtr_nil] at hcn
    simp [avlRotation, rotation_left, hcn, hrep]
  obtain ⟨x, y, hxy⟩ : ∃ x y, node (cv, cb) cl cr = mk L (cv, cb) x y := ⟨_, _, node_eq_mk L _ _ _⟩
  rw [hxy] at hrep hnd hcn hbc ⊢
  rw [body_mk] at hbc
  obtain ⟨hbc, -, hyc, -⟩ := hbc
  simp only [rootPtr_mk] at hcn
  rw [rotateShape_mk]
  simp only [avlRotation, rotation_left, rotation_leftHeavy, hcn, hbc]
  by_cases hcb : cb ≠ -child2balance L
  · -- case 1: a single rotation
    rw [if_pos hcb, if_pos hcb]
    exact ⟨rotateSingle_rep hrep hnd, rfl⟩
  · rw [if_neg hcb, if_neg hcb]
    rcases y with _ | ⟨⟨g, gb⟩, yl, yr⟩
    · -- `child` has no `right` child: the NULL dereference, which the balance rules out
      simp only [rootPtr_nil] at hyc
      simp only [hyc]
      exact ⟨hrep, trivial⟩
    · -- case 2: a double rotation
      simp only [rootPtr_node] at hyc
      simp only [hyc]
      rw [node_eq_mk L] at hrep hnd
      exact ⟨rotateDouble_rep hrep hnd, trivial⟩

end ZfsOsx.Avl
