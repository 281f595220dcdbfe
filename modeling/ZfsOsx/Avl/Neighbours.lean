import ZfsOsx.Avl.Valid

/-!
# The neighbour queries of `avl.c`

`avl_find` either finds a node that compares equal or leaves the insertion
point in `*where`; `avl_nearest` reads the node next to that point in either
direction, `avl_first` and `avl_last` walk to the two ends, and a caller
iterates the tree by `AVL_NEXT` from `avl_first` until NULL.

* `avlFind_found`, `avlFind_notFound`: a found node compares equal; a search
  for a value that equals no member fails, with the path it took.
* `avlNearest_before`, `avlNearest_after`: at that point the two directions
  give the last member on the left of the path and the first one on its
  right.
* `avlFirst_eq`, `avlLast_eq`: the two ends of the in-order sequence.
* `nextLoop_suffix`: the `AVL_NEXT` loop from a member visits the rest of the
  in-order sequence and then stops at NULL.
* `avl_find_nearest_walk`: on a valid tree, all of it against the members
  and the comparator.
-/
namespace ZfsOsx.Avl

open BinaryTree

/-- `avl_first` (avl.c:170-185): down `avl_child[0]` from the root, NULL for
the empty tree. -/
def avlFirst (t : AvlTree) : Option Nat :=
  t.root.bind fun r => descendLoop t 0 t.numnodes r

/-- `avl_last` (avl.c:191-202): down `avl_child[1]` from the root. -/
def avlLast (t : AvlTree) : Option Nat :=
  t.root.bind fun r => descendLoop t 1 t.numnodes r

/-- `avl_nearest(tree, where, direction)` (avl.c:213-230): the node of the
insertion point when the point is on its other side, else that node's
neighbour in `direction`; NULL for the empty tree. -/
def avlNearest (t : AvlTree) (idx : AvlIndex) (direction : Fin 2) : Option Nat :=
  match idx with
  | (none, _) => none
  | (some n, child) => if child ≠ direction then some n else avlWalk t n direction

/-- The caller's loop `for (node = first; node != NULL; node = AVL_NEXT(tree, node))`,
for at most `fuel` rounds: the nodes it visits, or `none` when it has not
reached NULL by then. -/
def nextLoop (t : AvlTree) : Nat → Option Nat → Option (List Nat)
  | _, none => some []
  | 0, some _ => none
  | fuel + 1, some x => (nextLoop t fuel (avlNext t x)).map (x :: ·)

/-! ## The search -/

/-- A search that stops at a node stops because the node compares equal. -/
theorem descend_found {compar : Nat → Nat → Ordering} {v : Nat} {s : Shape} :
    ∀ {fs fs' : List (Frame (Nat × Int))} {a : Nat} {b : Int} {l r : Shape},
      descend compar v fs s = (fs', node (a, b) l r) → compar v a = .eq := by
  induction s with
  | nil =>
    intro fs fs' a b l r hd
    cases hd
  | node w sl sr ihl ihr =>
    obtain ⟨c, cb⟩ := w
    intro fs fs' a b l r hd
    simp only [descend] at hd
    split at hd
    · rename_i heq
      cases hd
      exact heq
    · exact ihl hd
    · exact ihr hd

section

variable {compar : Nat → Nat → Ordering} [LtTransCmp compar] {t : AvlTree} {s : Shape} {v : Nat}

/-- `avl_find` returns a member that compares equal to the value. -/
theorem avlFind_found (hv : Valid compar t s) {a : Nat}
    (hf : avlFind compar t v = some (.found a)) : a ∈ addrs s ∧ compar v a = .eq := by
  rw [avlFind_eq hv.rep hv.size] at hf
  rcases hd : descend compar v [] s with ⟨fs, _ | ⟨⟨c, cb⟩, l, r⟩⟩
  · rw [hd] at hf
    cases hf
  · rw [hd] at hf
    cases hf
    have hplug : plug fs (node (a, cb) l r) = s := by
      simpa [hd] using plug_descend compar v [] s
    refine ⟨?_, descend_found hd⟩
    rw [← hplug, addrs_plug, addrs_node]
    simp

/-- A value that compares equal to no member is not found, and the search
leaves the insertion point at the end of its path. -/
theorem avlFind_notFound (hv : Valid compar t s) (hne : ∀ a ∈ addrs s, compar v a ≠ .eq) :
    ∃ fs, descend compar v [] s = (fs, nil) ∧
      avlFind compar t v = some (.notFound (indexOf fs)) := by
  obtain ⟨fs, hd⟩ := descend_eq_nil hne []
  refine ⟨fs, hd, ?_⟩
  rw [avlFind_eq hv.rep hv.size, hd]
  rfl

/-- `avl_nearest(where, AVL_BEFORE)` after a failed search: the last member
to the left of the path. -/
theorem avlNearest_before (hv : Valid compar t s) {fs : List (Frame (Nat × Int))}
    (hd : descend compar v [] s = (fs, nil)) :
    avlNearest t (indexOf fs) 0 = ((leftCtx fs).map Prod.fst).getLast? := by
  obtain ⟨hsplit, -, -⟩ := descend_nil_split hv hd
  cases fs with
  | nil => rfl
  | cons f fs =>
    obtain ⟨side, ⟨n, nb⟩, sib⟩ := f
    rcases fin2_cases side with rfl | rfl
    · -- the point is left of `n`: its neighbour before it
      have hmem : n ∈ addrs s := by
        rw [hsplit]
        simp [rightCtx]
      have hprev := avlPrev_eq hv.rep hv.nodup hv.size hmem
      have hsplit' : addrs s = (leftCtx fs).map Prod.fst ++
          n :: ((sib.inorder.map Prod.fst) ++ (rightCtx fs).map Prod.fst) := by
        rw [hsplit]
        simp [leftCtx, rightCtx]
      have hnot : n ∉ (sib.inorder.map Prod.fst) ++ (rightCtx fs).map Prod.fst := by
        have hnd := hv.nodup
        rw [hsplit'] at hnd
        exact (List.nodup_cons.1 (List.nodup_middle.1 hnd)).1 ∘ List.mem_append_right _
      simp only [avlNearest, indexOf, ne_eq, not_true_eq_false, if_false]
      rw [← avlPrev, hprev, hsplit', List.prevOf_append_cons hnot]
      simp [leftCtx]
    · -- the point is right of `n`, which is the node before it
      simp [avlNearest, indexOf, leftCtx]

/-- `avl_nearest(where, AVL_AFTER)` after a failed search: the first member
to the right of the path. -/
theorem avlNearest_after (hv : Valid compar t s) {fs : List (Frame (Nat × Int))}
    (hd : descend compar v [] s = (fs, nil)) :
    avlNearest t (indexOf fs) 1 = ((rightCtx fs).map Prod.fst).head? := by
  obtain ⟨hsplit, -, -⟩ := descend_nil_split hv hd
  cases fs with
  | nil => rfl
  | cons f fs =>
    obtain ⟨side, ⟨n, nb⟩, sib⟩ := f
    rcases fin2_cases side with rfl | rfl
    · -- the point is left of `n`, which is the node after it
      simp [avlNearest, indexOf, rightCtx]
    · -- the point is right of `n`: its neighbour after it
      have hmem : n ∈ addrs s := by
        rw [hsplit]
        simp [leftCtx]
      have hnext := avlNext_eq hv.rep hv.nodup hv.size hmem
      have hsplit' : addrs s = ((leftCtx fs).map Prod.fst ++ sib.inorder.map Prod.fst) ++
          n :: (rightCtx fs).map Prod.fst := by
        rw [hsplit]
        simp [leftCtx, rightCtx]
      have hnot : n ∉ (leftCtx fs).map Prod.fst ++ sib.inorder.map Prod.fst := by
        have hnd := hv.nodup
        rw [hsplit'] at hnd
        intro hn
        exact (List.nodup_append.1 hnd).2.2 n hn n List.mem_cons_self rfl
      simp only [avlNearest, indexOf, ne_eq, not_true_eq_false, if_false]
      rw [← avlNext, hnext, hsplit', List.nextOf_append_cons hnot]
      simp [rightCtx]

/-! ## The two ends and the loop over the tree -/

theorem avlFirst_eq (hv : Valid compar t s) : avlFirst t = (addrs s).head? := by
  obtain ⟨hroot, -, hbody⟩ := hv.rep
  cases hr : rootPtr s with
  | none =>
    have hs : s = nil := by
      cases s with
      | nil => rfl
      | node _ _ _ => cases hr
    subst hs
    simp [avlFirst, hroot, hr]
  | some r =>
    have hh : s.height ≤ t.numnodes := hv.size ▸ height_le_numNodes s
    obtain ⟨gs, n, nb, x, rfl, hgs, hloop⟩ := descendLoop_spec hbody 0 r hr t.numnodes hh
    have hl0 : leftCtx gs = [] := leftCtx_eq_nil hgs
    rw [avlFirst, hroot, hr, Option.bind_some, hloop]
    simp [addrs_plug, hl0]

theorem avlLast_eq (hv : Valid compar t s) : avlLast t = (addrs s).getLast? := by
  obtain ⟨hroot, -, hbody⟩ := hv.rep
  cases hr : rootPtr s with
  | none =>
    have hs : s = nil := by
      cases s with
      | nil => rfl
      | node _ _ _ => cases hr
    subst hs
    simp [avlLast, hroot, hr]
  | some r =>
    have hh : s.height ≤ t.numnodes := hv.size ▸ height_le_numNodes s
    obtain ⟨gs, n, nb, x, rfl, hgs, hloop⟩ := descendLoop_spec hbody 1 r hr t.numnodes hh
    have hr0 : rightCtx gs = [] := rightCtx_eq_nil hgs
    rw [avlLast, hroot, hr, Option.bind_some, hloop]
    simp [addrs_plug, hr0]

/-- `AVL_NEXT` from a member steps to the member after it in order. -/
theorem avlNext_of_split (hv : Valid compar t s) {A B : List Nat} {b : Nat}
    (hs : addrs s = A ++ b :: B) : avlNext t b = B.head? := by
  have hmem : b ∈ addrs s := by
    rw [hs]
    simp
  have hnot : b ∉ A := by
    have hnd := hv.nodup
    rw [hs] at hnd
    intro hb
    exact (List.nodup_append.1 hnd).2.2 b hb b List.mem_cons_self rfl
  rw [avlNext_eq hv.rep hv.nodup hv.size hmem, hs, List.nextOf_append_cons hnot]

/-- From a member, the `AVL_NEXT` loop visits the rest of the in-order
sequence and stops at NULL, given a round for each node it visits. The
induction is on what is left to visit. -/
theorem nextLoop_suffix (hv : Valid compar t s) :
    ∀ (B A : List Nat) (fuel : Nat), addrs s = A ++ B → B.length ≤ fuel →
      nextLoop t fuel B.head? = some B := by
  intro B
  induction B with
  | nil =>
    intro A fuel _ _
    cases fuel <;> rfl
  | cons b B ih =>
    intro A fuel hs hf
    obtain ⟨k, rfl⟩ : ∃ k, fuel = k + 1 := ⟨fuel - 1, by simp at hf; omega⟩
    have hnext : avlNext t b = B.head? := avlNext_of_split hv hs
    have hrest := ih (A ++ [b]) k (by rw [hs]; simp) (by simp at hf; omega)
    simp [nextLoop, hnext, hrest]

/-- The loop from `avl_first`, given `avl_numnodes` rounds, visits every
member once, in order. -/
theorem nextLoop_avlFirst (hv : Valid compar t s) :
    nextLoop t t.numnodes (avlFirst t) = some (addrs s) := by
  rw [avlFirst_eq hv]
  exact nextLoop_suffix hv (addrs s) [] t.numnodes rfl (by rw [length_addrs, hv.size])

end

/-- On a valid tree and for any search value `v`: `avl_find` finds a member
that compares equal exactly when there is one; when there is none, it fails
and `avl_nearest` at its insertion point gives the greatest member below `v`
before it and the least member above `v` after it; `AVL_NEXT` and `AVL_PREV`
step to the in-order neighbours, so the loop from `avl_first` visits every
member once, in increasing order, and then stops at NULL. -/
theorem avl_find_nearest_walk {compar : Nat → Nat → Ordering} [LtTransCmp compar] {t : AvlTree}
    {s : Shape} (hv : Valid compar t s) (v : Nat) :
    (∀ a, avlFind compar t v = some (.found a) → a ∈ addrs s ∧ compar v a = .eq) ∧
    ((∃ a ∈ addrs s, compar v a = .eq) → ∃ a, avlFind compar t v = some (.found a)) ∧
    ((∀ a ∈ addrs s, compar v a ≠ .eq) → ∃ w, avlFind compar t v = some (.notFound w) ∧
      List.GreatestBelow compar (addrs s) v (avlNearest t w 0) ∧
      List.LeastAbove compar (addrs s) v (avlNearest t w 1)) ∧
    (∀ x ∈ addrs s, avlNext t x = (addrs s).nextOf x ∧ avlPrev t x = (addrs s).prevOf x) ∧
    nextLoop t t.numnodes (avlFirst t) = some (addrs s) ∧
    (addrs s).Pairwise (fun a b => compar a b = .lt) := by
  refine ⟨fun a hf => avlFind_found hv hf, ?_, ?_, fun x hx => ?_, ?_, hv.sorted⟩
  · -- the search ends at a node or fails, and it cannot fail
    rintro ⟨a, ha, heq⟩
    rcases hr : resultOf (descend compar v [] s) with b | w
    · exact ⟨b, by rw [avlFind_eq hv.rep hv.size, hr]⟩
    · have hf : avlFind compar t v = some (.notFound w) := by
        rw [avlFind_eq hv.rep hv.size, hr]
      exact absurd heq (notFound_ne hv hf a ha)
  · intro hne
    obtain ⟨fs, hd, hf⟩ := avlFind_notFound hv hne
    obtain ⟨hsplit, hA, hB⟩ := descend_nil_split hv hd
    have hsorted := hv.sorted
    rw [hsplit] at hsorted
    refine ⟨_, hf, ?_, ?_⟩
    · rw [avlNearest_before hv hd, hsplit]
      exact List.greatestBelow_getLast? compar hsorted hA hB
    · rw [avlNearest_after hv hd, hsplit]
      exact List.leastAbove_head? compar hsorted hA hB
  · exact ⟨avlNext_eq hv.rep hv.nodup hv.size hx, avlPrev_eq hv.rep hv.nodup hv.size hx⟩
  · exact nextLoop_avlFirst hv

/-- Three nodes added to an empty tree, searched for a value between two of
them. -/
theorem avl_find_nearest_walk_three :
    let t0 : AvlTree := avlCreate ⟨none, 0, fun _ _ => none, fun _ => none, fun _ => 0, fun _ => 0⟩
    let t1 := (avlAdd compare t0 5).getD t0
    let t2 := (avlAdd compare t1 3).getD t1
    let t3 := (avlAdd compare t2 8).getD t2
    ∃ s, Valid compare t3 s ∧
      (∀ a, avlFind compare t3 6 = some (.found a) → a ∈ addrs s ∧ compare 6 a = .eq) ∧
      ((∃ a ∈ addrs s, compare 6 a = .eq) → ∃ a, avlFind compare t3 6 = some (.found a)) ∧
      ((∀ a ∈ addrs s, compare 6 a ≠ .eq) → ∃ w, avlFind compare t3 6 = some (.notFound w) ∧
        List.GreatestBelow compare (addrs s) 6 (avlNearest t3 w 0) ∧
        List.LeastAbove compare (addrs s) 6 (avlNearest t3 w 1)) ∧
      (∀ x ∈ addrs s, avlNext t3 x = (addrs s).nextOf x ∧ avlPrev t3 x = (addrs s).prevOf x) ∧
      nextLoop t3 t3.numnodes (avlFirst t3) = some (addrs s) ∧
      (addrs s).Pairwise (fun a b => compare a b = .lt) := by
  intro t0 t1 t2 t3
  have hr : Reachable compare t3 :=
    .add (.add (.add (.create compare _) 5 rfl) 3 rfl) 8 rfl
  obtain ⟨s, hv⟩ := hr.valid
  exact ⟨s, hv, avl_find_nearest_walk hv 6⟩

end ZfsOsx.Avl
