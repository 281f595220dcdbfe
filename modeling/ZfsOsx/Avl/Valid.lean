import ZfsOsx.Avl.Update

/-!
# The AVL invariant over every run of the `avl.c` interface

`Valid compar t s` is what the header comment of `module/avl/avl.c` promises of
a tree: the heap `t` lays out the tree `s` (child pointers, parent pointers
and child indices agree, the root's parent is NULL), `s` is an AVL tree whose
stored balances are the real ones, its in-order sequence is in `compar`
order, and `avl_numnodes` counts it. By `rep_unique` the heap has no other
tree, so `addrs s` is the in-order sequence of the heap itself.

Each interface function keeps `Valid` and, where it changes the members,
changes the in-order sequence as a sorted set would:

* `valid_avlCreate`: `avl_create` gives the empty tree.
* `valid_avlAdd`, `valid_avlInsert`: `avl_add`, and `avl_insert` at the index
  of a failed `avl_find`, insert at the sorted position (`orderedInsert`).
* `valid_avlInsertHere`: `avl_insert_here` next to a correctly ordered
  neighbour.
* `valid_avlRemove`: `avl_remove` of a member removes exactly it.
* `valid_avlUpdateLt`, `valid_avlUpdateGt`, `valid_avlUpdate`: after the
  caller changed one node's key, the update functions leave a valid tree for
  the new order.

`Reachable` collects the trees a program can build with these calls.
-/
namespace ZfsOsx.Avl

open BinaryTree

/-- `avl_create` (avl.c:870-887): no root and no nodes. The comparator is the
`compar` every operation is given; the links of the nodes are left as they
were, as nothing reads them. -/
def avlCreate (t : AvlTree) : AvlTree := { t with root := none, numnodes := 0 }

/-- The representation invariant of an AVL tree, for the shape `s` laid out by
the heap `t` under the comparator `compar`. -/
structure Valid (compar : Nat → Nat → Ordering) (t : AvlTree) (s : Shape) : Prop where
  rep : Rep t s
  balanced : Balanced s
  sorted : (addrs s).Pairwise (fun a b => compar a b = .lt)
  size : t.numnodes = s.numNodes

section

variable {compar : Nat → Nat → Ordering} {t : AvlTree} {s : Shape}

/-- An ordered tree has no address twice. -/
theorem Valid.nodup [Std.ReflCmp compar] (hv : Valid compar t s) : (addrs s).Nodup :=
  hv.sorted.imp fun {a b} hab heq => by
    subst heq
    have haa : compar a a = .eq := Std.ReflCmp.compare_self
    rw [haa] at hab
    cases hab

theorem valid_avlCreate (compar : Nat → Nat → Ordering) (t : AvlTree) :
    Valid compar (avlCreate t) nil :=
  ⟨⟨rfl, trivial, trivial⟩, trivial, List.Pairwise.nil, rfl⟩

/-- The invariant reads the comparator on members only: one that agrees with
it there, such as one that also reads a search value off the tree, keeps it. -/
theorem Valid.congr_cmp {compar' : Nat → Nat → Ordering} (hv : Valid compar t s)
    (h : ∀ a ∈ addrs s, ∀ b ∈ addrs s, compar' a b = compar a b) : Valid compar' t s :=
  ⟨hv.rep, hv.balanced, hv.sorted.imp_of_mem fun ha hb hab => (h _ ha _ hb).trans hab, hv.size⟩

/-- A search that ends at an empty subtree splits the tree's in-order
sequence around the searched value. -/
theorem descend_nil_split [LtTransCmp compar] (hv : Valid compar t s) {x : Nat}
    {fs : List (Frame (Nat × Int))} (hd : descend compar x [] s = (fs, nil)) :
    addrs s = (leftCtx fs).map Prod.fst ++ (rightCtx fs).map Prod.fst ∧
      (∀ a ∈ (leftCtx fs).map Prod.fst, compar a x = .lt) ∧
      ∀ b ∈ (rightCtx fs).map Prod.fst, compar x b = .lt := by
  have hplug : plug fs nil = s := by simpa [hd] using plug_descend compar x [] s
  have hb : (∀ z ∈ (leftCtx (descend compar x [] s).1).map Prod.fst, compar z x = .lt) ∧
      ∀ z ∈ (rightCtx (descend compar x [] s).1).map Prod.fst, compar x z = .lt :=
    descend_bounds (by simpa using hv.sorted) (by simp [leftCtx]) (by simp [rightCtx])
  rw [hd] at hb
  refine ⟨?_, hb⟩
  rw [← hplug, addrs_plug]
  simp

/-- A failed `avl_find` means that nothing in the tree compares equal. -/
theorem notFound_ne [LtTransCmp compar] (hv : Valid compar t s) {x : Nat} {w : AvlIndex}
    (hf : avlFind compar t x = some (.notFound w)) : ∀ a ∈ addrs s, compar x a ≠ .eq := by
  rw [avlFind_eq hv.rep hv.size] at hf
  rcases hd : descend compar x [] s with ⟨fs, _ | ⟨⟨a, b⟩, l, r⟩⟩
  · obtain ⟨hsplit, hA, hB⟩ := descend_nil_split hv hd
    intro a ha heq
    rw [hsplit, List.mem_append] at ha
    rcases ha with ha | ha
    · rw [Std.OrientedCmp.gt_iff_lt.2 (hA a ha)] at heq
      cases heq
    · rw [hB a ha] at heq
      cases heq
  · rw [hd] at hf
    cases hf

/-- `avl_add` of a node that compares equal to no member: the tree stays
valid and the node lands at its sorted position. -/
theorem valid_avlAdd [Std.TransCmp compar] (hv : Valid compar t s) {x : Nat}
    (hne : ∀ a ∈ addrs s, compar x a ≠ .eq) :
    ∃ t' s', avlAdd compar t x = some t' ∧ Valid compar t' s' ∧
      addrs s' = (addrs s).orderedInsert (fun a b => (compar a b).isLE) x := by
  have hx : x ∉ addrs s := fun h => hne x h Std.ReflCmp.compare_self
  obtain ⟨fs, t', hd, hadd, hrep', hnum'⟩ :=
    avlAdd_rep hv.rep hv.nodup hv.balanced hv.size hx hne
  obtain ⟨hsplit, hA, hB⟩ := descend_nil_split hv hd
  have hplug : plug fs nil = s := by simpa [hd] using plug_descend compar x [] s
  have hadd' : addrs (insertFix fs (node (x, 0) nil nil)) =
      (leftCtx fs).map Prod.fst ++ x :: (rightCtx fs).map Prod.fst := by
    rw [addrs_insertFix, addrs_plug]
    simp
  have hins : (addrs s).orderedInsert (fun a b => (compar a b).isLE) x =
      (leftCtx fs).map Prod.fst ++ x :: (rightCtx fs).map Prod.fst := by
    rw [hsplit]
    exact List.orderedInsert_eq_append compar (fun a ha => Std.OrientedCmp.gt_iff_lt.2 (hA a ha))
      fun b hb => hB b (List.mem_of_mem_head? hb)
  have hbal : Balanced (insertFix fs (node (x, 0) nil nil)) := by
    have hp := ((balanced_plug fs nil).1 (hplug ▸ hv.balanced)).2
    exact balanced_insertFix fs _ 0 hp (by simp [Balanced, isAvl_node]) rfl (.inl rfl)
  refine ⟨t', _, hadd, ⟨hrep', hbal, ?_, ?_⟩, by rw [hadd', hins]⟩
  · rw [hadd']
    exact List.pairwise_insert_between compar (hsplit ▸ hv.sorted) hA hB
  · rw [← length_addrs, hadd', hnum', hv.size, ← length_addrs, hsplit]
    simp only [List.length_append, List.length_cons, List.length_map]
    omega

/-- `avl_insert` at the index a failed `avl_find` returned. -/
theorem valid_avlInsert [Std.TransCmp compar] (hv : Valid compar t s) {x : Nat} {w : AvlIndex}
    (hf : avlFind compar t x = some (.notFound w)) :
    ∃ t' s', avlInsert t x w = some t' ∧ Valid compar t' s' ∧
      addrs s' = (addrs s).orderedInsert (fun a b => (compar a b).isLE) x := by
  obtain ⟨t', s', hadd, hv', hs'⟩ := valid_avlAdd hv (notFound_ne hv hf)
  rw [avlAdd, hf] at hadd
  exact ⟨t', s', hadd, hv', hs'⟩

/-- The precondition of `avl_insert_here` (avl.c:547-558): `here` is in the
tree and `x` belongs right after it (`direction = AVL_AFTER`) or right before
it (`AVL_BEFORE`), in `compar` order. -/
def OrderedHere (compar : Nat → Nat → Ordering) (s : Shape) (x here : Nat) (direction : Fin 2) :
    Prop :=
  here ∈ addrs s ∧
    if direction = 1 then compar here x = .lt ∧ ∀ n ∈ (addrs s).nextOf here, compar x n = .lt
    else compar x here = .lt ∧ ∀ p ∈ (addrs s).prevOf here, compar p x = .lt

/-- `avl_insert_here` next to a correctly ordered neighbour keeps the tree
valid. -/
theorem valid_avlInsertHere [LtTransCmp compar] (hv : Valid compar t s) {x here : Nat}
    {d : Fin 2} (ho : OrderedHere compar s x here d) :
    ∃ t' s', avlInsertHere t x here d = some t' ∧ Valid compar t' s' := by
  obtain ⟨hhere, hord⟩ := ho
  have hnd := hv.nodup
  -- `x` is new: it fits strictly between `here` and its other neighbour
  have hx : x ∉ addrs s := by
    obtain ⟨A, B, hAB⟩ := List.append_of_mem hhere
    have hsorted := hv.sorted
    rw [hAB] at hnd hsorted hord ⊢
    have hhA : here ∉ A := fun h =>
      (List.nodup_append.1 hnd).2.2 here h here List.mem_cons_self rfl
    have hhB : here ∉ B := (List.nodup_cons.1 (List.nodup_append.1 hnd).2.1).1
    rcases fin2_cases d with rfl | rfl
    · rw [if_neg (by decide), List.prevOf_append_cons hhB] at hord
      have h := List.pairwise_insert_between_of_adj compar hsorted hord.2 (by simpa using hord.1)
      intro hmem
      exact List.not_mem_of_pairwise_lt compar h (by simpa [or_comm, or_left_comm] using hmem)
    · rw [if_pos rfl, List.nextOf_append_cons hhA] at hord
      have h := List.pairwise_insert_between_of_adj compar (A := A ++ [here]) (B := B)
        (by simpa using hsorted) (by simpa using hord.1) hord.2
      intro hmem
      exact List.not_mem_of_pairwise_lt compar h (by simpa [or_comm, or_left_comm] using hmem)
  obtain ⟨⟨here', hb⟩, hp, rfl⟩ := List.mem_map.1 hhere
  obtain ⟨fs, l, r, hs⟩ := exists_plug_of_mem hp
  rw [node_eq_mk d] at hs
  subst hs
  obtain ⟨hs, t', hplug, hlast, hhead, hins, hrep', hnum'⟩ :=
    avlInsertHere_rep hv.rep hnd hv.balanced hv.size hx
  rw [← hplug] at hnd hord hv
  have hsplit : addrs (plug hs nil) = (leftCtx hs).map Prod.fst ++ (rightCtx hs).map Prod.fst := by
    rw [addrs_plug]
    simp
  have hadd' : addrs (insertFix hs (node (x, 0) nil nil)) =
      (leftCtx hs).map Prod.fst ++ x :: (rightCtx hs).map Prod.fst := by
    rw [addrs_insertFix, addrs_plug]
    simp
  -- the neighbours of the insertion point are `here` and `here`'s neighbour
  have hadj : (∀ a ∈ ((leftCtx hs).map Prod.fst).getLast?, compar a x = .lt) ∧
      ∀ b ∈ ((rightCtx hs).map Prod.fst).head?, compar x b = .lt := by
    rw [hsplit] at hnd hord
    rcases fin2_cases d with rfl | rfl
    · obtain ⟨R, hR⟩ := List.head?_eq_some_iff.1 (hhead rfl)
      rw [hR] at hnd hord ⊢
      rw [if_neg (by decide), List.prevOf_append_cons (List.nodup_cons.1
        (List.nodup_append.1 hnd).2.1).1] at hord
      exact ⟨hord.2, by simpa using hord.1⟩
    · obtain ⟨L, hL⟩ := List.getLast?_eq_some_iff.1 (hlast rfl)
      rw [hL] at hnd hord ⊢
      have hhL : here' ∉ L := by
        rw [List.append_assoc, List.singleton_append] at hnd
        exact fun h => (List.nodup_append.1 hnd).2.2 here' h here' List.mem_cons_self rfl
      rw [if_pos rfl, List.append_assoc, List.singleton_append, List.nextOf_append_cons hhL] at hord
      exact ⟨by simpa using hord.1, hord.2⟩
  have hbal : Balanced (insertFix hs (node (x, 0) nil nil)) := by
    have hp := ((balanced_plug hs nil).1 hv.balanced).2
    exact balanced_insertFix hs _ 0 hp (by simp [Balanced, isAvl_node]) rfl (.inl rfl)
  refine ⟨t', _, hins, ⟨hrep', hbal, ?_, ?_⟩⟩
  · rw [hadd']
    exact List.pairwise_insert_between_of_adj compar (hsplit ▸ hv.sorted) hadj.1 hadj.2
  · rw [← length_addrs, hadd', hnum', hv.size, ← length_addrs, hsplit]
    simp only [List.length_append, List.length_cons, List.length_map]
    omega

/-- `avl_remove` of a member: the tree stays valid and loses exactly that
member. `tmp` is the stack temporary of the swap (avl.c:712), not a node. -/
theorem valid_avlRemove [Std.ReflCmp compar] (hv : Valid compar t s) {data tmp : Nat}
    (hmem : data ∈ addrs s) (htmp : tmp ∉ addrs s) :
    ∃ t' s', avlRemove t data tmp = some t' ∧ Valid compar t' s' ∧
      addrs s' = (addrs s).erase data := by
  obtain ⟨t', s', hrem, hrep', hadd', hbal', hnum'⟩ :=
    avlRemove_rep hv.rep hv.nodup hv.balanced hv.size hmem htmp
  refine ⟨t', s', hrem, ⟨hrep', hbal', ?_, ?_⟩, hadd'⟩
  · rw [hadd']
    exact hv.sorted.sublist List.erase_sublist
  · rw [hnum', hv.size, ← length_addrs, ← length_addrs, hadd', List.length_erase_of_mem hmem]

/-! ## Changing a key -/

/-- A tree whose members all compare under `compar'` as under `compar` is
valid for both. -/
theorem Valid.rekey {compar' : Nat → Nat → Ordering} (hv : Valid compar t s)
    (hagree : ∀ a ∈ addrs s, ∀ b ∈ addrs s, compar' a b = compar a b) : Valid compar' t s :=
  ⟨hv.rep, hv.balanced, hv.sorted.imp_of_mem fun ha hb hab => (hagree _ ha _ hb).trans hab,
    hv.size⟩

/-- The caller changed the key of `obj`: `compar'` orders the other members
as `compar` did, and `obj` compares equal to none of them. `tmp` is the stack
temporary a reinsertion uses. -/
structure Rekeyed (compar compar' : Nat → Nat → Ordering) (s : Shape) (obj tmp : Nat) : Prop where
  mem : obj ∈ addrs s
  fresh : tmp ∉ addrs s
  agree : ∀ a ∈ addrs s, ∀ b ∈ addrs s, a ≠ obj → b ≠ obj → compar' a b = compar a b
  distinct : ∀ a ∈ addrs s, a ≠ obj → compar' obj a ≠ .eq

variable {compar' : Nat → Nat → Ordering} {obj tmp : Nat}

/-- A node whose new key still lies between its two neighbours leaves the
tree valid for the new order. -/
theorem Valid.rekey_between [Std.TransCmp compar] [Std.TransCmp compar'] (hv : Valid compar t s)
    (hk : Rekeyed compar compar' s obj tmp) (hp : ∀ p ∈ (addrs s).prevOf obj, compar' p obj = .lt)
    (hn : ∀ n ∈ (addrs s).nextOf obj, compar' obj n = .lt) : Valid compar' t s := by
  obtain ⟨A, B, hAB⟩ := List.append_of_mem hk.mem
  have hnd := hv.nodup
  rw [hAB] at hnd
  have hoA : obj ∉ A := fun h => (List.nodup_append.1 hnd).2.2 obj h obj List.mem_cons_self rfl
  have hoB : obj ∉ B := (List.nodup_cons.1 (List.nodup_append.1 hnd).2.1).1
  rw [hAB, List.prevOf_append_cons hoB] at hp
  rw [hAB, List.nextOf_append_cons hoA] at hn
  -- the other members keep their order
  have hrest : (A ++ B).Pairwise (fun a b => compar' a b = .lt) := by
    have hsub : (A ++ B).Sublist (addrs s) := by
      rw [hAB]
      exact List.Sublist.append_left (List.sublist_cons_self _ _) _
    refine (hv.sorted.sublist hsub).imp_of_mem fun {a b} ha hb hab => ?_
    have hne : ∀ z ∈ A ++ B, z ≠ obj := fun z hz h => by
      subst h
      rcases List.mem_append.1 hz with h | h
      exacts [hoA h, hoB h]
    rw [hk.agree a (hsub.subset ha) b (hsub.subset hb) (hne a ha) (hne b hb)]
    exact hab
  refine ⟨hv.rep, hv.balanced, ?_, hv.size⟩
  rw [hAB]
  exact List.pairwise_insert_between_of_adj compar' hrest hp hn

/-- `AVL_REINSERT` of a member whose key changed: removed under the old
order, added under the new one. -/
theorem valid_avlReinsert [Std.TransCmp compar] [Std.TransCmp compar'] (hv : Valid compar t s)
    (hk : Rekeyed compar compar' s obj tmp) :
    ∃ t' s', avlReinsert compar' t obj tmp = some t' ∧ Valid compar' t' s' := by
  obtain ⟨t₁, s₁, hrem, hv₁, hs₁⟩ := valid_avlRemove hv hk.mem hk.fresh
  have hsub : ∀ a ∈ addrs s₁, a ∈ addrs s ∧ a ≠ obj := by
    intro a ha
    rw [hs₁] at ha
    exact ⟨List.mem_of_mem_erase ha, fun h => hv.nodup.not_mem_erase (h ▸ ha)⟩
  have hv₁' : Valid compar' t₁ s₁ := hv₁.rekey fun a ha b hb =>
    hk.agree a (hsub a ha).1 b (hsub b hb).1 (hsub a ha).2 (hsub b hb).2
  obtain ⟨t₂, s₂, hadd, hv₂, -⟩ := valid_avlAdd hv₁' fun a ha =>
    hk.distinct a (hsub a ha).1 (hsub a ha).2
  exact ⟨t₂, s₂, by simp [avlReinsert, hrem, hadd], hv₂⟩

theorem lt_swap_of_ne [Std.OrientedCmp compar'] {a b : Nat} (h₁ : compar' a b ≠ .lt)
    (h₂ : compar' a b ≠ .eq) : compar' b a = .lt := by
  rcases h : compar' a b
  · exact absurd h h₁
  · exact absurd h h₂
  · exact Std.OrientedCmp.gt_iff_lt.1 h

/-- What the `outOfOrder` test reads on a valid tree: the neighbour on side
`dir` in in-order sequence. -/
theorem outOfOrder_eq [Std.TransCmp compar] (hv : Valid compar t s) (hobj : obj ∈ addrs s)
    (dir : Fin 2) :
    outOfOrder compar' t obj dir =
      (if dir = 0 then (addrs s).prevOf obj else (addrs s).nextOf obj).any
        fun neighbor => compar' obj neighbor = if dir = 0 then .lt else .gt := by
  rcases fin2_cases dir with rfl | rfl
  · exact congrArg (Option.any _) (avlPrev_eq hv.rep hv.nodup hv.size hobj)
  · exact congrArg (Option.any _) (avlNext_eq hv.rep hv.nodup hv.size hobj)

/-- When the test passes for the previous node, it is below `obj` in the new
order. -/
theorem prev_lt_of_outOfOrder [Std.TransCmp compar] [Std.TransCmp compar'] (hv : Valid compar t s)
    (hk : Rekeyed compar compar' s obj tmp) (hout : outOfOrder compar' t obj 0 = false) :
    ∀ p ∈ (addrs s).prevOf obj, compar' p obj = .lt := by
  intro p hp
  rw [outOfOrder_eq hv hk.mem, if_pos rfl, Option.mem_def.1 hp] at hout
  refine lt_swap_of_ne (fun h => ?_) (hk.distinct p (List.mem_of_prevOf hp)
    (List.prevOf_ne hv.nodup hp))
  simp [h] at hout

/-- When the test passes for the next node, it is above `obj` in the new
order. -/
theorem lt_next_of_outOfOrder [Std.TransCmp compar] [Std.TransCmp compar'] (hv : Valid compar t s)
    (hk : Rekeyed compar compar' s obj tmp) (hout : outOfOrder compar' t obj 1 = false) :
    ∀ n ∈ (addrs s).nextOf obj, compar' obj n = .lt := by
  intro n hn
  rw [outOfOrder_eq hv hk.mem, if_neg (by decide), Option.mem_def.1 hn] at hout
  have hne := hk.distinct n (List.mem_of_nextOf hn) (List.nextOf_ne hv.nodup hn)
  rcases h : compar' obj n
  · rfl
  · exact absurd h hne
  · simp [h] at hout

/-- `avl_update_lt` after the key of `obj` changed, when the next node is
still above it (the `ASSERT` of avl.c:818-819). -/
theorem valid_avlUpdateLt [Std.TransCmp compar] [Std.TransCmp compar'] (hv : Valid compar t s)
    (hk : Rekeyed compar compar' s obj tmp) (hnext : ∀ n ∈ (addrs s).nextOf obj, compar' obj n ≠ .gt) :
    ∃ t' b s', avlUpdateLt compar' t obj tmp = some (t', b) ∧ Valid compar' t' s' := by
  obtain ⟨t₂, s₂, hre, hv₂⟩ := valid_avlReinsert hv hk
  rw [avlUpdateLt]
  split
  · exact ⟨t₂, true, s₂, by simp [hre], hv₂⟩
  · rename_i hout
    refine ⟨t, false, s, rfl, hv.rekey_between hk (prev_lt_of_outOfOrder hv hk (by simpa using hout))
      fun n hn => ?_⟩
    have hne := hk.distinct n (List.mem_of_nextOf hn) (List.nextOf_ne hv.nodup hn)
    rcases h : compar' obj n
    · rfl
    · exact absurd h hne
    · exact absurd h (hnext n hn)

/-- `avl_update_gt` after the key of `obj` changed, when the previous node is
still below it (the `ASSERT` of avl.c:835-836). -/
theorem valid_avlUpdateGt [Std.TransCmp compar] [Std.TransCmp compar'] (hv : Valid compar t s)
    (hk : Rekeyed compar compar' s obj tmp) (hprev : ∀ p ∈ (addrs s).prevOf obj, compar' obj p ≠ .lt) :
    ∃ t' b s', avlUpdateGt compar' t obj tmp = some (t', b) ∧ Valid compar' t' s' := by
  obtain ⟨t₂, s₂, hre, hv₂⟩ := valid_avlReinsert hv hk
  rw [avlUpdateGt]
  split
  · exact ⟨t₂, true, s₂, by simp [hre], hv₂⟩
  · rename_i hout
    refine ⟨t, false, s, rfl, hv.rekey_between hk (fun p hp => ?_)
      (lt_next_of_outOfOrder hv hk (by simpa using hout))⟩
    exact lt_swap_of_ne (hprev p hp) (hk.distinct p (List.mem_of_prevOf hp)
      (List.prevOf_ne hv.nodup hp))

/-- `avl_update` after the key of `obj` changed, in either direction. -/
theorem valid_avlUpdate [Std.TransCmp compar] [Std.TransCmp compar'] (hv : Valid compar t s)
    (hk : Rekeyed compar compar' s obj tmp) :
    ∃ t' b s', avlUpdate compar' t obj tmp = some (t', b) ∧ Valid compar' t' s' := by
  obtain ⟨t₂, s₂, hre, hv₂⟩ := valid_avlReinsert hv hk
  rw [avlUpdate]
  split
  · exact ⟨t₂, true, s₂, by simp [hre], hv₂⟩
  · rename_i hout₀
    split
    · exact ⟨t₂, true, s₂, by simp [hre], hv₂⟩
    · rename_i hout₁
      exact ⟨t, false, s, rfl, hv.rekey_between hk
        (prev_lt_of_outOfOrder hv hk (by simpa using hout₀))
        (lt_next_of_outOfOrder hv hk (by simpa using hout₁))⟩

/-- `avl_add` succeeds only after a failed search, and is then `avl_insert`
at the index it returned. -/
theorem avlAdd_eq_some {x : Nat} {t' : AvlTree} (h : avlAdd compar t x = some t') :
    ∃ w, avlFind compar t x = some (.notFound w) ∧ avlInsert t x w = some t' := by
  rw [avlAdd] at h
  split at h
  · rename_i w hf
    exact ⟨w, hf, h⟩
  · cases h

end

/-! ## Runs of the interface -/

/-- The trees a program builds through the interface of `avl.c`, with the
comparator they are ordered by. The comparator changes only where the caller
changes the key of one node and then calls an update function on it. The
side conditions are those `avl.h` states for each call, read on the tree the
heap lays out. -/
inductive Reachable : (Nat → Nat → Ordering) → AvlTree → Prop
  | create (compar : Nat → Nat → Ordering) [Std.TransCmp compar] (t : AvlTree) :
      Reachable compar (avlCreate t)
  | add {compar : Nat → Nat → Ordering} {t t' : AvlTree} (h : Reachable compar t) (x : Nat)
      (hx : avlAdd compar t x = some t') : Reachable compar t'
  | insert {compar : Nat → Nat → Ordering} {t t' : AvlTree} (h : Reachable compar t) (x : Nat)
      (w : AvlIndex) (hf : avlFind compar t x = some (.notFound w))
      (hi : avlInsert t x w = some t') : Reachable compar t'
  | insertHere {compar : Nat → Nat → Ordering} {t t' : AvlTree} (h : Reachable compar t)
      (x here : Nat) (d : Fin 2) (ho : ∀ s, Rep t s → OrderedHere compar s x here d)
      (hi : avlInsertHere t x here d = some t') : Reachable compar t'
  | remove {compar : Nat → Nat → Ordering} {t t' : AvlTree} (h : Reachable compar t)
      (data tmp : Nat) (hm : ∀ s, Rep t s → data ∈ addrs s ∧ tmp ∉ addrs s)
      (hr : avlRemove t data tmp = some t') : Reachable compar t'
  | updateLt {compar : Nat → Nat → Ordering} {t t' : AvlTree} {b : Bool} (h : Reachable compar t)
      (compar' : Nat → Nat → Ordering) [Std.TransCmp compar'] (obj tmp : Nat)
      (hk : ∀ s, Rep t s → Rekeyed compar compar' s obj tmp ∧
        ∀ n ∈ (addrs s).nextOf obj, compar' obj n ≠ .gt)
      (hu : avlUpdateLt compar' t obj tmp = some (t', b)) : Reachable compar' t'
  | updateGt {compar : Nat → Nat → Ordering} {t t' : AvlTree} {b : Bool} (h : Reachable compar t)
      (compar' : Nat → Nat → Ordering) [Std.TransCmp compar'] (obj tmp : Nat)
      (hk : ∀ s, Rep t s → Rekeyed compar compar' s obj tmp ∧
        ∀ p ∈ (addrs s).prevOf obj, compar' obj p ≠ .lt)
      (hu : avlUpdateGt compar' t obj tmp = some (t', b)) : Reachable compar' t'
  | update {compar : Nat → Nat → Ordering} {t t' : AvlTree} {b : Bool} (h : Reachable compar t)
      (compar' : Nat → Nat → Ordering) [Std.TransCmp compar'] (obj tmp : Nat)
      (hk : ∀ s, Rep t s → Rekeyed compar compar' s obj tmp)
      (hu : avlUpdate compar' t obj tmp = some (t', b)) : Reachable compar' t'

/-- Every comparator a run orders by is a total preorder. -/
theorem Reachable.transCmp {compar : Nat → Nat → Ordering} {t : AvlTree}
    (h : Reachable compar t) : Std.TransCmp compar := by
  induction h with
  | create => infer_instance
  | add _ _ _ ih => exact ih
  | insert _ _ _ _ _ ih => exact ih
  | insertHere _ _ _ _ _ _ ih => exact ih
  | remove _ _ _ _ _ ih => exact ih
  | updateLt => infer_instance
  | updateGt => infer_instance
  | update => infer_instance

/-- The run lemma: each operation of a run keeps `Valid`, so the whole run
does. -/
theorem Reachable.valid {compar : Nat → Nat → Ordering} {t : AvlTree} (h : Reachable compar t) :
    ∃ s, Valid compar t s := by
  induction h with
  | create compar t => exact ⟨nil, valid_avlCreate compar t⟩
  | add h x hx ih =>
    have := h.transCmp
    obtain ⟨s, hv⟩ := ih
    obtain ⟨w, hf, hi⟩ := avlAdd_eq_some hx
    obtain ⟨t'', s', hi', hv', -⟩ := valid_avlInsert hv hf
    rw [hi, Option.some.injEq] at hi'
    exact ⟨s', hi' ▸ hv'⟩
  | insert h x w hf hi ih =>
    have := h.transCmp
    obtain ⟨s, hv⟩ := ih
    obtain ⟨t'', s', hi', hv', -⟩ := valid_avlInsert hv hf
    rw [hi, Option.some.injEq] at hi'
    exact ⟨s', hi' ▸ hv'⟩
  | insertHere h x here d ho hi ih =>
    have := h.transCmp
    obtain ⟨s, hv⟩ := ih
    obtain ⟨t'', s', hi', hv'⟩ := valid_avlInsertHere hv (ho s hv.rep)
    rw [hi, Option.some.injEq] at hi'
    exact ⟨s', hi' ▸ hv'⟩
  | remove h data tmp hm hr ih =>
    have := h.transCmp
    obtain ⟨s, hv⟩ := ih
    obtain ⟨hmem, htmp⟩ := hm s hv.rep
    obtain ⟨t'', s', hr', hv', -⟩ := valid_avlRemove hv hmem htmp
    rw [hr, Option.some.injEq] at hr'
    exact ⟨s', hr' ▸ hv'⟩
  | updateLt h compar' obj tmp hk hu ih =>
    have := h.transCmp
    obtain ⟨s, hv⟩ := ih
    obtain ⟨hk, hnext⟩ := hk s hv.rep
    obtain ⟨t'', b', s', hu', hv'⟩ := valid_avlUpdateLt hv hk hnext
    rw [hu, Option.some.injEq, Prod.mk.injEq] at hu'
    exact ⟨s', hu'.1 ▸ hv'⟩
  | updateGt h compar' obj tmp hk hu ih =>
    have := h.transCmp
    obtain ⟨s, hv⟩ := ih
    obtain ⟨hk, hprev⟩ := hk s hv.rep
    obtain ⟨t'', b', s', hu', hv'⟩ := valid_avlUpdateGt hv hk hprev
    rw [hu, Option.some.injEq, Prod.mk.injEq] at hu'
    exact ⟨s', hu'.1 ▸ hv'⟩
  | update h compar' obj tmp hk hu ih =>
    have := h.transCmp
    obtain ⟨s, hv⟩ := ih
    obtain ⟨t'', b', s', hu', hv'⟩ := valid_avlUpdate hv (hk s hv.rep)
    rw [hu, Option.some.injEq, Prod.mk.injEq] at hu'
    exact ⟨s', hu'.1 ▸ hv'⟩

end ZfsOsx.Avl
