import ZfsOsx.Avl.Heap
import ZfsOsx.Lib.Ordered

/-!
# `avl_find` and the downward walks of `avl.c`

`avl_find` walks from `avl_root` down the child pointers the comparator
chooses, until it meets a node that compares equal or falls off the tree; then
`*where` is the insertion point, the last node visited and the side taken.
`descend` is the same search on a shape, kept as a zipper so that the
insertion point is the first frame of the path it returns.

The other downward walk of the file goes down one side as far as it can
(`avl_insert_here`, the neighbour search of `avl_remove`, `avl_walk`):
`descendLoop`.

* `findLoop_eq`, `avlFind_eq`: the pointer search follows `descend`. Its fuel is
  an artifact of the model (the C loop is unbounded); `avl_numnodes + 1` is
  always enough.
* `descendLoop_spec`: the walk to one end stops at the last node on that
  side.
* `plug_descend`: the search only moves the focus of the zipper.
-/
namespace ZfsOsx.Avl

/-- An `avl_index_t`: a node (NULL for the empty tree) and a child index, which
`AVL_MKINDEX` packs into one word. -/
abbrev AvlIndex := Option Nat × Fin 2

/-- What `avl_find` returns: the node that compares equal, or NULL together
with `*where`. -/
inductive FindResult
  | found (node : Nat)
  | notFound (index : AvlIndex)
  deriving DecidableEq, Repr

/-- The loop of `avl_find`; `child` is `avl_balance2child[1 + diff]`, with the
comparator's `-1, 0, 1` read as `lt, eq, gt`.
mirrors module/avl/avl.c:242-273 -/
def findLoop (compar : Nat → Nat → Ordering) (t : AvlTree) (value : Nat) :
    Nat → Option Nat → Option Nat → Fin 2 → Option FindResult
  | 0, _, _, _ => none
  | _ + 1, none, prev, child => some (.notFound (prev, child))
  | fuel + 1, some node, _, _ =>
    match compar value node with
    | .eq => some (.found node)
    | .lt => findLoop compar t value fuel (t.child node 0) (some node) 0
    | .gt => findLoop compar t value fuel (t.child node 1) (some node) 1

/-- `avl_find(tree, value, &where)`: from `avl_root`, with `prev = NULL` and
`child = 0`. -/
def avlFind (compar : Nat → Nat → Ordering) (t : AvlTree) (value : Nat) : Option FindResult :=
  findLoop compar t value (t.numnodes + 1) t.root none 0

/-- Follow `child[dir]` from `node` while it is not NULL.
mirrors module/avl/avl.c:147-150, 596-605, 699-702 -/
def descendLoop (t : AvlTree) (dir : Fin 2) : Nat → Nat → Option Nat
  | 0, _ => none
  | fuel + 1, node =>
    match t.child node dir with
    | none => some node
    | some c => descendLoop t dir fuel c

/-! ## The search on shapes -/

open BinaryTree

/-- The insertion point at the end of a path: its first frame's node and side;
`(NULL, 0)` for the empty path, which is how `avl_find` leaves `prev` and
`child` on an empty tree. -/
def indexOf : List (Frame (Nat × Int)) → AvlIndex
  | [] => (none, 0)
  | f :: _ => (some f.val.1, f.side)

/-- The search of `avl_find` in the subtree `s` below the path `fs`: the path
to the node that compares equal, or to the empty subtree where `value` goes. -/
@[grind] def descend (compar : Nat → Nat → Ordering) (value : Nat) :
    List (Frame (Nat × Int)) → Shape → List (Frame (Nat × Int)) × Shape
  | fs, nil => (fs, nil)
  | fs, node (a, b) l r =>
    match compar value a with
    | .eq => (fs, node (a, b) l r)
    | .lt => descend compar value (⟨0, (a, b), r⟩ :: fs) l
    | .gt => descend compar value (⟨1, (a, b), l⟩ :: fs) r

/-- What a search that stopped at `(fs, s)` reports. -/
def resultOf : List (Frame (Nat × Int)) × Shape → FindResult
  | (fs, nil) => .notFound (indexOf fs)
  | (_, node (a, _) _ _) => .found a

theorem plug_descend (compar : Nat → Nat → Ordering) (value : Nat)
    (fs : List (Frame (Nat × Int))) (s : Shape) :
    plug (descend compar value fs s).1 (descend compar value fs s).2 = plug fs s := by
  induction s generalizing fs with
  | nil => rfl
  | node v l r ihl ihr =>
    obtain ⟨a, b⟩ := v
    simp only [descend]
    split
    · rfl
    · exact ihl _
    · exact ihr _

/-- A search for a value that compares equal to nothing ends at an empty
subtree. -/
theorem descend_eq_nil {compar : Nat → Nat → Ordering} {value : Nat} {s : Shape}
    (h : ∀ a ∈ addrs s, compar value a ≠ .eq) (fs : List (Frame (Nat × Int))) :
    ∃ fs', descend compar value fs s = (fs', nil) := by
  induction s generalizing fs with
  | nil => exact ⟨fs, rfl⟩
  | node v l r ihl ihr =>
    obtain ⟨a, b⟩ := v
    simp only [addrs_node, List.mem_append, List.mem_cons] at h
    simp only [descend]
    split
    · rename_i heq
      exact absurd heq (h a (.inr (.inl rfl)))
    · exact ihl (fun z hz => h z (.inl hz)) _
    · exact ihr (fun z hz => h z (.inr (.inr hz))) _

/-- In an ordered tree the parts of a node's subtree sit on the right sides of
it. -/
theorem ordered_node {compar : Nat → Nat → Ordering} {fs : List (Frame (Nat × Int))} {a : Nat}
    {b : Int} {l r : Shape}
    (hs : (addrs (plug fs (node (a, b) l r))).Pairwise (fun x y => compar x y = .lt)) :
    (∀ z ∈ addrs l, compar z a = .lt) ∧ ∀ z ∈ addrs r, compar a z = .lt := by
  rw [addrs_plug, List.pairwise_append, List.pairwise_append, addrs_node,
    List.pairwise_append, List.pairwise_cons] at hs
  obtain ⟨⟨-, ⟨-, ⟨har, -⟩, hcross⟩, -⟩, -, -⟩ := hs
  exact ⟨fun z hz => hcross z hz a List.mem_cons_self, har⟩

/-- In an ordered tree the search keeps every value it passes on its left
below `value` and every value on its right above it. -/
theorem descend_bounds {compar : Nat → Nat → Ordering} [LtTransCmp compar] {value : Nat}
    {fs : List (Frame (Nat × Int))} {s : Shape}
    (hs : (addrs (plug fs s)).Pairwise (fun x y => compar x y = .lt))
    (hl : ∀ z ∈ (leftCtx fs).map Prod.fst, compar z value = .lt)
    (hr : ∀ z ∈ (rightCtx fs).map Prod.fst, compar value z = .lt) :
    (∀ z ∈ (leftCtx (descend compar value fs s).1).map Prod.fst, compar z value = .lt) ∧
      ∀ z ∈ (rightCtx (descend compar value fs s).1).map Prod.fst, compar value z = .lt := by
  induction s generalizing fs with
  | nil => exact ⟨hl, hr⟩
  | node v l r ihl ihr =>
    obtain ⟨a, b⟩ := v
    obtain ⟨hal, har⟩ := ordered_node hs
    simp only [descend]
    split
    · exact ⟨hl, hr⟩
    · -- `value < a`: `a` and its right subtree join the right context
      rename_i hlt
      refine ihl hs (by simpa [leftCtx, before] using hl) ?_
      simp only [rightCtx, after_zero, List.map_append, List.map_cons, List.mem_append,
        List.mem_cons, List.mem_map]
      rintro z ((rfl | ⟨⟨z', zb⟩, hz, rfl⟩) | hz)
      · exact hlt
      · exact LtTransCmp.lt_trans hlt (har z' (by simpa [addrs] using ⟨zb, hz⟩))
      · exact hr z (List.mem_map.2 hz)
    · -- `value > a`: `a` and its left subtree join the left context
      rename_i hgt
      have hlt : compar a value = .lt := Std.OrientedCmp.lt_of_gt hgt
      refine ihr hs ?_ (by simpa [rightCtx, after] using hr)
      simp only [leftCtx, before_one, List.map_append, List.map_cons, List.map_nil,
        List.mem_append, List.mem_cons, List.mem_map, List.not_mem_nil, or_false]
      rintro z (hz | ⟨⟨z', zb⟩, hz, rfl⟩ | rfl)
      · exact hl z (List.mem_map.2 hz)
      · exact LtTransCmp.lt_trans (hal z' (by simpa [addrs] using ⟨zb, hz⟩)) hlt
      · exact hlt

/-! ## The pointer walks follow the shape walks -/

section

variable {compar : Nat → Nat → Ordering} {t : AvlTree} {value : Nat}

/-- With more fuel than the height, the pointer search reports what `descend`
finds. -/
theorem findLoop_eq {s : Shape} (hs : Body t s) (fs : List (Frame (Nat × Int))) (fuel : Nat)
    (hf : s.height < fuel) :
    findLoop compar t value fuel (rootPtr s) (indexOf fs).1 (indexOf fs).2 =
      some (resultOf (descend compar value fs s)) := by
  induction s generalizing fs fuel with
  | nil =>
    obtain ⟨k, rfl⟩ : ∃ k, fuel = k + 1 := ⟨fuel - 1, by omega⟩
    rfl
  | node v l r ihl ihr =>
    obtain ⟨a, b⟩ := v
    obtain ⟨k, rfl⟩ : ∃ k, fuel = k + 1 := ⟨fuel - 1, by omega⟩
    obtain ⟨-, hl, hr, -, -, hbl, hbr⟩ := hs
    simp only [height] at hf
    simp only [rootPtr_node, findLoop, descend]
    split
    · rfl
    · rw [hl]; exact ihl hbl (⟨0, (a, b), r⟩ :: fs) k (by omega)
    · rw [hr]; exact ihr hbr (⟨1, (a, b), l⟩ :: fs) k (by omega)

theorem avlFind_eq {s : Shape} (hrep : Rep t s) (hn : t.numnodes = s.numNodes) :
    avlFind compar t value = some (resultOf (descend compar value [] s)) := by
  obtain ⟨hroot, -, hbody⟩ := hrep
  rw [avlFind, hroot]
  exact findLoop_eq hbody [] _ (by rw [hn]; exact Nat.lt_succ_of_le (height_le_numNodes s))

/-- The walk to the `dir` end of a nonempty subtree `s`: `s` is a path of
frames that all hang their subtree on the `dir` side, ending at a node `n`
with nothing on that side, and with more fuel than the height the pointer
walk stops at `n`. -/
theorem descendLoop_spec {s : Shape} (hs : Body t s) (dir : Fin 2) (a : Nat)
    (ha : rootPtr s = some a) (fuel : Nat) (hf : s.height ≤ fuel) :
    ∃ gs n nb x, s = plug gs (mk (1 - dir) (n, nb) x nil) ∧ (∀ g ∈ gs, g.side = dir) ∧
      descendLoop t dir fuel a = some n := by
  induction s generalizing fuel a with
  | nil => cases ha
  | node v l r ihl ihr =>
    obtain ⟨n, nb⟩ := v
    simp only [rootPtr_node, Option.some.injEq] at ha
    subst ha
    obtain ⟨k, rfl⟩ : ∃ k, fuel = k + 1 := ⟨fuel - 1, by simp at hf; omega⟩
    obtain ⟨-, hl, hr, -, -, hbl, hbr⟩ := hs
    simp only [height] at hf
    rcases fin2_cases dir with rfl | rfl
    · cases l with
      | nil => exact ⟨[], n, nb, r, rfl, by simp, by simp [descendLoop, hl]⟩
      | node w ll lr =>
        obtain ⟨m, mb⟩ := w
        obtain ⟨gs, p, pb, x, he, hg, hd⟩ := ihl hbl m rfl k (by omega)
        refine ⟨gs ++ [⟨0, (n, nb), r⟩], p, pb, x, ?_, ?_, ?_⟩
        · rw [plug_append, ← he]; rfl
        · simp only [List.mem_append, List.mem_singleton]
          rintro g (h | rfl)
          exacts [hg g h, rfl]
        · simp only [descendLoop, hl, rootPtr_node]; exact hd
    · cases r with
      | nil => exact ⟨[], n, nb, l, rfl, by simp, by simp [descendLoop, hr]⟩
      | node w rl rr =>
        obtain ⟨m, mb⟩ := w
        obtain ⟨gs, p, pb, x, he, hg, hd⟩ := ihr hbr m rfl k (by omega)
        refine ⟨gs ++ [⟨1, (n, nb), l⟩], p, pb, x, ?_, ?_, ?_⟩
        · rw [plug_append, ← he]; rfl
        · simp only [List.mem_append, List.mem_singleton]
          rintro g (h | rfl)
          exacts [hg g h, rfl]
        · simp only [descendLoop, hr, rootPtr_node]; exact hd

end

end ZfsOsx.Avl
