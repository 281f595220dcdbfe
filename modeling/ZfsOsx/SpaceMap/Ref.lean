import ZfsOsx.SpaceMap.Map
import ZfsOsx.Avl.Neighbours
/-!
# Reference trees: unions and intersections of space maps

`space_map_ref_add_map` (space_map.c:572-581) turns a space map into nodes of
an AVL tree of references, `+refcnt` at each segment start and `-refcnt` at
each end, ordered by offset and then by node address. The tree is the AVL tree
of `ZfsOsx.Avl` under `space_map_ref_compare`; the fields of the nodes are the
heap `ref`, and the addresses `kmem_alloc` returns are arguments.
`space_map_ref_generate_map` walks the tree in order with a running count
and adds to a space map the stretches where the count is at least `minref`.

Nodes at one offset come in address order, which is anyone's, so the
running count may cross `minref` and back at one offset; an empty stretch is
not added (`end > start`) and touching stretches merge in `space_map_add`.
The count is an `int64_t`.

* `SweepInv`: after each node, what the map holds below the node's offset is
  what the count says there, and an open stretch starts at `start`.
* `space_map_ref_generate_covers`: given maps added with refcounts whose sum
  fits the `int64_t` count, the map generated covers exactly the offsets
  where the refcounts of the maps covering them add up to `minref`.
-/
namespace ZfsOsx.Space

open Sweep ZfsOsx.Avl

/-- `space_ref_t` (space_map.h:61-65). -/
structure SpaceRef where
  srOffset : Nat
  srRefcnt : Int
  deriving DecidableEq, Repr

/-- The node as an event of `Sweep`. -/
@[grind] def SpaceRef.toEvent (sr : SpaceRef) : ℕ × ℤ := (sr.srOffset, sr.srRefcnt)

@[simp] theorem SpaceRef.toEvent_fst (sr : SpaceRef) : sr.toEvent.1 = sr.srOffset := rfl
@[simp] theorem SpaceRef.toEvent_snd (sr : SpaceRef) : sr.toEvent.2 = sr.srRefcnt := rfl

/-- `space_map_ref_compare` (space_map.c:511-528) on the nodes at addresses `a`
and `b`, whose fields are `ref a` and `ref b`: by offset, then by address. -/
def spaceMapRefCompare (ref : Nat → SpaceRef) (a b : Nat) : Ordering :=
  if (ref a).srOffset < (ref b).srOffset then .lt
  else if (ref a).srOffset > (ref b).srOffset then .gt
  else if a < b then .lt
  else if a > b then .gt
  else .eq

/-- `space_map_ref_add_node(t, offset, refcnt)` (space_map.c:549-559): `sr` is
the node `kmem_alloc` returned; `none` where `avl_add` panics. -/
def spaceMapRefAddNode (t : AvlTree) (ref : Nat → SpaceRef) (sr offset : Nat) (refcnt : Int) :
    Option (AvlTree × (Nat → SpaceRef)) :=
  let ref := Function.update ref sr ⟨offset, refcnt⟩
  (avlAdd (spaceMapRefCompare ref) t sr).map fun t => (t, ref)

/-- `space_map_ref_add_seg(t, start, end, refcnt)` (space_map.c:561-567), with
the two nodes it allocates. -/
def spaceMapRefAddSeg (t : AvlTree) (ref : Nat → SpaceRef) (sr1 sr2 start end_ : Nat)
    (refcnt : Int) : Option (AvlTree × (Nat → SpaceRef)) :=
  (spaceMapRefAddNode t ref sr1 start refcnt).bind fun r =>
    spaceMapRefAddNode r.1 r.2 sr2 end_ (-refcnt)

/-- The loop of `space_map_ref_add_map` over the segments in order, with the
pair of nodes allocated for each; `none` also where the pairs run out. -/
def addMapLoop (t : AvlTree) (ref : Nat → SpaceRef) :
    List SpaceSeg → List (Nat × Nat) → Int → Option (AvlTree × (Nat → SpaceRef))
  | [], _, _ => some (t, ref)
  | _ :: _, [], _ => none
  | ss :: segs, (sr1, sr2) :: nodes, refcnt =>
    (spaceMapRefAddSeg t ref sr1 sr2 ss.ssStart ss.ssEnd refcnt).bind fun r =>
      addMapLoop r.1 r.2 segs nodes refcnt

/-- `space_map_ref_add_map(t, sm, refcnt)` (space_map.c:572-581). -/
def spaceMapRefAddMap (t : AvlTree) (ref : Nat → SpaceRef) (sm : SpaceMap) (refcnt : Int)
    (nodes : List (Nat × Nat)) : Option (AvlTree × (Nat → SpaceRef)) :=
  addMapLoop t ref sm.smRoot nodes refcnt

/-- `-1ULL`, the `start` of no open stretch. -/
def noStart : Nat := 2 ^ 64 - 1

/-- The locals of `space_map_ref_generate_map` (space_map.c:590-592) and the
map it fills. -/
structure GenState where
  start : Nat
  refcnt : Int
  sm : SpaceMap

/-- One round of the loop of `space_map_ref_generate_map` (space_map.c:597-611)
on a node with fields `sr`. The `int64_t` sum wraps. -/
def generateStep (minref : Int) (g : GenState) (sr : SpaceRef) : Option GenState :=
  let refcnt := (g.refcnt + sr.srRefcnt).bmod (2 ^ 64)
  if refcnt ≥ minref then
    if g.start = noStart then some ⟨sr.srOffset, refcnt, g.sm⟩ else some ⟨g.start, refcnt, g.sm⟩
  else if g.start ≠ noStart then
    let end_ := sr.srOffset
    if end_ > g.start then
      (spaceMapAdd g.sm g.start (end_ - g.start)).map fun sm => ⟨noStart, refcnt, sm⟩
    else some ⟨noStart, refcnt, g.sm⟩
  else some ⟨g.start, refcnt, g.sm⟩

/-- The loop `for (sr = avl_first(t); sr != NULL; sr = AVL_NEXT(t, sr))` for at
most `fuel` rounds. -/
def generateLoop (t : AvlTree) (ref : Nat → SpaceRef) (minref : Int) :
    Nat → Option Nat → GenState → Option GenState
  | _, none, g => some g
  | 0, some _, _ => none
  | fuel + 1, some sr, g =>
    (generateStep minref g (ref sr)).bind (generateLoop t ref minref fuel (avlNext t sr))

/-- `space_map_vacate(sm, NULL, NULL)` (space_map.c:226-240): the segments go
and `sm_space` is zero. -/
def spaceMapVacate (sm : SpaceMap) : SpaceMap := { sm with smRoot := [], smSpace := 0 }

/-- `space_map_ref_generate_map(t, sm, minref)` (space_map.c:586-616), the
loop given `avl_numnodes` rounds. -/
def spaceMapRefGenerateMap (t : AvlTree) (ref : Nat → SpaceRef) (sm : SpaceMap) (minref : Int) :
    Option SpaceMap :=
  (generateLoop t ref minref t.numnodes (avlFirst t) ⟨noStart, 0, spaceMapVacate sm⟩).map (·.sm)

/-! ## The order of the reference tree -/

/-- `space_map_ref_compare` is the order by offset, then by address. -/
theorem spaceMapRefCompare_eq_compareLex (ref : Nat → SpaceRef) :
    spaceMapRefCompare ref = compareLex (compareOn fun a => (ref a).srOffset) compare := by
  funext a b
  simp only [spaceMapRefCompare, compareLex, compareOn, Ordering.then]
  split_ifs with h1 h2 h3 h4
  · simp [Nat.compare_eq_lt.2 h1]
  · simp [Nat.compare_eq_gt.2 h2]
  -- equal offsets: the addresses decide
  all_goals
    have hoff : compare (ref a).srOffset (ref b).srOffset = .eq := Nat.compare_eq_eq.2 (by omega)
  · simp [hoff, Nat.compare_eq_lt.2 h3]
  · simp [hoff, Nat.compare_eq_gt.2 h4]
  · simp [hoff, Nat.compare_eq_eq.2 (show a = b by omega)]

instance (ref : Nat → SpaceRef) : Std.TransCmp (spaceMapRefCompare ref) := by
  rw [spaceMapRefCompare_eq_compareLex]
  infer_instance

/-! ## The walk of `space_map_ref_generate_map` -/

/-- A loop driven by `AVL_NEXT` runs its body over the nodes the walk visits,
in order. The induction is on the fuel. -/
theorem generateLoop_eq_foldlM {t : AvlTree} {ref : Nat → SpaceRef} {minref : Int} :
    ∀ (fuel : Nat) (x : Option Nat) (l : List Nat) (g : GenState), nextLoop t fuel x = some l →
      generateLoop t ref minref fuel x g = l.foldlM (fun g a => generateStep minref g (ref a)) g
  | fuel, none, l, g, h => by
    have hl : l = [] := by cases fuel <;> simpa [nextLoop, eq_comm] using h
    subst hl
    cases fuel <;> rfl
  | 0, some _, _, _, h => by simp [nextLoop] at h
  | fuel + 1, some a, l, g, h => by
    simp only [nextLoop, Option.map_eq_some_iff] at h
    obtain ⟨l', hl', rfl⟩ := h
    simp only [generateLoop, List.foldlM_cons]
    cases hs : generateStep minref g (ref a) with
    | none => rfl
    | some g' => exact generateLoop_eq_foldlM fuel _ l' g' hl'

/-! ## Building the reference tree -/

/-- `space_map_ref_create` and then `space_map_ref_add_map` of each map with
its refcount and the nodes allocated for it, as `vdev_dtl_reassess` does
(vdev.c:1773-1781). -/
def refAddMaps (t : AvlTree) (ref : Nat → SpaceRef) :
    List (SpaceMap × Int × List (Nat × Nat)) → Option (AvlTree × (Nat → SpaceRef))
  | [] => some (t, ref)
  | (sm, refcnt, nodes) :: rest =>
    (spaceMapRefAddMap t ref sm refcnt nodes).bind fun r => refAddMaps r.1 r.2 rest

/-- The nodes allocated for the segments, in order. -/
def nodeList (nodes : List (Nat × Nat)) : List Nat := nodes.flatMap fun p => [p.1, p.2]

theorem spaceMapRefCompare_eq_eq {ref : Nat → SpaceRef} {a b : Nat} :
    spaceMapRefCompare ref a b = .eq ↔ a = b := by
  unfold spaceMapRefCompare
  constructor
  · intro h
    split_ifs at h
    omega
  · rintro rfl
    simp

/-- A reference tree whose members are the nodes `used` in some order, laid
out as a valid AVL tree under `space_map_ref_compare` for the fields `ref`. -/
def RefTree (t : AvlTree) (ref : Nat → SpaceRef) (used : List Nat) : Prop :=
  ∃ s, Valid (spaceMapRefCompare ref) t s ∧ (addrs s).Perm used

theorem refTree_create (t : AvlTree) (ref : Nat → SpaceRef) : RefTree (avlCreate t) ref [] :=
  ⟨.nil, valid_avlCreate _ t, List.Perm.refl _⟩

/-- `space_map_ref_add_node` of a node not in the tree adds it, with its fields. -/
theorem RefTree.addNode {t : AvlTree} {ref : Nat → SpaceRef} {used : List Nat}
    (h : RefTree t ref used) {sr : Nat} (hsr : sr ∉ used) (offset : Nat) (refcnt : Int) :
    ∃ t', spaceMapRefAddNode t ref sr offset refcnt =
        some (t', Function.update ref sr ⟨offset, refcnt⟩) ∧
      RefTree t' (Function.update ref sr ⟨offset, refcnt⟩) (used ++ [sr]) := by
  obtain ⟨s, hv, hperm⟩ := h
  have hsr' : sr ∉ addrs s := fun h => hsr (hperm.subset h)
  -- the members keep their fields, so they compare as before
  have hv' : Valid (spaceMapRefCompare (Function.update ref sr ⟨offset, refcnt⟩)) t s :=
    hv.rekey fun a ha b hb => by
      have hab : a ≠ sr ∧ b ≠ sr := ⟨fun h => hsr' (h ▸ ha), fun h => hsr' (h ▸ hb)⟩
      simp [spaceMapRefCompare, Function.update_of_ne hab.1, Function.update_of_ne hab.2]
  have hne : ∀ a ∈ addrs s,
      spaceMapRefCompare (Function.update ref sr ⟨offset, refcnt⟩) sr a ≠ .eq :=
    fun a ha h => hsr' (spaceMapRefCompare_eq_eq.1 h ▸ ha)
  obtain ⟨t', s', hadd, hv'', hs'⟩ := valid_avlAdd hv' hne
  refine ⟨t', by simp [spaceMapRefAddNode, hadd], s', hv'', ?_⟩
  rw [hs']
  exact (List.perm_orderedInsert _ _ _).trans ((hperm.cons sr).trans (List.perm_append_singleton _ _).symm)

/-- The fields of the members in the order they were added. -/
@[grind] def RefEvents (ref : Nat → SpaceRef) (used : List Nat) : List (ℕ × ℤ) :=
  used.map fun a => (ref a).toEvent

theorem refEvents_update {ref : Nat → SpaceRef} {used : List Nat} {sr : Nat} (hsr : sr ∉ used)
    (v : SpaceRef) :
    RefEvents (Function.update ref sr v) (used ++ [sr]) = RefEvents ref used ++ [v.toEvent] := by
  simp only [RefEvents, List.map_append, List.map_singleton, Function.update_self]
  congr 1
  exact List.map_congr_left fun a ha => by
    rw [Function.update_of_ne (by rintro rfl; exact hsr ha)]

/-- `space_map_ref_add_seg` with two fresh nodes adds `+refcnt` at `start`
and `-refcnt` at `end`. -/
theorem RefTree.addSeg {t : AvlTree} {ref : Nat → SpaceRef} {used : List Nat}
    (h : RefTree t ref used) {sr1 sr2 : Nat} (hfresh : (used ++ [sr1, sr2]).Nodup)
    (start end_ : Nat) (refcnt : Int) :
    ∃ t' ref', spaceMapRefAddSeg t ref sr1 sr2 start end_ refcnt = some (t', ref') ∧
      RefTree t' ref' (used ++ [sr1, sr2]) ∧
      RefEvents ref' (used ++ [sr1, sr2]) = RefEvents ref used ++ [(start, refcnt), (end_, -refcnt)] := by
  have h1 : sr1 ∉ used := fun h => (List.nodup_append.1 hfresh).2.2 sr1 h sr1 (by simp) rfl
  have h2 : sr2 ∉ used ++ [sr1] := by
    have : (used ++ [sr1] ++ [sr2]).Nodup := by simpa using hfresh
    exact fun h => (List.nodup_append.1 this).2.2 sr2 h sr2 (by simp) rfl
  obtain ⟨t1, ha1, hr1⟩ := h.addNode h1 start refcnt
  obtain ⟨t2, ha2, hr2⟩ := hr1.addNode h2 end_ (-refcnt)
  refine ⟨t2, Function.update (Function.update ref sr1 ⟨start, refcnt⟩) sr2 ⟨end_, -refcnt⟩,
    by rw [spaceMapRefAddSeg, ha1, Option.bind_some, ha2], by simpa using hr2, ?_⟩
  have he := @refEvents_update (Function.update ref sr1 ⟨start, refcnt⟩) (used ++ [sr1]) sr2 h2
    ⟨end_, -refcnt⟩
  rw [refEvents_update h1 ⟨start, refcnt⟩] at he
  rw [show used ++ [sr1, sr2] = used ++ [sr1] ++ [sr2] by simp, he]
  simp [SpaceRef.toEvent]

/-- The nodes allocated for each map, in the order of the calls. -/
def callNodes (calls : List (SpaceMap × Int × List (Nat × Nat))) : List Nat :=
  calls.flatMap fun c => nodeList c.2.2

/-- The maps of the calls as weighted families of intervals. -/
@[grind] def refFams (calls : List (SpaceMap × Int × List (Nat × Nat))) : List (ℤ × List (ℕ × ℕ)) :=
  calls.map fun c => (c.2.1, c.1.smRoot.map SpaceSeg.toPair)

/-- The loop of `space_map_ref_add_map`, with a pair of fresh nodes for each
segment, adds the events of the map's segments. The induction is on the
segments. -/
theorem RefTree.addMapLoop_spec {t : AvlTree} {ref : Nat → SpaceRef} {used : List Nat}
    (h : RefTree t ref used) (segs : List SpaceSeg) (nodes : List (Nat × Nat))
    (hlen : nodes.length = segs.length) (hfresh : (used ++ nodeList nodes).Nodup) (refcnt : Int) :
    ∃ t' ref', addMapLoop t ref segs nodes refcnt = some (t', ref') ∧
      RefTree t' ref' (used ++ nodeList nodes) ∧
      RefEvents ref' (used ++ nodeList nodes) =
        RefEvents ref used ++ events refcnt (segs.map SpaceSeg.toPair) := by
  induction segs generalizing t ref used nodes with
  | nil =>
    obtain rfl : nodes = [] := List.eq_nil_of_length_eq_zero hlen
    exact ⟨t, ref, rfl, by simpa [nodeList] using h, by simp [nodeList]⟩
  | cons ss segs ih =>
    obtain ⟨⟨sr1, sr2⟩, nodes, rfl⟩ : ∃ p ns, nodes = p :: ns := by
      cases nodes with
      | nil => simp at hlen
      | cons p ns => exact ⟨p, ns, rfl⟩
    have hsplit : used ++ nodeList ((sr1, sr2) :: nodes) = (used ++ [sr1, sr2]) ++ nodeList nodes := by
      simp [nodeList]
    rw [hsplit] at hfresh ⊢
    obtain ⟨t1, ref1, hseg, hr1, he1⟩ := h.addSeg (hfresh.sublist (List.sublist_append_left _ _))
      ss.ssStart ss.ssEnd refcnt
    obtain ⟨t2, ref2, hloop, hr2, he2⟩ := ih hr1 nodes (by simpa using hlen) hfresh
    refine ⟨t2, ref2, by rw [addMapLoop, hseg, Option.bind_some, hloop], hr2, ?_⟩
    rw [he2, he1]
    simp

/-- The calls of `space_map_ref_add_map`, with fresh nodes, build a valid
reference tree whose nodes carry the events of all the maps. The induction is
on the calls. -/
theorem RefTree.refAddMaps_spec {t : AvlTree} {ref : Nat → SpaceRef} {used : List Nat}
    (h : RefTree t ref used) (calls : List (SpaceMap × Int × List (Nat × Nat)))
    (hlen : ∀ c ∈ calls, c.2.2.length = c.1.smRoot.length)
    (hfresh : (used ++ callNodes calls).Nodup) :
    ∃ t' ref', refAddMaps t ref calls = some (t', ref') ∧
      RefTree t' ref' (used ++ callNodes calls) ∧
      RefEvents ref' (used ++ callNodes calls) = RefEvents ref used ++ allEvents (refFams calls) := by
  induction calls generalizing t ref used with
  | nil => exact ⟨t, ref, rfl, by simpa [callNodes] using h, by simp [callNodes, refFams, allEvents]⟩
  | cons c calls ih =>
    obtain ⟨sm, refcnt, nodes⟩ := c
    have hsplit : used ++ callNodes ((sm, refcnt, nodes) :: calls) =
        (used ++ nodeList nodes) ++ callNodes calls := by
      simp [callNodes]
    rw [hsplit] at hfresh ⊢
    obtain ⟨t1, ref1, hmap, hr1, he1⟩ := h.addMapLoop_spec sm.smRoot nodes
      (hlen _ List.mem_cons_self) (hfresh.sublist (List.sublist_append_left _ _)) refcnt
    obtain ⟨t2, ref2, hrest, hr2, he2⟩ :=
      ih hr1 (fun c hc => hlen c (List.mem_cons_of_mem _ hc)) hfresh
    refine ⟨t2, ref2, by rw [refAddMaps, spaceMapRefAddMap, hmap, Option.bind_some, hrest], hr2, ?_⟩
    rw [he2, he1]
    simp [refFams, allEvents]

/-! ## The sweep -/

section Generate

variable {minref : Int} {sm0 : SpaceMap}

/-- The sum of the counts of the nodes `P`. -/
@[grind] def countSum (P : List SpaceRef) : Int := (P.map SpaceRef.srRefcnt).sum

@[simp] theorem countSum_nil : countSum [] = 0 := rfl

theorem countSum_append (P Q : List SpaceRef) : countSum (P ++ Q) = countSum P + countSum Q := by
  simp [countSum]

theorem countSum_singleton (e : SpaceRef) : countSum [e] = e.srRefcnt := by
  simp [countSum]

/-- Up to an offset below the next node, the count of the nodes so far. -/
theorem total_append_of_lt (P : List SpaceRef) {e : SpaceRef} {x : Nat} (hx : x < e.srOffset) :
    total ((P ++ [e]).map SpaceRef.toEvent) x = total (P.map SpaceRef.toEvent) x := by
  rw [List.map_append, total_append, List.map_singleton, total_cons, if_neg (by simpa using hx),
    total_nil]
  ring

/-- Past every node so far, their count is their sum. -/
theorem total_eq_countSum {P : List SpaceRef} {o x : Nat} (hle : ∀ e ∈ P, e.srOffset ≤ o)
    (hx : o ≤ x) : total (P.map SpaceRef.toEvent) x = countSum P := by
  rw [total_of_le (by simpa using fun e he => (hle e he).trans hx), List.map_map]
  rfl

/-- After the nodes `P`, all at offsets up to `o`: the count is their sum, a
stretch is open exactly when the count is at least `minref`, and below `o`
the map, with the open stretch, covers exactly where the count of `P` is at
least `minref`. The map stays a valid map with the range and unit of `sm0`. -/
structure SweepInv (minref : Int) (sm0 : SpaceMap) (P : List SpaceRef) (o : Nat) (g : GenState) :
    Prop where
  le_cut : ∀ e ∈ P, e.srOffset ≤ o
  refcnt : g.refcnt = countSum P
  open_iff : g.start ≠ noStart ↔ minref ≤ g.refcnt
  start_le : g.start ≠ noStart → g.start ≤ o
  start_ok : g.start ≠ noStart → sm0.smStart ≤ g.start ∧ g.start % 2 ^ sm0.smShift = 0
  cover_lt : ∀ x ∈ segCover g.sm.smRoot, x < o
  cover_lt_start : g.start ≠ noStart → ∀ x ∈ segCover g.sm.smRoot, x < g.start
  agree : ∀ x < o, minref ≤ total (P.map SpaceRef.toEvent) x ↔
    x ∈ segCover g.sm.smRoot ∨ (g.start ≠ noStart ∧ g.start ≤ x)
  valid : g.sm.Valid
  frame : g.sm.smStart = sm0.smStart ∧ g.sm.smSize = sm0.smSize ∧ g.sm.smShift = sm0.smShift

/-- The agreement after the next node at `e`: below `o` as it was, and from
`o` up to `e` the count is the old sum. -/
theorem agree_next {P : List SpaceRef} {e : SpaceRef} {o : Nat} (hle : ∀ p ∈ P, p.srOffset ≤ o)
    {Old New : Nat → Prop} (hold : ∀ x < o, minref ≤ total (P.map SpaceRef.toEvent) x ↔ Old x)
    (hbelow : ∀ x < o, Old x ↔ New x)
    (hmid : ∀ x, o ≤ x → x < e.srOffset → (minref ≤ countSum P ↔ New x)) :
    ∀ x < e.srOffset, minref ≤ total ((P ++ [e]).map SpaceRef.toEvent) x ↔ New x := by
  intro x hx
  rw [total_append_of_lt P hx]
  by_cases hxo : x < o
  · exact (hold x hxo).trans (hbelow x hxo)
  · rw [total_eq_countSum hle (not_lt.1 hxo)]
    exact hmid x (not_lt.1 hxo) hx

/-- One round of the loop keeps the invariant, for a node `e` at or past the
cut `o` whose count keeps the sum within `int64_t`, that lies in the map's
range and unit, and that is not at `-1ULL` if it counts up. -/
theorem SweepInv.step {P : List SpaceRef} {o : Nat} {g : GenState}
    (hi : SweepInv minref sm0 P o g) {e : SpaceRef} (hoe : o ≤ e.srOffset)
    (hsum : -2 ^ 63 ≤ countSum (P ++ [e]) ∧ countSum (P ++ [e]) < 2 ^ 63)
    (hpos : 0 < e.srRefcnt → e.srOffset ≠ noStart)
    (hin : sm0.smStart ≤ e.srOffset ∧ e.srOffset ≤ sm0.smStart + sm0.smSize ∧
      e.srOffset % 2 ^ sm0.smShift = 0) :
    ∃ g', generateStep minref g e = some g' ∧ SweepInv minref sm0 (P ++ [e]) e.srOffset g' := by
  have hgr := hi.refcnt
  have hsum' : countSum (P ++ [e]) = g.refcnt + e.srRefcnt := by
    rw [countSum_append, countSum_singleton, hgr]
  -- no `int64_t` overflow: the wrapped sum is the sum
  have hr : (g.refcnt + e.srRefcnt).bmod (2 ^ 64) = countSum (P ++ [e]) := by
    rw [hsum']
    exact Int.bmod_eq_of_le (by omega) (by omega)
  have hle : ∀ p ∈ P ++ [e], p.srOffset ≤ e.srOffset := by
    intro p hp
    rcases List.mem_append.1 hp with hp | hp
    · exact (hi.le_cut p hp).trans hoe
    · rw [List.mem_singleton.1 hp]
  have hcov : ∀ x ∈ segCover g.sm.smRoot, x < e.srOffset := fun x hx =>
    (hi.cover_lt x hx).trans_le hoe
  have hopen := hi.open_iff
  rw [hi.refcnt] at hopen
  unfold generateStep
  rw [hr]
  by_cases hup : minref ≤ countSum (P ++ [e])
  · rw [if_pos hup]
    by_cases hs : g.start = noStart
    · -- a stretch opens at `e`, which counts up
      have he : e.srOffset ≠ noStart := hpos (by
        have := (not_iff_not.2 hopen).1 (not_not.2 hs)
        omega)
      rw [if_pos hs]
      refine ⟨_, rfl, hle, rfl, ?_, fun _ => le_rfl, fun _ => ⟨hin.1, hin.2.2⟩, hcov,
        fun _ x hx => hcov x hx, ?_, hi.valid, hi.frame⟩
      · exact ⟨fun _ => hup, fun _ => he⟩
      · refine agree_next hi.le_cut hi.agree (fun x hx => ?_) (fun x hox hx => ?_)
        · simp only [hs, ne_eq, not_true_eq_false, false_and, or_false]
          constructor
          · exact .inl
          · rintro (h | ⟨-, h⟩)
            exacts [h, absurd h (by omega)]
        · have := (not_iff_not.2 hopen).1 (not_not.2 hs)
          constructor
          · intro h
            exact absurd h this
          · rintro (h | ⟨-, h⟩)
            · exact absurd (hi.cover_lt x h) (by omega)
            · exact absurd (show e.srOffset ≤ x from h) (by omega)
    · -- the open stretch goes on
      rw [if_neg hs]
      have hstart := hi.start_le hs
      refine ⟨_, rfl, hle, rfl, ⟨fun _ => hup, fun _ => hs⟩, fun _ => hstart.trans hoe,
        fun _ => hi.start_ok hs, hcov, fun _ => hi.cover_lt_start hs, ?_, hi.valid, hi.frame⟩
      refine agree_next hi.le_cut hi.agree (fun x _ => Iff.rfl) (fun x hox _ => ?_)
      exact ⟨fun _ => .inr ⟨hs, hstart.trans hox⟩, fun _ => hopen.1 hs⟩
  · rw [if_neg hup]
    by_cases hs : g.start = noStart
    · -- no stretch, and none opens
      rw [if_neg (not_not.2 hs)]
      refine ⟨_, rfl, hle, rfl, ⟨fun h => absurd hs h, fun h => absurd h hup⟩, fun h => absurd hs h,
        fun h => absurd hs h, hcov, fun h => absurd hs h, ?_, hi.valid, hi.frame⟩
      refine agree_next hi.le_cut hi.agree (fun x _ => Iff.rfl) (fun x hox _ => ?_)
      have := (not_iff_not.2 hopen).1 (not_not.2 hs)
      constructor
      · intro h
        exact absurd h this
      · rintro (h | ⟨h, -⟩)
        · exact absurd (hi.cover_lt x h) (by omega)
        · exact absurd hs h
    · -- the open stretch closes at `e`
      rw [if_pos hs]
      have hstart := hi.start_le hs
      have hbelow := hi.cover_lt_start hs
      have hclosed : ¬noStart ≠ noStart ↔ ¬minref ≤ countSum (P ++ [e]) := ⟨fun _ => hup, fun _ h => h rfl⟩
      by_cases hend : e.srOffset > g.start
      · rw [if_pos hend]
        obtain ⟨hsmStart, hsmSize, hsmShift⟩ := hi.frame
        obtain ⟨hs0, hsal⟩ := hi.start_ok hs
        obtain ⟨sm', hadd, hv', hcov', hst', hsz', hsh'⟩ := @spaceMapAdd_spec _ hi.valid
          g.start (e.srOffset - g.start) (by omega) (by omega) (by omega)
          (by rw [hsmShift]; exact hsal)
          (by rw [hsmShift]; exact Nat.sub_mod_eq_zero_of_mod_eq (hin.2.2.trans hsal.symm))
          (Set.disjoint_left.2 fun x hx hx' => absurd (hbelow x hx) (by simp at hx'; omega))
        rw [hadd]
        refine ⟨_, rfl, hle, rfl, not_iff_not.1 hclosed, fun h => absurd rfl h,
          fun h => absurd rfl h, ?_, fun h => absurd rfl h, ?_, hv', ?_⟩
        · intro x hx
          rw [hcov'] at hx
          rcases hx with hx | hx
          · exact hcov x hx
          · exact (Set.mem_Ico.1 hx).2.trans_le (by omega)
        · refine agree_next hi.le_cut hi.agree (fun x hx => ?_) (fun x hox hx => ?_)
          · simp only [hcov', Set.mem_union, Set.mem_Ico, ne_eq, not_true_eq_false, false_and,
              or_false, hs, not_false_eq_true, true_and]
            constructor
            · rintro (h | h)
              exacts [.inl h, .inr ⟨h, by omega⟩]
            · rintro (h | ⟨h, -⟩)
              exacts [.inl h, .inr h]
          · simp only [hcov', Set.mem_union, Set.mem_Ico, ne_eq, not_true_eq_false, false_and,
              or_false]
            exact ⟨fun _ => .inr ⟨hstart.trans hox, by omega⟩, fun _ => hopen.1 hs⟩
        · exact ⟨hst'.trans hsmStart, hsz'.trans hsmSize, hsh'.trans hsmShift⟩
      · -- an empty stretch is not added: it opened and closed at `e`
        rw [if_neg hend]
        refine ⟨_, rfl, hle, rfl, not_iff_not.1 hclosed, fun h => absurd rfl h,
          fun h => absurd rfl h, hcov, fun h => absurd rfl h, ?_, hi.valid, hi.frame⟩
        refine agree_next hi.le_cut hi.agree (fun x hx => ?_) (fun x hox hx => by omega)
        simp only [ne_eq, not_true_eq_false, false_and, or_false, hs, not_false_eq_true, true_and]
        exact ⟨fun h => h.elim id fun h => absurd h (by omega), .inl⟩

/-- Before the loop: no node seen, no stretch open, the map vacated. -/
theorem SweepInv.init (hmin : 0 < minref) (hsm : sm0.smStart + sm0.smSize < 2 ^ 64) :
    SweepInv minref sm0 [] 0 ⟨noStart, 0, spaceMapVacate sm0⟩ where
  le_cut := by simp
  refcnt := rfl
  open_iff := ⟨fun h => absurd rfl h, fun h => absurd h (show ¬minref ≤ 0 by omega)⟩
  start_le h := absurd rfl h
  start_ok h := absurd rfl h
  cover_lt := by simp [spaceMapVacate]
  cover_lt_start h := absurd rfl h
  agree x hx := absurd hx (Nat.not_lt_zero x)
  valid := ⟨separated_segs.2 ⟨by simp [spaceMapVacate], by simp [spaceMapVacate]⟩,
    by simp [spaceMapVacate], hsm, rfl⟩
  frame := ⟨rfl, rfl, rfl⟩

/-- The run lemma: from any point of the walk, the rest of the nodes keep the
invariant. The induction is on the nodes still to visit. -/
theorem SweepInv.run {V : List SpaceRef} (hsorted : V.Pairwise fun a b => a.srOffset ≤ b.srOffset)
    (hsum : ∀ P S, V = P ++ S → -2 ^ 63 ≤ countSum P ∧ countSum P < 2 ^ 63)
    (hpos : ∀ e ∈ V, 0 < e.srRefcnt → e.srOffset ≠ noStart)
    (hin : ∀ e ∈ V, sm0.smStart ≤ e.srOffset ∧ e.srOffset ≤ sm0.smStart + sm0.smSize ∧
      e.srOffset % 2 ^ sm0.smShift = 0) :
    ∀ (S P : List SpaceRef) (o : Nat) (g : GenState), V = P ++ S → (∀ e ∈ S, o ≤ e.srOffset) →
      SweepInv minref sm0 P o g →
      ∃ g' o', S.foldlM (generateStep minref) g = some g' ∧ SweepInv minref sm0 V o' g' ∧
        ∀ n, o ≤ n → (∀ e ∈ S, e.srOffset ≤ n) → o' ≤ n := by
  intro S
  induction S with
  | nil =>
    intro P o g hV _ hi
    rw [List.append_nil] at hV
    exact ⟨g, o, rfl, hV ▸ hi, fun _ h _ => h⟩
  | cons e S ih =>
    intro P o g hV hS hi
    have he : e ∈ V := by
      rw [hV]
      simp
    have hV' : V = (P ++ [e]) ++ S := by simp [hV]
    obtain ⟨g1, hstep, hi1⟩ := hi.step (hS e List.mem_cons_self) (hsum _ _ hV') (hpos e he)
      (hin e he)
    -- the nodes after `e` are at or past it
    have hafter : ∀ e' ∈ S, e.srOffset ≤ e'.srOffset := by
      rw [hV] at hsorted
      exact fun e' he' => List.rel_of_pairwise_cons (List.pairwise_append.1 hsorted).2.1 he'
    obtain ⟨g', o', hrun, hi', ho'⟩ := ih (P ++ [e]) e.srOffset g1 hV' hafter hi1
    exact ⟨g', o', by rw [List.foldlM_cons, hstep]; exact hrun, hi', fun n _ hn =>
      ho' n (hn e List.mem_cons_self) fun e' he' => hn e' (List.mem_cons_of_mem _ he')⟩

/-- The agreement holds at every offset: past the cut the count is the sum,
and the map lies below it. -/
theorem SweepInv.agree_all {V : List SpaceRef} {o : Nat} {g : GenState}
    (hi : SweepInv minref sm0 V o g) (x : Nat) : minref ≤ total (V.map SpaceRef.toEvent) x ↔
      x ∈ segCover g.sm.smRoot ∨ (g.start ≠ noStart ∧ g.start ≤ x) := by
  by_cases hx : x < o
  · exact hi.agree x hx
  · have hox := not_lt.1 hx
    rw [total_eq_countSum hi.le_cut hox, ← hi.refcnt, ← hi.open_iff]
    constructor
    · exact fun hs => Or.inr ⟨hs, (hi.start_le hs).trans hox⟩
    · rintro (hc | ⟨hs, -⟩)
      exacts [absurd (hi.cover_lt x hc) hx, hs]

/-- At the end, with the count back at zero: the map covers exactly where the
count of all the nodes is at least `minref`. -/
theorem SweepInv.cover_iff {V : List SpaceRef} {o : Nat} {g : GenState}
    (hi : SweepInv minref sm0 V o g) (hzero : countSum V = 0) (hmin : 0 < minref) (x : Nat) :
    x ∈ segCover g.sm.smRoot ↔ minref ≤ total (V.map SpaceRef.toEvent) x := by
  have hclosed : g.start = noStart := by
    by_contra h
    have := hi.open_iff.1 h
    rw [hi.refcnt, hzero] at this
    omega
  rw [hi.agree_all x, hclosed]
  simp

end Generate

/-! ## Unions and intersections -/

/-- The refcounts of the maps of the calls that cover `x`. -/
def refcntAt (calls : List (SpaceMap × Int × List (Nat × Nat))) (x : Nat) : Int :=
  (calls.map fun c => if x ∈ segCover c.1.smRoot then c.2.1 else 0).sum

theorem refcntAt_eq_weightAt (calls : List (SpaceMap × Int × List (Nat × Nat))) (x : Nat) :
    refcntAt calls x = weightAt (refFams calls) x := by
  simp only [refcntAt, weightAt, refFams, List.map_map]
  rfl

/-- A node before another in the reference tree is at or before its offset. -/
theorem offset_le_of_compare_lt {ref : Nat → SpaceRef} {a b : Nat}
    (h : spaceMapRefCompare ref a b = .lt) : (ref a).srOffset ≤ (ref b).srOffset := by
  unfold spaceMapRefCompare at h
  split_ifs at h <;> omega

/-- The nodes of a reference tree as the sweep visits them: their events are
those of the families, sorted by offset; every prefix count fits the
`int64_t` count and the whole count is zero; and each node lies in the range
and unit of `sm0`. -/
theorem RefTree.sweepList {t : AvlTree} {ref : Nat → SpaceRef} {used : List Nat}
    (h : RefTree t ref used) {fams : List (ℤ × List (ℕ × ℕ))} {sm0 : SpaceMap}
    (hev : (RefEvents ref used).Perm (allEvents fams)) (hsep : ∀ f ∈ fams, Separated f.2)
    (hlo : -2 ^ 63 ≤ (fams.map fun f => min f.1 0).sum)
    (hhi : (fams.map fun f => max f.1 0).sum < 2 ^ 63)
    (hin : ∀ f ∈ fams, ∀ p ∈ f.2, sm0.smStart ≤ p.1 ∧ p.2 ≤ sm0.smStart + sm0.smSize ∧
      p.1 % 2 ^ sm0.smShift = 0 ∧ p.2 % 2 ^ sm0.smShift = 0) :
    ∃ V : List SpaceRef,
      (∀ minref g, generateLoop t ref minref t.numnodes (avlFirst t) g =
        V.foldlM (generateStep minref) g) ∧
      (V.map SpaceRef.toEvent).Perm (allEvents fams) ∧
      V.Pairwise (fun a b => a.srOffset ≤ b.srOffset) ∧
      (∀ P S, V = P ++ S → -2 ^ 63 ≤ countSum P ∧ countSum P < 2 ^ 63) ∧ countSum V = 0 ∧
      ∀ e ∈ V, sm0.smStart ≤ e.srOffset ∧ e.srOffset ≤ sm0.smStart + sm0.smSize ∧
        e.srOffset % 2 ^ sm0.smShift = 0 := by
  obtain ⟨s, hv, hperm⟩ := h
  -- the sweep visits the nodes in tree order
  have hV : (((addrs s).map ref).map SpaceRef.toEvent).Perm (allEvents fams) := by
    have h' : (RefEvents ref (addrs s)).Perm (RefEvents ref used) := hperm.map _
    simpa [RefEvents, List.map_map, Function.comp_def] using h'.trans hev
  have hsorted : ((addrs s).map ref).Pairwise fun a b => a.srOffset ≤ b.srOffset :=
    List.pairwise_map.2 (hv.sorted.imp offset_le_of_compare_lt)
  refine ⟨(addrs s).map ref, fun minref g => ?_, hV, hsorted, fun P S hPS => ?_, ?_, fun e he => ?_⟩
  · rw [generateLoop_eq_foldlM _ _ _ _ (nextLoop_avlFirst hv), ← List.foldlM_map]
  · -- every prefix has a count between the negative and the positive weights
    have hb := prefix_sum_bounds hsep hV (List.pairwise_map.2 hsorted) (by rw [hPS, List.map_append])
    have hc : countSum P = ((P.map SpaceRef.toEvent).map Prod.snd).sum := by
      simp [countSum, Function.comp_def]
    omega
  · have h := sum_allEvents fams
    rw [← (hV.map Prod.snd).sum_eq] at h
    simpa [countSum, Function.comp_def] using h
  · -- a node is a segment's start or its end
    obtain ⟨f, hf, p, hp, hse⟩ := mem_allEvents.1 (hV.subset (List.mem_map_of_mem he))
    have hlt := (hsep f hf).lt p hp
    have := hin f hf p hp
    rcases hse with hse | hse <;> simp only [SpaceRef.toEvent, Prod.mk.injEq] at hse <;>
      rw [hse.1] <;> omega

/-- The sweep of `space_map_ref_generate_map` over a reference tree whose
nodes carry the events of weighted families of intervals, ties in any order:
when the weights keep every prefix count in the range of the `int64_t` count,
the map it makes covers exactly the offsets where the weights of the families
that cover them add up to `minref` or more. A weight may be negative, as the
`-1` segment of `vdev_dtl_reassess` is; an entry that adds to the count must
not sit at `noStart`. -/
theorem RefTree.generate_covers {t : AvlTree} {ref : Nat → SpaceRef} {used : List Nat}
    (h : RefTree t ref used) {fams : List (ℤ × List (ℕ × ℕ))} {sm0 : SpaceMap} {minref : Int}
    (hev : (RefEvents ref used).Perm (allEvents fams)) (hsep : ∀ f ∈ fams, Separated f.2)
    (hlo : -2 ^ 63 ≤ (fams.map fun f => min f.1 0).sum)
    (hhi : (fams.map fun f => max f.1 0).sum < 2 ^ 63)
    (hup : ∀ f ∈ fams, ∀ p ∈ f.2, (0 < f.1 → p.1 ≠ noStart) ∧ (f.1 < 0 → p.2 ≠ noStart))
    (hin : ∀ f ∈ fams, ∀ p ∈ f.2, sm0.smStart ≤ p.1 ∧ p.2 ≤ sm0.smStart + sm0.smSize ∧
      p.1 % 2 ^ sm0.smShift = 0 ∧ p.2 % 2 ^ sm0.smShift = 0)
    (hmin : 0 < minref) (hsm0 : sm0.smStart + sm0.smSize < 2 ^ 64) :
    ∃ sm, spaceMapRefGenerateMap t ref sm0 minref = some sm ∧ sm.Valid ∧
      (sm.smStart = sm0.smStart ∧ sm.smSize = sm0.smSize ∧ sm.smShift = sm0.smShift) ∧
      ∀ x, x ∈ segCover sm.smRoot ↔ minref ≤ weightAt fams x := by
  obtain ⟨V, hloop, hV, hsorted, hsumV, hzero, hinV⟩ := h.sweepList hev hsep hlo hhi hin
  -- an entry adds when it starts a positive family or ends a negative one
  have hpos : ∀ e ∈ V, 0 < e.srRefcnt → e.srOffset ≠ noStart := by
    intro e he hr
    obtain ⟨f, hf, p, hp, hse | hse⟩ := mem_allEvents.1 (hV.subset (List.mem_map_of_mem he)) <;>
      simp only [SpaceRef.toEvent, Prod.mk.injEq] at hse <;> rw [hse.1]
    · exact (hup f hf p hp).1 (by omega)
    · exact (hup f hf p hp).2 (by omega)
  obtain ⟨g, o, hrun, hi, -⟩ := SweepInv.run hsorted hsumV hpos hinV V [] 0 _ rfl (by simp)
    (SweepInv.init hmin hsm0)
  refine ⟨g.sm, by rw [spaceMapRefGenerateMap, hloop, hrun]; rfl, hi.valid, hi.frame, fun x => ?_⟩
  rw [hi.cover_iff hzero hmin, total_perm hV, total_allEvents hsep]

/-! ## A map whose range ends at `-1ULL` -/

/-- A list sorted by offset is its nodes before `n` and then those at or past it. -/
theorem split_sorted_lt {V : List SpaceRef} (hs : V.Pairwise fun a b => a.srOffset ≤ b.srOffset)
    (n : Nat) : ∃ P Q, V = P ++ Q ∧ (∀ e ∈ P, e.srOffset < n) ∧ ∀ e ∈ Q, n ≤ e.srOffset := by
  induction V with
  | nil => exact ⟨[], [], rfl, by simp, by simp⟩
  | cons a V ih =>
    obtain ⟨ha, hs⟩ := List.pairwise_cons.1 hs
    by_cases han : a.srOffset < n
    · obtain ⟨P, Q, rfl, hP, hQ⟩ := ih hs
      refine ⟨a :: P, Q, rfl, ?_, hQ⟩
      rintro e (_ | ⟨_, he⟩)
      exacts [han, hP e he]
    · refine ⟨[], a :: V, rfl, by simp, ?_⟩
      rintro e (_ | ⟨_, he⟩)
      · omega
      · exact le_trans (by omega) (ha e he)

section Top

variable {minref : Int} {sm0 : SpaceMap}

/-- While the nodes at `-1ULL` are visited, after the nodes `P` before it
left `g`: a stretch still open is `g`'s, with the count at least `minref`;
once none is open, the map covers `g`'s and `g`'s open stretch up to
`-1ULL`. -/
structure TailInv (minref : Int) (sm0 : SpaceMap) (g h : GenState) : Prop where
  valid : h.sm.Valid
  frame : h.sm.smStart = sm0.smStart ∧ h.sm.smSize = sm0.smSize ∧ h.sm.smShift = sm0.smShift
  opened : h.start ≠ noStart → h.start = g.start ∧ h.sm = g.sm ∧ minref ≤ h.refcnt
  closed : h.start = noStart → segCover h.sm.smRoot =
    segCover g.sm.smRoot ∪ if g.start ≠ noStart then Set.Ico g.start noStart else ∅

theorem TailInv.init {P : List SpaceRef} {o : Nat} {g : GenState} (hi : SweepInv minref sm0 P o g) :
    TailInv minref sm0 g g where
  valid := hi.valid
  frame := hi.frame
  opened hs := ⟨rfl, rfl, hi.open_iff.1 hs⟩
  closed hs := by simp [hs]

/-- A node at `-1ULL` keeps `TailInv`: it opens nothing, and closes an open
stretch at `-1ULL`. -/
theorem TailInv.step {P : List SpaceRef} {o : Nat} {g h : GenState}
    (hi : SweepInv minref sm0 P o g) (ho : o ≤ noStart) (ht : TailInv minref sm0 g h)
    {e : SpaceRef} (he : e.srOffset = noStart) (hal : e.srOffset % 2 ^ sm0.smShift = 0)
    (htop : sm0.smStart + sm0.smSize = noStart)
    (hsum : -2 ^ 63 ≤ h.refcnt + e.srRefcnt ∧ h.refcnt + e.srRefcnt < 2 ^ 63) :
    ∃ h', generateStep minref h e = some h' ∧ h'.refcnt = h.refcnt + e.srRefcnt ∧
      TailInv minref sm0 g h' := by
  have hr : (h.refcnt + e.srRefcnt).bmod (2 ^ 64) = h.refcnt + e.srRefcnt :=
    Int.bmod_eq_of_le (by omega) (by omega)
  unfold generateStep
  rw [hr]
  by_cases hup : minref ≤ h.refcnt + e.srRefcnt
  · rw [if_pos hup]
    by_cases hs : h.start = noStart
    · -- the stretch it would open starts at `-1ULL`: none
      rw [if_pos hs]
      exact ⟨_, rfl, rfl, ht.valid, ht.frame, fun h' => absurd he h', fun _ => ht.closed hs⟩
    · rw [if_neg hs]
      obtain ⟨hg, hsm, -⟩ := ht.opened hs
      exact ⟨_, rfl, rfl, ht.valid, ht.frame, fun _ => ⟨hg, hsm, hup⟩, fun h' => absurd h' hs⟩
  · rw [if_neg hup]
    by_cases hs : h.start = noStart
    · rw [if_neg (not_not.2 hs)]
      exact ⟨_, rfl, rfl, ht.valid, ht.frame, fun h' => absurd hs h', fun _ => ht.closed hs⟩
    · -- the open stretch, `g`'s, closes at `-1ULL`
      rw [if_pos hs]
      obtain ⟨hg, hsm, -⟩ := ht.opened hs
      have hgs : g.start ≠ noStart := hg ▸ hs
      have hlt : g.start < noStart := lt_of_le_of_ne ((hi.start_le hgs).trans ho) hgs
      obtain ⟨hs0, hsal⟩ := hi.start_ok hgs
      obtain ⟨hsmStart, hsmSize, hsmShift⟩ := hi.frame
      rw [if_pos (show e.srOffset > h.start by omega), hg, hsm]
      obtain ⟨sm', hadd, hv', hcov', hst', hsz', hsh'⟩ := @spaceMapAdd_spec _ hi.valid
        g.start (e.srOffset - g.start) (by omega) (by omega) (by omega)
        (by rw [hsmShift]; exact hsal)
        (by rw [hsmShift]; exact Nat.sub_mod_eq_zero_of_mod_eq (hal.trans hsal.symm))
        (Set.disjoint_left.2 fun x hx hx' =>
          absurd (hi.cover_lt_start hgs x hx) (by simp at hx'; omega))
      rw [hadd]
      refine ⟨_, rfl, rfl, hv', ?_, fun h' => absurd rfl h', fun _ => ?_⟩
      · exact ⟨hst'.trans hsmStart, hsz'.trans hsmSize, hsh'.trans hsmShift⟩
      · rw [hcov', if_pos hgs, he, show g.start + (noStart - g.start) = noStart by omega]

/-- The run over the nodes at `-1ULL`. The induction is on those nodes. -/
theorem TailInv.run {P : List SpaceRef} {o : Nat} {g : GenState} (hi : SweepInv minref sm0 P o g)
    (ho : o ≤ noStart) (htop : sm0.smStart + sm0.smSize = noStart) :
    ∀ (Q : List SpaceRef) (h : GenState), TailInv minref sm0 g h →
      (∀ e ∈ Q, e.srOffset = noStart ∧ e.srOffset % 2 ^ sm0.smShift = 0) →
      (∀ Q1 Q2, Q = Q1 ++ Q2 → -2 ^ 63 ≤ h.refcnt + countSum Q1 ∧ h.refcnt + countSum Q1 < 2 ^ 63) →
      ∃ h', Q.foldlM (generateStep minref) h = some h' ∧ h'.refcnt = h.refcnt + countSum Q ∧
        TailInv minref sm0 g h' := by
  intro Q
  induction Q with
  | nil => exact fun h ht _ _ => ⟨h, rfl, by simp, ht⟩
  | cons e Q ih =>
    intro h ht hQ hsum
    have hb := hsum [e] Q rfl
    rw [countSum_singleton] at hb
    obtain ⟨h1, hstep, hr1, ht1⟩ := ht.step hi ho (hQ e List.mem_cons_self).1
      (hQ e List.mem_cons_self).2 htop hb
    obtain ⟨h', hrun, hr', ht'⟩ := ih h1 ht1 (fun d hd => hQ d (List.mem_cons_of_mem _ hd))
      fun Q1 Q2 hQ12 => by
        have := hsum (e :: Q1) Q2 (by rw [hQ12]; rfl)
        rw [show e :: Q1 = [e] ++ Q1 from rfl, countSum_append, countSum_singleton] at this
        rw [hr1]
        constructor <;> linarith [this.1, this.2]
    refine ⟨h', by rw [List.foldlM_cons, hstep]; exact hrun, ?_, ht'⟩
    rw [hr', hr1, show e :: Q = [e] ++ Q from rfl, countSum_append, countSum_singleton]
    ring

end Top

/-- The sweep into a map whose range ends at `-1ULL`, as the DTL maps' does:
the nodes at `-1ULL` come last, and whatever their order there they open no
stretch, so no condition on where positive weights sit is needed. -/
theorem RefTree.generate_covers_top {t : AvlTree} {ref : Nat → SpaceRef} {used : List Nat}
    (h : RefTree t ref used) {fams : List (ℤ × List (ℕ × ℕ))} {sm0 : SpaceMap} {minref : Int}
    (hev : (RefEvents ref used).Perm (allEvents fams)) (hsep : ∀ f ∈ fams, Separated f.2)
    (hlo : -2 ^ 63 ≤ (fams.map fun f => min f.1 0).sum)
    (hhi : (fams.map fun f => max f.1 0).sum < 2 ^ 63)
    (hin : ∀ f ∈ fams, ∀ p ∈ f.2, sm0.smStart ≤ p.1 ∧ p.2 ≤ sm0.smStart + sm0.smSize ∧
      p.1 % 2 ^ sm0.smShift = 0 ∧ p.2 % 2 ^ sm0.smShift = 0)
    (hmin : 0 < minref) (htop : sm0.smStart + sm0.smSize = noStart) :
    ∃ sm, spaceMapRefGenerateMap t ref sm0 minref = some sm ∧ sm.Valid ∧
      (sm.smStart = sm0.smStart ∧ sm.smSize = sm0.smSize ∧ sm.smShift = sm0.smShift) ∧
      ∀ x, x ∈ segCover sm.smRoot ↔ minref ≤ weightAt fams x := by
  obtain ⟨V, hloop, hV, hsorted, hsumV, hzero, hinV⟩ := h.sweepList hev hsep hlo hhi hin
  -- the nodes before `-1ULL`, and then those at it
  obtain ⟨P, Q, rfl, hP, hQ⟩ := split_sorted_lt hsorted noStart
  have hQ' : ∀ e ∈ Q, e.srOffset = noStart ∧ e.srOffset % 2 ^ sm0.smShift = 0 := fun e he =>
    ⟨le_antisymm (htop ▸ (hinV e (List.mem_append_right _ he)).2.1) (hQ e he),
      (hinV e (List.mem_append_right _ he)).2.2⟩
  have hsm0 : sm0.smStart + sm0.smSize < 2 ^ 64 := by
    rw [htop, noStart]
    omega
  obtain ⟨g, o, hrun, hi, hob⟩ := SweepInv.run (List.pairwise_append.1 hsorted).1
    (fun P1 S1 hP1 => hsumV P1 (S1 ++ Q) (by rw [hP1, List.append_assoc]))
    (fun e he _ => (hP e he).ne) (fun e he => hinV e (List.mem_append_left _ he)) P [] 0 _ rfl
    (by simp) (SweepInv.init hmin hsm0)
  have ho : o ≤ noStart := hob noStart (Nat.zero_le _) fun e he => (hP e he).le
  obtain ⟨h', hrun', hr', ht'⟩ := TailInv.run hi ho htop Q g (TailInv.init hi) hQ'
    fun Q1 Q2 hQ12 => by
      rw [hi.refcnt, ← countSum_append]
      exact hsumV (P ++ Q1) Q2 (by rw [hQ12, List.append_assoc])
  -- with the count back at zero no stretch is left open
  have hclosed : h'.start = noStart := by
    by_contra hs
    have := (ht'.opened hs).2.2
    rw [hr', hi.refcnt, ← countSum_append, hzero] at this
    omega
  refine ⟨h'.sm, ?_, ht'.valid, ht'.frame, fun x => ?_⟩
  · rw [spaceMapRefGenerateMap, hloop, List.foldlM_append, hrun]
    simp only [Option.bind_eq_bind, Option.bind_some]
    rw [hrun']
    rfl
  rw [ht'.closed hclosed, ← total_allEvents hsep, ← total_perm hV, List.map_append, total_append]
  by_cases hx : x < noStart
  · -- below `-1ULL` the nodes at it count nothing
    have hQx : total (Q.map SpaceRef.toEvent) x = 0 :=
      total_of_lt (by simpa using fun e he => (hQ' e he).1 ▸ hx)
    rw [hQx, add_zero, hi.agree_all x]
    by_cases hgs : g.start = noStart <;> simp [hgs, hx]
  · -- at `-1ULL` the count is back at zero, and nothing is covered there
    rw [← total_append, ← List.map_append,
      total_eq_countSum (fun e he => htop ▸ (hinV e he).2.1) (not_lt.1 hx), hzero]
    constructor
    · rintro (hc | hc)
      · exact absurd ((hi.cover_lt x hc).trans_le ho) hx
      · split_ifs at hc
        exacts [absurd hc.2 hx, hc.elim]
    · intro h0
      omega

/-- The maps of `calls` added with `space_map_ref_add_map` to an empty
reference tree, each with its refcount, and then `space_map_ref_generate_map`
into `sm0` with `minref`: the map it makes covers exactly the offsets where
the refcounts of the maps that cover them add up to `minref` or more. The
walk of the tree may take the equal-offset entries in any order, as the
comparator orders them by node address. What the result needs: every map is
valid with a positive refcount and has two fresh nodes for each segment, the
refcounts add up to at most `INT64_MAX` (the running count is an `int64_t`),
and the segments lie in `sm0`'s range and are multiples of its unit (the
`VERIFY`s of `space_map_add`). -/
theorem space_map_ref_generate_covers (t0 : AvlTree) (ref0 : Nat → SpaceRef)
    (calls : List (SpaceMap × Int × List (Nat × Nat))) (sm0 : SpaceMap) (minref : Int)
    (hmaps : ∀ c ∈ calls, c.1.Valid ∧ 1 ≤ c.2.1 ∧ c.2.2.length = c.1.smRoot.length)
    (hnodes : (callNodes calls).Nodup) (hsum : (calls.map fun c => c.2.1).sum ≤ 2 ^ 63 - 1)
    (hmin : 1 ≤ minref) (hsm0 : sm0.smStart + sm0.smSize < 2 ^ 64)
    (hin : ∀ c ∈ calls, ∀ ss ∈ c.1.smRoot, sm0.smStart ≤ ss.ssStart ∧
      ss.ssEnd ≤ sm0.smStart + sm0.smSize ∧ ss.ssStart % 2 ^ sm0.smShift = 0 ∧
      ss.ssEnd % 2 ^ sm0.smShift = 0) :
    ∃ t ref sm, refAddMaps (avlCreate t0) ref0 calls = some (t, ref) ∧
      spaceMapRefGenerateMap t ref sm0 minref = some sm ∧ sm.Valid ∧
      ∀ x, x ∈ segCover sm.smRoot ↔ minref ≤ refcntAt calls x := by
  obtain ⟨t, ref, hbuild, htree, hev⟩ := (refTree_create t0 ref0).refAddMaps_spec calls
    (fun c hc => (hmaps c hc).2.2) (by simpa using hnodes)
  rw [List.nil_append] at htree hev
  have hev' : (RefEvents ref (callNodes calls)).Perm (allEvents (refFams calls)) := by
    rw [hev]
    simp [RefEvents]
  -- each map is a separated family with a positive weight, its segments in `sm0`
  have hfams : ∀ f ∈ refFams calls, Separated f.2 ∧ 1 ≤ f.1 ∧ ∀ p ∈ f.2,
      p.1 < noStart ∧ sm0.smStart ≤ p.1 ∧ p.2 ≤ sm0.smStart + sm0.smSize ∧
        p.1 % 2 ^ sm0.smShift = 0 ∧ p.2 % 2 ^ sm0.smShift = 0 := by
    intro f hf
    obtain ⟨c, hc, rfl⟩ := List.mem_map.1 hf
    refine ⟨(hmaps c hc).1.separated, (hmaps c hc).2.1, fun p hp => ?_⟩
    obtain ⟨ss, hss, rfl⟩ := List.mem_map.1 hp
    have hlt := (separated_segs.1 (hmaps c hc).1.separated).1 ss hss
    have hb := ((hmaps c hc).1.bounds ss hss).2
    have hr := (hmaps c hc).1.range
    refine ⟨?_, hin c hc ss hss⟩
    simp only [SpaceSeg.toPair, noStart]
    omega
  -- with no negative weight the count stays between 0 and the sum of the refcounts
  have hmax : ((refFams calls).map fun f => max f.1 0).sum = (calls.map fun c => c.2.1).sum := by
    rw [List.map_congr_left fun f hf => max_eq_left (by have := (hfams f hf).2.1; omega)]
    simp [refFams, Function.comp_def]
  have hmin0 : ((refFams calls).map fun f => min f.1 0).sum = 0 :=
    List.sum_eq_zero fun x hx => by
      obtain ⟨f, hf, rfl⟩ := List.mem_map.1 hx
      have := (hfams f hf).2.1
      omega
  have hlo : -2 ^ 63 ≤ ((refFams calls).map fun f => min f.1 0).sum := by omega
  have hhi : ((refFams calls).map fun f => max f.1 0).sum < 2 ^ 63 := by omega
  obtain ⟨sm, hgen, hvalid, -, hcov⟩ := htree.generate_covers hev' (fun f hf => (hfams f hf).1) hlo hhi
    (fun f hf p hp => ⟨fun _ => ((hfams f hf).2.2 p hp).1.ne,
      fun h => by have := (hfams f hf).2.1; omega⟩)
    (fun f hf p hp => ((hfams f hf).2.2 p hp).2) (show 0 < minref by omega) hsm0
  exact ⟨t, ref, sm, hbuild, hgen, hvalid, fun x => by rw [hcov, refcntAt_eq_weightAt]⟩

/-- Two overlapping maps with refcount 1 and `minref` 2: the generated map is
their intersection. -/
theorem space_map_ref_generate_covers_two :
    let t0 : AvlTree := ⟨none, 0, fun _ _ => none, fun _ => none, fun _ => 0, fun _ => 0⟩
    let calls : List (SpaceMap × Int × List (Nat × Nat)) :=
      [(⟨[⟨0, 4⟩], 4, 0, 16, 0⟩, 1, [(10, 11)]), (⟨[⟨2, 8⟩], 6, 0, 16, 0⟩, 1, [(12, 13)])]
    ∃ t ref sm, refAddMaps (avlCreate t0) (fun _ => ⟨0, 0⟩) calls = some (t, ref) ∧
      spaceMapRefGenerateMap t ref ⟨[], 0, 0, 16, 0⟩ 2 = some sm ∧ sm.Valid ∧
      ∀ x, x ∈ segCover sm.smRoot ↔ 2 ≤ refcntAt calls x := by
  intro t0 calls
  refine space_map_ref_generate_covers t0 _ calls _ 2 ?_ (by decide) (by decide) (by decide)
    (by decide) (by decide)
  intro c hc
  simp only [calls, List.mem_cons, List.not_mem_nil, or_false] at hc
  rcases hc with rfl | rfl <;>
    exact ⟨⟨separated_segs.2 ⟨by decide, by decide⟩, by decide, by decide, rfl⟩, by decide, rfl⟩

/-- Two maps with refcount 2^62 over the same offset: the running count wraps
past `INT64_MAX` there, and the generated map is empty though both maps
cover offset 0. -/
theorem space_map_ref_generate_covers_overflow :
    let t0 : AvlTree := ⟨none, 0, fun _ _ => none, fun _ => none, fun _ => 0, fun _ => 0⟩
    let m : SpaceMap := ⟨[⟨0, 1⟩], 1, 0, 16, 0⟩
    let calls : List (SpaceMap × Int × List (Nat × Nat)) :=
      [(m, 2 ^ 62, [(10, 11)]), (m, 2 ^ 62, [(12, 13)])]
    ((refAddMaps (avlCreate t0) (fun _ => ⟨0, 0⟩) calls).bind fun r =>
        spaceMapRefGenerateMap r.1 r.2 ⟨[], 0, 0, 16, 0⟩ 1).map (·.smRoot) = some [] ∧
      1 ≤ refcntAt calls 0 := by
  decide

end ZfsOsx.Space
