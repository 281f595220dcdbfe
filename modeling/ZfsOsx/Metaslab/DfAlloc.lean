import ZfsOsx.Avl.Neighbours
import ZfsOsx.SpaceMap.Map
import ZfsOsx.Compress.Zio
import Mathlib.Data.Nat.Size

/-!
# The dynamic-fit block allocator (`module/zfs/metaslab.c`)

A loaded space map keeps its free segments in two AVL trees over the same
`space_seg_t` nodes: `sm_root` by offset, with `space_map_seg_compare`, which
makes overlapping segments equal, and `sm_pp_root` by size and then offset,
with `metaslab_segsize_compare`. `metaslab_block_picker` searches a tree for
`[*cursor, *cursor + size)`, walks `AVL_NEXT` from the segment it found, or
from the next one, to the first that holds `size` bytes from its aligned
start, and starts once more from offset 0 when the walk runs out.
`metaslab_df_alloc` walks `sm_root` from the cursor of the request's alignment
(first fit), or `sm_pp_root` from 0 when space is low (best fit).

Segments are the `space_seg_t` at each address (`ss`), and the picker's
`ssearch` is one more address, `key`, on the stack and in no tree.

* `pickerLoop_eq_find`: the walk is the first fitting segment of what the
  `AVL_NEXT` loop visits.
* `pickerStart_split`: the walk starts at a suffix of the members, and every
  member before it compares below the search value, or below a member equal
  to it.
* `pickerPass_zero_none`: a walk from offset 0 that fails saw no segment that
  fits.
* `metaslabBlockPicker_eq`: the picker recurses at most once.
* `metaslab_df_alloc_fit`: on a loaded map, `metaslab_df_alloc` returns the
  start of `size` bytes inside one free segment, and gives up only when no
  segment is that long.
-/
namespace ZfsOsx.Metaslab

open Function (update)
open ZfsOsx.Avl ZfsOsx.Space ZfsOsx.Compress

/-- `metaslab_segsize_compare`: by length, then by start.
mirrors module/zfs/metaslab.c:356-375 -/
def metaslabSegsizeCompare (s1 s2 : SpaceSeg) : Ordering :=
  let ssSize1 := s1.ssEnd - s1.ssStart
  let ssSize2 := s2.ssEnd - s2.ssStart
  if ssSize1 < ssSize2 then .lt
  else if ssSize1 > ssSize2 then .gt
  else if s1.ssStart < s2.ssStart then .lt
  else if s1.ssStart > s2.ssStart then .gt
  else .eq

/-- A comparator of segments read through the nodes' addresses, as `avl.c`
calls it on the nodes of a tree. -/
def segCmp (cmp : SpaceSeg → SpaceSeg → Ordering) (ss : ℕ → SpaceSeg) (a b : ℕ) : Ordering :=
  cmp (ss a) (ss b)

/-- `highbit(i)`: the number of the highest set bit plus one, 0 for 0.
mirrors lib/libzpool/kernel.c:1016-1044 -/
def highbit (i : ℕ) : ℕ := Nat.size i

/-- The walk of `metaslab_block_picker` from `ss`: the aligned start of the
first segment that holds `size` bytes from it, or `none` when `AVL_NEXT`
reaches NULL. Its fuel is an artifact of the model; `avl_numnodes` rounds
are enough (`pickerLoop_eq_find`).
mirrors module/zfs/metaslab.c:399-407 -/
def pickerLoop (t : AvlTree) (ss : ℕ → SpaceSeg) (size align : ℕ) : ℕ → Option ℕ → Option ℕ
  | _, none => none
  | 0, some _ => none
  | fuel + 1, some x =>
    let offset := p2roundup (ss x).ssStart align
    if offset + size ≤ (ss x).ssEnd then some offset
    else pickerLoop t ss size align fuel (avlNext t x)

/-- Where the walk starts: the node `avl_find` found, or else
`avl_nearest(t, where, AVL_AFTER)`.
mirrors module/zfs/metaslab.c:396-398 -/
def pickerStart (compar : ℕ → ℕ → Ordering) (t : AvlTree) (value : ℕ) : Option ℕ :=
  match avlFind compar t value with
  | some (.found a) => some a
  | some (.notFound w) => avlNearest t w 1
  | none => none

/-- One search and walk of `metaslab_block_picker` for
`ssearch = [cursor, cursor + size)` at the address `key`.
mirrors module/zfs/metaslab.c:393-407 -/
def pickerPass (cmp : SpaceSeg → SpaceSeg → Ordering) (t : AvlTree) (ss : ℕ → SpaceSeg)
    (key cursor size align : ℕ) : Option ℕ :=
  pickerLoop t ss size align t.numnodes
    (pickerStart (segCmp cmp (update ss key ⟨cursor, cursor + size⟩)) t key)

/-- `metaslab_block_picker(t, cursor, size, align)`: the offset, `none` for
`-1ULL`, and the new `*cursor`. The recursive call starts from cursor 0, so
it is the last one (`metaslabBlockPicker_eq`).
mirrors module/zfs/metaslab.c:385-418 -/
def metaslabBlockPicker (cmp : SpaceSeg → SpaceSeg → Ordering) (t : AvlTree) (ss : ℕ → SpaceSeg)
    (key cursor size align : ℕ) : Option ℕ × ℕ :=
  match pickerPass cmp t ss key cursor size align with
  | some offset => (some offset, offset + size)
  | none => if _h : cursor = 0 then (none, cursor) else metaslabBlockPicker cmp t ss key 0 size align
termination_by cursor
decreasing_by omega

/-- The fields of a loaded `space_map_t` that `metaslab_df_alloc` reads and
writes: the two trees, the 64 cursors of `sm_ppd`, `sm_space` and `sm_size`. -/
structure MsMap where
  smRoot : AvlTree
  smPpRoot : AvlTree
  smPpd : ℕ → ℕ
  smSpace : ℕ
  smSize : ℕ

/-- `metaslab_pp_maxsize`: the length of the last segment by size.
mirrors module/zfs/metaslab.c:471-481 -/
def metaslabPpMaxsize (sm : MsMap) (ss : ℕ → SpaceSeg) : ℕ :=
  match avlLast sm.smPpRoot with
  | none => 0
  | some a => (ss a).ssEnd - (ss a).ssStart

/-- `metaslab_df_alloc(sm, size)` with the tunables
`metaslab_df_alloc_threshold` (`SPA_MAXBLOCKSIZE` by default) and
`metaslab_df_free_pct` (4): the offset, `none` for `-1ULL`, and the map with
the cursor of the request's alignment moved.
mirrors module/zfs/metaslab.c:528-554 -/
def metaslabDfAlloc (threshold freePct : ℕ) (sm : MsMap) (ss : ℕ → SpaceSeg) (key size : ℕ) :
    Option ℕ × MsMap :=
  let align := size &&& (2 ^ 64 - size)
  let cursor := highbit align - 1
  let maxSize := metaslabPpMaxsize sm ss
  let pct := sm.smSpace * 100 / sm.smSize
  if maxSize < size then (none, sm)
  else if maxSize < threshold ∨ pct < freePct then
    let r := metaslabBlockPicker metaslabSegsizeCompare sm.smPpRoot ss key 0 size 1
    (r.1, { sm with smPpd := update sm.smPpd cursor r.2 })
  else
    let r := metaslabBlockPicker spaceMapSegCompare sm.smRoot ss key (sm.smPpd cursor) size 1
    (r.1, { sm with smPpd := update sm.smPpd cursor r.2 })

/-! ## The two orders -/

theorem spaceMapSegCompare_eq_lt {s1 s2 : SpaceSeg} :
    spaceMapSegCompare s1 s2 = .lt ↔ s1.ssStart < s2.ssStart ∧ s1.ssEnd ≤ s2.ssStart := by
  unfold spaceMapSegCompare
  split_ifs <;> simp <;> omega

theorem metaslabSegsizeCompare_eq_lt {s1 s2 : SpaceSeg} :
    metaslabSegsizeCompare s1 s2 = .lt ↔ s1.ssEnd - s1.ssStart < s2.ssEnd - s2.ssStart ∨
      s1.ssEnd - s1.ssStart = s2.ssEnd - s2.ssStart ∧ s1.ssStart < s2.ssStart := by
  unfold metaslabSegsizeCompare
  split_ifs <;> simp <;> omega

theorem metaslabSegsizeCompare_eq_eq {s1 s2 : SpaceSeg} :
    metaslabSegsizeCompare s1 s2 = .eq ↔ s1.ssEnd - s1.ssStart = s2.ssEnd - s2.ssStart ∧
      s1.ssStart = s2.ssStart := by
  unfold metaslabSegsizeCompare
  split_ifs <;> simp <;> omega

theorem spaceMapSegCompare_swap (s1 s2 : SpaceSeg) :
    spaceMapSegCompare s1 s2 = (spaceMapSegCompare s2 s1).swap := by
  unfold spaceMapSegCompare
  split_ifs <;> first | rfl | omega

theorem metaslabSegsizeCompare_swap (s1 s2 : SpaceSeg) :
    metaslabSegsizeCompare s1 s2 = (metaslabSegsizeCompare s2 s1).swap := by
  unfold metaslabSegsizeCompare
  dsimp only
  split_ifs <;> first | rfl | omega

/-- Overlapping segments are equal, so `space_map_seg_compare` is no total
order; but on what it puts below each other it is transitive, which is what
the search needs. -/
instance (ss : ℕ → SpaceSeg) : LtTransCmp (segCmp spaceMapSegCompare ss) where
  eq_swap := spaceMapSegCompare_swap _ _
  lt_trans {a b c} hab hbc := by
    unfold segCmp at *
    rw [spaceMapSegCompare_eq_lt] at *
    omega

instance (ss : ℕ → SpaceSeg) : LtTransCmp (segCmp metaslabSegsizeCompare ss) where
  eq_swap := metaslabSegsizeCompare_swap _ _
  lt_trans {a b c} hab hbc := by
    unfold segCmp at *
    rw [metaslabSegsizeCompare_eq_lt] at *
    omega

/-! ## The walk -/

/-- Whether the segment at `a` holds `size` bytes from its start rounded up
to `align`: the test of the picker's loop. -/
@[grind] def segFits (ss : ℕ → SpaceSeg) (size align a : ℕ) : Bool :=
  p2roundup (ss a).ssStart align + size ≤ (ss a).ssEnd

theorem p2roundup_one (x : ℕ) : p2roundup x 1 = x := by
  simp [p2roundup]

/-- The walk from a node is the first fitting segment of what the `AVL_NEXT`
loop visits from it, when the loop ends within the same rounds. -/
theorem pickerLoop_eq_find (t : AvlTree) (ss : ℕ → SpaceSeg) (size align : ℕ) :
    ∀ fuel x l, nextLoop t fuel x = some l →
      pickerLoop t ss size align fuel x =
        (l.find? (segFits ss size align)).map fun a => p2roundup (ss a).ssStart align := by
  intro fuel
  induction fuel with
  | zero =>
    intro x l h
    cases x with
    | none =>
      cases h
      rfl
    | some x => cases h
  | succ fuel ih =>
    intro x l h
    cases x with
    | none =>
      cases h
      rfl
    | some x =>
      obtain ⟨l', hl', rfl⟩ := Option.map_eq_some_iff.1 h
      rw [pickerLoop]
      by_cases hfit : segFits ss size align x
      · have hle : p2roundup (ss x).ssStart align + size ≤ (ss x).ssEnd := by
          simpa [segFits] using hfit
        rw [if_pos hle, List.find?_cons_of_pos hfit]
        rfl
      · have hle : ¬p2roundup (ss x).ssStart align + size ≤ (ss x).ssEnd := by
          simpa [segFits] using hfit
        rw [if_neg hle, List.find?_cons_of_neg hfit]
        exact ih _ _ hl'

/-- Where the walk starts, on a valid tree: the head of a suffix `B` of the
members, and every member before it is below the search value, or below a
member equal to it, the one `avl_find` found. -/
theorem pickerStart_split {compar : ℕ → ℕ → Ordering} [LtTransCmp compar] {t : AvlTree}
    {s : Shape} (hv : Valid compar t s) (v : ℕ) :
    ∃ A B, addrs s = A ++ B ∧ pickerStart compar t v = B.head? ∧
      ((∀ m ∈ A, compar m v = .lt) ∨
        ∃ a B', B = a :: B' ∧ compar v a = .eq ∧ ∀ m ∈ A, compar m a = .lt) := by
  rcases hf : avlFind compar t v with _ | (a | w)
  · rw [avlFind_eq hv.rep hv.size] at hf
    cases hf
  · obtain ⟨ha, heq⟩ := avlFind_found hv hf
    obtain ⟨A, B', hAB⟩ := List.append_of_mem ha
    have hsorted := hv.sorted
    rw [hAB, List.pairwise_append] at hsorted
    refine ⟨A, a :: B', hAB, by simp [pickerStart, hf], .inr ⟨a, B', rfl, heq, ?_⟩⟩
    exact fun m hm => hsorted.2.2 m hm a List.mem_cons_self
  · obtain ⟨fs, hd, hf'⟩ := avlFind_notFound hv (notFound_ne hv hf)
    rw [hf] at hf'
    cases hf'
    obtain ⟨hsplit, hA, -⟩ := descend_nil_split hv hd
    refine ⟨_, _, hsplit, ?_, .inl hA⟩
    rw [pickerStart, hf]
    exact avlNearest_after hv hd

/-- The search value at `key` changes no comparison between members. -/
theorem valid_update_key {cmp : SpaceSeg → SpaceSeg → Ordering} {ss : ℕ → SpaceSeg} {t : AvlTree}
    {s : Shape} (hv : Valid (segCmp cmp ss) t s) {key : ℕ} (hkey : key ∉ addrs s) (k : SpaceSeg) :
    Valid (segCmp cmp (update ss key k)) t s := by
  refine ⟨hv.rep, hv.balanced, hv.sorted.imp_of_mem fun ha hb h => ?_, hv.size⟩
  have hak : _ ≠ key := fun h => hkey (h ▸ ha)
  have hbk : _ ≠ key := fun h => hkey (h ▸ hb)
  rwa [segCmp, Function.update_of_ne hak, Function.update_of_ne hbk]

section Pass

variable {cmp : SpaceSeg → SpaceSeg → Ordering} [∀ f, LtTransCmp (segCmp cmp f)] {t : AvlTree}
  {s : Shape} {ss : ℕ → SpaceSeg} {key : ℕ}

/-- The pass, on a valid tree, walks a suffix of the members from its start. -/
theorem pickerPass_eq (hv : Valid (segCmp cmp ss) t s) (hkey : key ∉ addrs s) (cursor size align : ℕ) :
    ∃ A B, addrs s = A ++ B ∧
      pickerPass cmp t ss key cursor size align =
        (B.find? (segFits ss size align)).map (fun a => p2roundup (ss a).ssStart align) ∧
      ((∀ m ∈ A, cmp (ss m) ⟨cursor, cursor + size⟩ = .lt) ∨
        ∃ a B', B = a :: B' ∧ cmp ⟨cursor, cursor + size⟩ (ss a) = .eq ∧ ∀ m ∈ A, cmp (ss m) (ss a) = .lt) := by
  have hv' := valid_update_key hv hkey ⟨cursor, cursor + size⟩
  obtain ⟨A, B, hAB, hstart, hA⟩ := pickerStart_split hv' key
  have hlen : B.length ≤ t.numnodes := by
    rw [hv.size, ← length_addrs, hAB, List.length_append]
    omega
  have hmem : ∀ m ∈ addrs s, update ss key ⟨cursor, cursor + size⟩ m = ss m := by
    intro m hm
    have hmk : m ≠ key := fun h => hkey (h ▸ hm)
    exact Function.update_of_ne hmk _ _
  refine ⟨A, B, hAB, ?_, ?_⟩
  · rw [pickerPass, hstart]
    exact pickerLoop_eq_find t ss size align _ _ _ (nextLoop_suffix hv B A _ hAB hlen)
  · rcases hA with hA | ⟨a, B', rfl, heq, hlt⟩
    · refine .inl fun m hm => ?_
      have := hA m hm
      rwa [segCmp, Function.update_self, hmem m (by rw [hAB]; exact List.mem_append_left _ hm)] at this
    · have ha : a ∈ addrs s := by
        rw [hAB]
        exact List.mem_append_right _ List.mem_cons_self
      refine .inr ⟨a, B', rfl, ?_, fun m hm => ?_⟩
      · rwa [segCmp, Function.update_self, hmem a ha] at heq
      · have := hlt m hm
        rwa [segCmp, hmem a ha, hmem m (by rw [hAB]; exact List.mem_append_left _ hm)] at this


/-- A pass that returns an offset found a member that holds `size` bytes
from it. -/
theorem pickerPass_sound (hv : Valid (segCmp cmp ss) t s) (hkey : key ∉ addrs s)
    {cursor size align o : ℕ} (h : pickerPass cmp t ss key cursor size align = some o) :
    ∃ a ∈ addrs s, o = p2roundup (ss a).ssStart align ∧ o + size ≤ (ss a).ssEnd := by
  obtain ⟨A, B, hAB, hpass, -⟩ := pickerPass_eq hv hkey cursor size align
  rw [hpass] at h
  obtain ⟨a, hfind, rfl⟩ := Option.map_eq_some_iff.1 h
  have hfit := List.find?_some hfind
  refine ⟨a, ?_, rfl, by simpa [segFits] using hfit⟩
  rw [hAB]
  exact List.mem_append_right _ (List.mem_of_find?_eq_some hfind)

/-- A pass from offset 0 that fails saw no member of `size` bytes or more,
for a comparator under which what lies below `[0, size)`, or below a member
equal to it, is shorter than `size`: the walk skips only such members. -/
theorem pickerPass_zero_none (hv : Valid (segCmp cmp ss) t s) (hkey : key ∉ addrs s) {size : ℕ}
    (hsize : 0 < size)
    (hbelow : ∀ m : SpaceSeg, cmp m ⟨0, size⟩ = .lt → m.ssEnd - m.ssStart < size)
    (hequal : ∀ m a : SpaceSeg, cmp ⟨0, size⟩ a = .eq → cmp m a = .lt → m.ssEnd - m.ssStart < size)
    (h : pickerPass cmp t ss key 0 size 1 = none) :
    ∀ m ∈ addrs s, (ss m).ssEnd - (ss m).ssStart < size := by
  obtain ⟨A, B, hAB, hpass, hA⟩ := pickerPass_eq hv hkey 0 size 1
  rw [hpass, Option.map_eq_none_iff, List.find?_eq_none] at h
  rw [Nat.zero_add] at hA
  intro m hm
  rw [hAB, List.mem_append] at hm
  rcases hm with hm | hm
  · rcases hA with hA | ⟨a, B', -, heq, hlt⟩
    · exact hbelow _ (hA m hm)
    · exact hequal _ _ heq (hlt m hm)
  · have hfit := h m hm
    simp only [segFits, p2roundup_one, decide_eq_true_eq] at hfit
    omega

end Pass

/-- `metaslab_block_picker` recurses at most once: a failed pass from a
nonzero cursor is followed by one pass from 0, and that one's failure is
final. -/
theorem metaslabBlockPicker_eq (cmp : SpaceSeg → SpaceSeg → Ordering) (t : AvlTree)
    (ss : ℕ → SpaceSeg) (key cursor size align : ℕ) :
    metaslabBlockPicker cmp t ss key cursor size align =
      match pickerPass cmp t ss key cursor size align with
      | some o => (some o, o + size)
      | none =>
        if cursor = 0 then (none, 0)
        else
          match pickerPass cmp t ss key 0 size align with
          | some o => (some o, o + size)
          | none => (none, 0) := by
  rw [metaslabBlockPicker]
  cases h : pickerPass cmp t ss key cursor size align with
  | some o => rfl
  | none =>
    by_cases hc : cursor = 0
    · simp only [hc, dite_true, if_true]
    · simp only [hc, dite_false, if_false]
      rw [metaslabBlockPicker]
      cases pickerPass cmp t ss key 0 size align <;> rfl

/-- When the picker gives up, its last pass was from offset 0. -/
theorem metaslabBlockPicker_none {cmp : SpaceSeg → SpaceSeg → Ordering} {t : AvlTree}
    {ss : ℕ → SpaceSeg} {key cursor size align : ℕ}
    (h : (metaslabBlockPicker cmp t ss key cursor size align).1 = none) :
    pickerPass cmp t ss key 0 size align = none := by
  rw [metaslabBlockPicker_eq] at h
  cases h1 : pickerPass cmp t ss key cursor size align with
  | some o =>
    rw [h1] at h
    cases h
  | none =>
    rw [h1] at h
    by_cases hc : cursor = 0
    · rwa [← hc]
    · rw [if_neg hc] at h
      cases h2 : pickerPass cmp t ss key 0 size align with
      | some o =>
        rw [h2] at h
        cases h
      | none => rfl

section Picker

variable {cmp : SpaceSeg → SpaceSeg → Ordering} [∀ f, LtTransCmp (segCmp cmp f)] {t : AvlTree}
  {s : Shape} {ss : ℕ → SpaceSeg} {key cursor size align : ℕ}

theorem metaslabBlockPicker_sound (hv : Valid (segCmp cmp ss) t s) (hkey : key ∉ addrs s) {o : ℕ}
    (h : (metaslabBlockPicker cmp t ss key cursor size align).1 = some o) :
    ∃ a ∈ addrs s, o = p2roundup (ss a).ssStart align ∧ o + size ≤ (ss a).ssEnd := by
  rw [metaslabBlockPicker_eq] at h
  cases h1 : pickerPass cmp t ss key cursor size align with
  | some o' =>
    rw [h1] at h
    cases h
    exact pickerPass_sound hv hkey h1
  | none =>
    rw [h1] at h
    by_cases hc : cursor = 0
    · rw [if_pos hc] at h
      cases h
    · rw [if_neg hc] at h
      cases h2 : pickerPass cmp t ss key 0 size align with
      | some o' =>
        rw [h2] at h
        cases h
        exact pickerPass_sound hv hkey h2
      | none =>
        rw [h2] at h
        cases h

end Picker

/-! ## `metaslab_df_alloc` -/

/-- What lies below `[0, size)` by offset ends before `size`. -/
theorem spaceMapSegCompare_zero_short {size : ℕ} (hsize : 0 < size) :
    (∀ m : SpaceSeg, spaceMapSegCompare m ⟨0, size⟩ = .lt → m.ssEnd - m.ssStart < size) ∧
      ∀ m a : SpaceSeg, spaceMapSegCompare ⟨0, size⟩ a = .eq → spaceMapSegCompare m a = .lt →
        m.ssEnd - m.ssStart < size := by
  refine ⟨fun m hm => ?_, fun m a heq hlt => ?_⟩
  · have := spaceMapSegCompare_eq_lt.1 hm
    dsimp only at this
    omega
  · -- the member equal to `[0, size)` overlaps it, so it starts below `size`
    have hnlt : ¬spaceMapSegCompare ⟨0, size⟩ a = .lt := by
      rw [heq]
      decide
    rw [spaceMapSegCompare_eq_lt] at hnlt
    have := spaceMapSegCompare_eq_lt.1 hlt
    dsimp only at hnlt
    omega

/-- What lies below `[0, size)` by size is shorter than `size`. -/
theorem metaslabSegsizeCompare_zero_short {size : ℕ} :
    (∀ m : SpaceSeg, metaslabSegsizeCompare m ⟨0, size⟩ = .lt → m.ssEnd - m.ssStart < size) ∧
      ∀ m a : SpaceSeg, metaslabSegsizeCompare ⟨0, size⟩ a = .eq →
        metaslabSegsizeCompare m a = .lt → m.ssEnd - m.ssStart < size := by
  refine ⟨fun m hm => ?_, fun m a heq hlt => ?_⟩
  · have := metaslabSegsizeCompare_eq_lt.1 hm
    dsimp only at this
    omega
  · have := metaslabSegsizeCompare_eq_eq.1 heq
    have := metaslabSegsizeCompare_eq_lt.1 hlt
    dsimp only at *
    omega

/-- `metaslab_pp_maxsize` is the greatest length, the last member by size. -/
theorem le_metaslabPpMaxsize {sm : MsMap} {ss : ℕ → SpaceSeg} {s : Shape}
    (hv : Valid (segCmp metaslabSegsizeCompare ss) sm.smPpRoot s) :
    ∀ m ∈ addrs s, (ss m).ssEnd - (ss m).ssStart ≤ metaslabPpMaxsize sm ss := by
  intro m hm
  have hne : addrs s ≠ [] := List.ne_nil_of_mem hm
  have hlast : avlLast sm.smPpRoot = some ((addrs s).getLast hne) := by
    rw [avlLast_eq hv, List.getLast?_eq_some_getLast hne]
  have hsorted := hv.sorted
  rw [← List.dropLast_append_getLast hne, List.pairwise_append] at hsorted
  rw [← List.dropLast_append_getLast hne, List.mem_append, List.mem_singleton] at hm
  simp only [metaslabPpMaxsize, hlast]
  rcases hm with hm | rfl
  · have := metaslabSegsizeCompare_eq_lt.1 (hsorted.2.2 m hm _ (List.mem_singleton_self _))
    omega
  · exact le_rfl

/-- A loaded space map (`metaslab_pp_load` has run): both trees are valid AVL
trees under their comparators over the same segments `segs`, in offset
order. -/
structure MsMap.Loaded (sm : MsMap) (ss : ℕ → SpaceSeg) (segs : List ℕ) : Prop where
  root : ∃ s, Valid (segCmp spaceMapSegCompare ss) sm.smRoot s ∧ addrs s = segs
  ppRoot : ∃ s, Valid (segCmp metaslabSegsizeCompare ss) sm.smPpRoot s ∧ (addrs s).Perm segs

theorem metaslab_df_alloc_fit {sm : MsMap} {ss : ℕ → SpaceSeg} {segs : List ℕ}
    (hl : sm.Loaded ss segs) {key : ℕ} (hkey : key ∉ segs) (threshold freePct : ℕ) {size : ℕ}
    (hsize : 0 < size) :
    ((metaslabDfAlloc threshold freePct sm ss key size).1 = none →
        ∀ a ∈ segs, (ss a).ssEnd - (ss a).ssStart < size) ∧
      (∀ o, (metaslabDfAlloc threshold freePct sm ss key size).1 = some o →
        ∃ a ∈ segs, (ss a).ssStart ≤ o ∧ o + size ≤ (ss a).ssEnd) ∧
      ∀ (cmp : SpaceSeg → SpaceSeg → Ordering) (t : AvlTree) (cursor align : ℕ),
        metaslabBlockPicker cmp t ss key cursor size align =
          match pickerPass cmp t ss key cursor size align with
          | some o => (some o, o + size)
          | none =>
            if cursor = 0 then (none, 0)
            else
              match pickerPass cmp t ss key 0 size align with
              | some o => (some o, o + size)
              | none => (none, 0) := by
  obtain ⟨⟨s, hv, rfl⟩, ⟨s', hv', hperm⟩⟩ := hl
  have hkey' : key ∉ addrs s' := fun h => hkey (hperm.subset h)
  -- a failed pass from 0 over either tree saw no segment that fits
  have hroot := pickerPass_zero_none hv hkey hsize (spaceMapSegCompare_zero_short hsize).1
    (spaceMapSegCompare_zero_short hsize).2
  have hpp : pickerPass metaslabSegsizeCompare sm.smPpRoot ss key 0 size 1 = none →
      ∀ m ∈ addrs s, (ss m).ssEnd - (ss m).ssStart < size := fun h m hm =>
    pickerPass_zero_none hv' hkey' hsize metaslabSegsizeCompare_zero_short.1
      metaslabSegsizeCompare_zero_short.2 h m (hperm.symm.subset hm)
  refine ⟨fun h => ?_, fun o h => ?_, fun cmp t cursor align => metaslabBlockPicker_eq cmp t ss key cursor size align⟩
  · unfold metaslabDfAlloc at h
    dsimp only at h
    split_ifs at h with hmax hlow
    · intro m hm
      have := le_metaslabPpMaxsize hv' m (hperm.symm.subset hm)
      omega
    · exact hpp (metaslabBlockPicker_none h)
    · exact hroot (metaslabBlockPicker_none h)
  · unfold metaslabDfAlloc at h
    dsimp only at h
    split_ifs at h with hmax hlow
    · obtain ⟨a, ha, ho, hfit⟩ := metaslabBlockPicker_sound hv' hkey' h
      rw [p2roundup_one] at ho
      exact ⟨a, hperm.subset ha, ho.ge, hfit⟩
    · obtain ⟨a, ha, ho, hfit⟩ := metaslabBlockPicker_sound hv hkey h
      rw [p2roundup_one] at ho
      exact ⟨a, ha, ho.ge, hfit⟩

theorem metaslab_df_alloc_fit_one :
    let t : AvlTree := ⟨some 1, 1, fun _ _ => none, fun _ => none, fun _ => 0, fun _ => 0⟩
    let sm : MsMap := ⟨t, t, fun _ => 0, 10, 10⟩
    let ss : ℕ → SpaceSeg := fun _ => ⟨0, 10⟩
    sm.Loaded ss [1] ∧ 0 ∉ [1] ∧ 0 < 4 ∧
      (((metaslabDfAlloc 0 0 sm ss 0 4).1 = none → ∀ a ∈ [1], (ss a).ssEnd - (ss a).ssStart < 4) ∧
        (∀ o, (metaslabDfAlloc 0 0 sm ss 0 4).1 = some o →
          ∃ a ∈ [1], (ss a).ssStart ≤ o ∧ o + 4 ≤ (ss a).ssEnd) ∧
        ∀ (cmp : SpaceSeg → SpaceSeg → Ordering) (t : AvlTree) (cursor align : ℕ),
          metaslabBlockPicker cmp t ss 0 cursor 4 align =
            match pickerPass cmp t ss 0 cursor 4 align with
            | some o => (some o, o + 4)
            | none =>
              if cursor = 0 then (none, 0)
              else
                match pickerPass cmp t ss 0 0 4 align with
                | some o => (some o, o + 4)
                | none => (none, 0)) := by
  intro t sm ss
  -- one node at address 1 is a valid tree under any comparator
  have hv : ∀ compar, Valid compar t (.node (1, 0) .nil .nil) := fun compar =>
    ⟨⟨rfl, rfl, rfl, rfl, rfl, trivial, trivial, trivial, trivial⟩,
      ⟨by decide, by decide, by decide, trivial, trivial⟩, List.pairwise_singleton _ _, rfl⟩
  have hl : sm.Loaded ss [1] := ⟨⟨_, hv _, rfl⟩, ⟨_, hv _, List.Perm.refl _⟩⟩
  exact ⟨hl, by decide, by decide, metaslab_df_alloc_fit hl (by decide) 0 0 (by decide)⟩

end ZfsOsx.Metaslab
