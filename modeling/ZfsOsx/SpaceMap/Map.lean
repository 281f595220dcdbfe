import ZfsOsx.Lib.Sweep
/-!
# Space maps: `space_map_add`

A space map (space_map.c) is an AVL tree of disjoint segments
`[ss_start, ss_end)` ordered by `space_map_seg_compare`, which makes
overlapping segments equal. Here the tree is the list of its segments in tree
order; `avl_find` is the overlapping segment, `avl_nearest` the last segment
before and the first after the new one.

`space_map_add` merges the new segment with a neighbour it touches, so the
segments of a map neither overlap nor touch (`SpaceMap.Valid`).

* `spaceMapAdd_spec`: on a valid map, adding a free range that lies in the
  map and is aligned to its unit succeeds, keeps the map valid, and adds
  exactly that range to what the map covers.
-/
namespace ZfsOsx.Space

open Sweep

/-- `space_seg_t` (space_map.h:54-59): the segment `[ss_start, ss_end)`. -/
structure SpaceSeg where
  ssStart : Nat
  ssEnd : Nat
  deriving DecidableEq, Repr

/-- The segment as an interval of `Sweep`. -/
def SpaceSeg.toPair (ss : SpaceSeg) : ℕ × ℕ := (ss.ssStart, ss.ssEnd)

@[simp] theorem SpaceSeg.toPair_fst (ss : SpaceSeg) : ss.toPair.1 = ss.ssStart := rfl
@[simp] theorem SpaceSeg.toPair_snd (ss : SpaceSeg) : ss.toPair.2 = ss.ssEnd := rfl

/-- `space_map_seg_compare` (space_map.c:36-53): by start, with overlapping
segments equal. -/
def spaceMapSegCompare (s1 s2 : SpaceSeg) : Ordering :=
  if s1.ssStart < s2.ssStart then
    if s1.ssEnd > s2.ssStart then .eq else .lt
  else if s1.ssStart > s2.ssStart then
    if s1.ssStart < s2.ssEnd then .eq else .gt
  else .eq

/-- The fields of `space_map_t` (space_map.h:34-50) that `space_map_add` and
`space_map_vacate` use: `sm_root` as its segments in tree order, and no
picker-private tree (`sm_pp_root == NULL`). -/
structure SpaceMap where
  smRoot : List SpaceSeg
  smSpace : Nat
  smStart : Nat
  smSize : Nat
  smShift : Nat
  deriving Repr

/-- The offsets the segments `l` cover. -/
def segCover (l : List SpaceSeg) : Set ℕ := cover (l.map SpaceSeg.toPair)

instance (l : List SpaceSeg) : DecidablePred (· ∈ segCover l) := fun x =>
  inferInstanceAs (Decidable (x ∈ cover (l.map SpaceSeg.toPair)))

/-- The total length of the segments `l`, as `sm_space` counts it. -/
def segSpace (l : List SpaceSeg) : Nat := (l.map fun ss => ss.ssEnd - ss.ssStart).sum

@[simp] theorem mem_segCover {l : List SpaceSeg} {x : ℕ} :
    x ∈ segCover l ↔ ∃ ss ∈ l, ss.ssStart ≤ x ∧ x < ss.ssEnd := by
  simp [segCover]

theorem segCover_append (l m : List SpaceSeg) : segCover (l ++ m) = segCover l ∪ segCover m := by
  ext x
  simp [or_and_right, exists_or]

theorem segCover_cons (ss : SpaceSeg) (l : List SpaceSeg) :
    segCover (ss :: l) = Set.Ico ss.ssStart ss.ssEnd ∪ segCover l := by
  ext x
  simp

@[simp] theorem segCover_nil : segCover [] = ∅ := by
  ext x
  simp

@[simp] theorem segSpace_nil : segSpace [] = 0 := rfl

theorem segSpace_append (l m : List SpaceSeg) : segSpace (l ++ m) = segSpace l + segSpace m := by
  simp [segSpace]

theorem segSpace_cons (ss : SpaceSeg) (l : List SpaceSeg) :
    segSpace (ss :: l) = (ss.ssEnd - ss.ssStart) + segSpace l := by
  simp [segSpace]

/-- `Separated` read on segments. -/
theorem separated_segs {l : List SpaceSeg} :
    Separated (l.map SpaceSeg.toPair) ↔
      (∀ ss ∈ l, ss.ssStart < ss.ssEnd) ∧ l.Pairwise fun a b => a.ssEnd < b.ssStart := by
  constructor
  · intro h
    exact ⟨fun ss hss => by simpa using h.lt _ (List.mem_map_of_mem hss),
      List.pairwise_map.1 h.sorted⟩
  · rintro ⟨hlt, hs⟩
    exact ⟨by simpa using hlt, List.pairwise_map.2 hs⟩

/-- What `space_map_add` keeps of a map: its segments neither overlap nor
touch, lie in the map's range, and add up to `sm_space`; the range fits the
`uint64_t` fields. -/
structure SpaceMap.Valid (sm : SpaceMap) : Prop where
  separated : Separated (sm.smRoot.map SpaceSeg.toPair)
  bounds : ∀ ss ∈ sm.smRoot, sm.smStart ≤ ss.ssStart ∧ ss.ssEnd ≤ sm.smStart + sm.smSize
  range : sm.smStart + sm.smSize < 2 ^ 64
  space : sm.smSpace = segSpace sm.smRoot

/-- `merge_before` (space_map.c:112): `ss_before` ends where the new segment
starts. Then it leaves the tree and the merged segment takes its start. -/
def mergeLeft (before : List SpaceSeg) (start : Nat) : List SpaceSeg × Nat :=
  match before.getLast? with
  | some b => if b.ssEnd = start then (before.dropLast, b.ssStart) else (before, start)
  | none => (before, start)

/-- `merge_after` (space_map.c:113): `ss_after` starts where the new segment
ends. Then it leaves the tree and the merged segment takes its end. -/
def mergeRight (after : List SpaceSeg) (end_ : Nat) : List SpaceSeg × Nat :=
  match after with
  | a :: rest => if a.ssStart = end_ then (rest, a.ssEnd) else (after, end_)
  | [] => ([], end_)

/-- `space_map_add(sm, start, size)` (space_map.c:80-147); `none` where a
`VERIFY` fails or `zfs_panic_recover` panics. The `uint64_t` sums wrap. -/
def spaceMapAdd (sm : SpaceMap) (start size : Nat) : Option SpaceMap :=
  let end_ := (start + size) % 2 ^ 64
  if size = 0 ∨ start < sm.smStart ∨ (sm.smStart + sm.smSize) % 2 ^ 64 < end_ ∨
      sm.smSize < (sm.smSpace + size) % 2 ^ 64 ∨ start % 2 ^ sm.smShift ≠ 0 ∨
      size % 2 ^ sm.smShift ≠ 0 then none
  else
    let ssearch : SpaceSeg := ⟨start, end_⟩
    -- `avl_find` hit a segment: covering the new one it is "allocating
    -- allocated segment", otherwise `VERIFY(ss == NULL)`; both panic
    if sm.smRoot.any (fun ss => spaceMapSegCompare ssearch ss = .eq) then none
    else
      -- the segments on either side of `where`; of the four cases of
      -- space_map.c:114-141, the segment that holds `[start, end)` at the end
      -- spans from the merged `ss_before`'s start to the merged `ss_after`'s end
      let left := mergeLeft (sm.smRoot.filter fun ss => spaceMapSegCompare ssearch ss = .gt) start
      let right := mergeRight (sm.smRoot.filter fun ss => spaceMapSegCompare ssearch ss = .lt) end_
      some { sm with
        smRoot := left.1 ++ ⟨left.2, right.2⟩ :: right.1
        smSpace := sm.smSpace + size }

/-! ## The order of segments -/

theorem segCompare_eq_gt {s1 s2 : SpaceSeg} (h2 : s2.ssStart < s2.ssEnd) :
    spaceMapSegCompare s1 s2 = .gt ↔ s2.ssEnd ≤ s1.ssStart := by
  unfold spaceMapSegCompare
  split_ifs <;> simp <;> omega

theorem segCompare_eq_lt {s1 s2 : SpaceSeg} (h1 : s1.ssStart < s1.ssEnd) :
    spaceMapSegCompare s1 s2 = .lt ↔ s1.ssEnd ≤ s2.ssStart := by
  unfold spaceMapSegCompare
  split_ifs <;> simp <;> omega

/-- Segments that do not overlap do not compare equal. -/
theorem segCompare_ne_eq {s1 s2 : SpaceSeg} (h1 : s1.ssStart < s1.ssEnd)
    (h2 : s2.ssStart < s2.ssEnd) (h : s2.ssEnd ≤ s1.ssStart ∨ s1.ssEnd ≤ s2.ssStart) :
    spaceMapSegCompare s1 s2 ≠ .eq := by
  unfold spaceMapSegCompare
  split_ifs <;> simp <;> omega

/-- A segment that overlaps none of a map's splits it into the segments before
it and those after it. -/
theorem split_filter {l : List SpaceSeg} (hlt : ∀ ss ∈ l, ss.ssStart < ss.ssEnd)
    (hs : l.Pairwise fun a b => a.ssEnd < b.ssStart) {s : SpaceSeg} (hs1 : s.ssStart < s.ssEnd)
    (hne : ∀ ss ∈ l, spaceMapSegCompare s ss ≠ .eq) :
    l = l.filter (fun ss => spaceMapSegCompare s ss = .gt) ++
      l.filter (fun ss => spaceMapSegCompare s ss = .lt) := by
  induction l with
  | nil => rfl
  | cons h rest ih =>
    obtain ⟨hh, hrest⟩ := List.pairwise_cons.1 hs
    have ih := ih (fun ss hss => hlt ss (List.mem_cons_of_mem _ hss)) hrest
      (fun ss hss => hne ss (List.mem_cons_of_mem _ hss))
    have hne := hne h List.mem_cons_self
    cases hc : spaceMapSegCompare s h with
    | eq => exact absurd hc hne
    | gt => simp [hc, ← ih]
    | lt =>
      -- `h` is after `s`, and so is everything after `h`
      have hafter : ∀ r ∈ rest, spaceMapSegCompare s r = .lt := by
        intro r hr
        have := (segCompare_eq_lt hs1).1 hc
        have := hh r hr
        have := hlt h List.mem_cons_self
        exact (segCompare_eq_lt hs1).2 (by omega)
      have hgt : rest.filter (fun ss => spaceMapSegCompare s ss = .gt) = [] :=
        List.filter_eq_nil_iff.2 fun r hr => by simp [hafter r hr]
      have hlt' : rest.filter (fun ss => spaceMapSegCompare s ss = .lt) = rest :=
        List.filter_eq_self.2 fun r hr => by simp [hafter r hr]
      simp [hc, hgt, hlt']

/-- Segments in order within `[lo, hi]` add up to at most `hi - lo`. -/
theorem segSpace_le {l : List SpaceSeg} (hs : l.Pairwise fun a b => a.ssEnd ≤ b.ssStart) {lo hi : Nat}
    (hb : ∀ ss ∈ l, lo ≤ ss.ssStart ∧ ss.ssStart ≤ ss.ssEnd ∧ ss.ssEnd ≤ hi) :
    segSpace l ≤ hi - lo := by
  induction l generalizing lo with
  | nil => simp
  | cons ss rest ih =>
    obtain ⟨hss, hrest⟩ := List.pairwise_cons.1 hs
    -- the rest lies within `[ss_end, hi]`
    have ih : segSpace rest ≤ hi - ss.ssEnd := ih hrest fun r hr =>
      ⟨hss r hr, (hb r (List.mem_cons_of_mem _ hr)).2⟩
    have := hb ss List.mem_cons_self
    rw [segSpace_cons]
    omega

/-! ## Merging with the neighbours -/

@[simp] theorem mergeLeft_nil (start : Nat) : mergeLeft [] start = ([], start) := rfl

theorem mergeLeft_touch {B : List SpaceSeg} {b : SpaceSeg} {start : Nat} (h : b.ssEnd = start) :
    mergeLeft (B ++ [b]) start = (B, b.ssStart) := by
  simp [mergeLeft, h]

theorem mergeLeft_apart {B : List SpaceSeg} {b : SpaceSeg} {start : Nat} (h : b.ssEnd ≠ start) :
    mergeLeft (B ++ [b]) start = (B ++ [b], start) := by
  simp [mergeLeft, h]

@[simp] theorem mergeRight_nil (end_ : Nat) : mergeRight [] end_ = ([], end_) := rfl

theorem mergeRight_touch {a : SpaceSeg} {A : List SpaceSeg} {end_ : Nat} (h : a.ssStart = end_) :
    mergeRight (a :: A) end_ = (A, a.ssEnd) := by
  simp [mergeRight, h]

theorem mergeRight_apart {a : SpaceSeg} {A : List SpaceSeg} {end_ : Nat} (h : a.ssStart ≠ end_) :
    mergeRight (a :: A) end_ = (a :: A, end_) := by
  simp [mergeRight, h]

/-- What `merge_before` leaves: the segments before end short of the merged
segment's start, which is `start` or `ss_before`'s, and cover and space are
kept. -/
theorem mergeLeft_spec {before : List SpaceSeg} (hlt : ∀ ss ∈ before, ss.ssStart < ss.ssEnd)
    (hs : before.Pairwise fun a b => a.ssEnd < b.ssStart) {start end_ : Nat}
    (hb : ∀ b ∈ before, b.ssEnd ≤ start) (he : start ≤ end_) {left : List SpaceSeg} {lo : Nat}
    (hm : mergeLeft before start = (left, lo)) :
    left.Sublist before ∧ (lo = start ∨ ∃ b ∈ before, lo = b.ssStart) ∧ lo ≤ start ∧
      (∀ b ∈ left, b.ssEnd < lo) ∧
      segCover before ∪ Set.Ico start end_ = segCover left ∪ Set.Ico lo end_ ∧
      segSpace before + (end_ - start) = segSpace left + (end_ - lo) := by
  rcases List.eq_nil_or_concat before with rfl | ⟨B, b, rfl⟩
  · rw [mergeLeft_nil, Prod.mk.injEq] at hm
    obtain ⟨rfl, rfl⟩ := hm
    simp
  · rw [List.concat_eq_append] at hlt hs hb hm ⊢
    have hbl := hlt b (by simp)
    have hbs := hb b (by simp)
    have hB : ∀ x ∈ B, x.ssEnd < b.ssStart := fun x hx =>
      (List.pairwise_append.1 hs).2.2 x hx b (by simp)
    by_cases hbe : b.ssEnd = start
    · -- `ss_before` touches: it leaves, lending its start
      rw [mergeLeft_touch hbe, Prod.mk.injEq] at hm
      obtain ⟨rfl, rfl⟩ := hm
      refine ⟨List.sublist_append_left _ _, .inr ⟨b, by simp, rfl⟩, by omega, hB, ?_, ?_⟩
      · rw [segCover_append, segCover_cons, segCover_nil, Set.union_empty, Set.union_assoc, ← hbe,
          Set.Ico_union_Ico_eq_Ico hbl.le (hbe ▸ he)]
      · rw [segSpace_append, segSpace_cons, segSpace_nil]
        omega
    · rw [mergeLeft_apart hbe, Prod.mk.injEq] at hm
      obtain ⟨rfl, rfl⟩ := hm
      refine ⟨List.Sublist.refl _, .inl rfl, le_rfl, ?_, rfl, rfl⟩
      intro x hx
      rcases List.mem_append.1 hx with hx | hx
      · have := hB x hx
        omega
      · rw [List.mem_singleton.1 hx]
        omega

/-- What `merge_after` leaves, the mirror image. -/
theorem mergeRight_spec {after : List SpaceSeg} (hlt : ∀ ss ∈ after, ss.ssStart < ss.ssEnd)
    (hs : after.Pairwise fun a b => a.ssEnd < b.ssStart) {lo end_ : Nat}
    (ha : ∀ a ∈ after, end_ ≤ a.ssStart) (hl : lo ≤ end_) {right : List SpaceSeg} {hi : Nat}
    (hm : mergeRight after end_ = (right, hi)) :
    right.Sublist after ∧ (hi = end_ ∨ ∃ a ∈ after, hi = a.ssEnd) ∧ end_ ≤ hi ∧
      (∀ a ∈ right, hi < a.ssStart) ∧
      segCover after ∪ Set.Ico lo end_ = segCover right ∪ Set.Ico lo hi ∧
      segSpace after + (end_ - lo) = segSpace right + (hi - lo) := by
  cases after with
  | nil =>
    rw [mergeRight_nil, Prod.mk.injEq] at hm
    obtain ⟨rfl, rfl⟩ := hm
    simp
  | cons a A =>
    have hal := hlt a List.mem_cons_self
    have has := ha a List.mem_cons_self
    have hA : ∀ x ∈ A, a.ssEnd < x.ssStart := (List.pairwise_cons.1 hs).1
    by_cases hae : a.ssStart = end_
    · -- `ss_after` touches: it leaves, lending its end
      rw [mergeRight_touch hae, Prod.mk.injEq] at hm
      obtain ⟨rfl, rfl⟩ := hm
      refine ⟨List.sublist_cons_self _ _, .inr ⟨a, List.mem_cons_self, rfl⟩, by omega, hA, ?_, ?_⟩
      · rw [segCover_cons, Set.union_comm (Set.Ico _ _), Set.union_assoc, ← hae,
          Set.union_comm (Set.Ico a.ssStart a.ssEnd), Set.Ico_union_Ico_eq_Ico (hae ▸ hl) hal.le]
      · rw [segSpace_cons]
        omega
    · rw [mergeRight_apart hae, Prod.mk.injEq] at hm
      obtain ⟨rfl, rfl⟩ := hm
      refine ⟨List.Sublist.refl _, .inl rfl, le_rfl, ?_, rfl, rfl⟩
      intro x hx
      rcases List.mem_cons.1 hx with rfl | hx
      · omega
      · have := hA x hx
        omega

/-! ## `space_map_add` on a valid map -/

/-- Where no `VERIFY` fails and the new segment overlaps none, `space_map_add`
puts the merged segment between what is left on either side. -/
theorem spaceMapAdd_eq {sm : SpaceMap} {start size : Nat} (hv : sm.Valid) (hsize : size ≠ 0)
    (hlo : sm.smStart ≤ start) (hhi : start + size ≤ sm.smStart + sm.smSize)
    (hspace : sm.smSpace + size ≤ sm.smSize) (hstart : start % 2 ^ sm.smShift = 0)
    (hsz : size % 2 ^ sm.smShift = 0)
    (hne : ∀ ss ∈ sm.smRoot, spaceMapSegCompare ⟨start, start + size⟩ ss ≠ .eq)
    {left right : List SpaceSeg} {lo hi : Nat}
    (hml : mergeLeft (sm.smRoot.filter fun ss =>
      spaceMapSegCompare ⟨start, start + size⟩ ss = .gt) start = (left, lo))
    (hmr : mergeRight (sm.smRoot.filter fun ss =>
      spaceMapSegCompare ⟨start, start + size⟩ ss = .lt) (start + size) = (right, hi)) :
    spaceMapAdd sm start size =
      some { sm with smRoot := left ++ ⟨lo, hi⟩ :: right, smSpace := sm.smSpace + size } := by
  have hr := hv.range
  have hend : (start + size) % 2 ^ 64 = start + size := Nat.mod_eq_of_lt (by omega)
  have hrange : (sm.smStart + sm.smSize) % 2 ^ 64 = sm.smStart + sm.smSize := Nat.mod_eq_of_lt hr
  have hsp : (sm.smSpace + size) % 2 ^ 64 = sm.smSpace + size := Nat.mod_eq_of_lt (by omega)
  have hany : (sm.smRoot.any fun ss => spaceMapSegCompare ⟨start, start + size⟩ ss = .eq) = false := by
    simpa using hne
  simp only [spaceMapAdd, hend, hrange, hsp, hstart, hsz, hany, hml, hmr, ne_eq, not_true_eq_false,
    or_false, Bool.false_eq_true, if_false]
  rw [if_neg (by omega)]

/-- `space_map_add` of a free range that lies in a valid map and is aligned
to its unit: the map stays valid and covers exactly that range more. -/
theorem spaceMapAdd_spec {sm : SpaceMap} (hv : sm.Valid) {start size : Nat} (hsize : size ≠ 0)
    (hlo : sm.smStart ≤ start) (hhi : start + size ≤ sm.smStart + sm.smSize)
    (hstart : start % 2 ^ sm.smShift = 0) (hsz : size % 2 ^ sm.smShift = 0)
    (hfree : Disjoint (segCover sm.smRoot) (Set.Ico start (start + size))) :
    ∃ sm', spaceMapAdd sm start size = some sm' ∧ sm'.Valid ∧
      segCover sm'.smRoot = segCover sm.smRoot ∪ Set.Ico start (start + size) ∧
      sm'.smStart = sm.smStart ∧ sm'.smSize = sm.smSize ∧ sm'.smShift = sm.smShift := by
  obtain ⟨hlt, hsorted⟩ := separated_segs.1 hv.separated
  -- each segment of the map lies wholly before or wholly after the new one
  have hside : ∀ ss ∈ sm.smRoot, ss.ssEnd ≤ start ∨ start + size ≤ ss.ssStart := by
    intro ss hss
    by_contra hc
    simp only [not_or, not_le] at hc
    -- else the later of the two starts is in both
    have hx : max ss.ssStart start ∈ segCover sm.smRoot :=
      mem_segCover.2 ⟨ss, hss, le_max_left _ _, max_lt (hlt ss hss) hc.1⟩
    exact Set.disjoint_left.1 hfree hx ⟨le_max_right _ _, max_lt hc.2 (by omega)⟩
  have hnew : start < start + size := by omega
  have hne : ∀ ss ∈ sm.smRoot, spaceMapSegCompare ⟨start, start + size⟩ ss ≠ .eq :=
    fun ss hss => segCompare_ne_eq hnew (hlt ss hss) (hside ss hss)
  obtain ⟨before, hB⟩ : ∃ l, sm.smRoot.filter (fun ss =>
      spaceMapSegCompare ⟨start, start + size⟩ ss = .gt) = l := ⟨_, rfl⟩
  obtain ⟨after, hA⟩ : ∃ l, sm.smRoot.filter (fun ss =>
      spaceMapSegCompare ⟨start, start + size⟩ ss = .lt) = l := ⟨_, rfl⟩
  have hsplit : sm.smRoot = before ++ after := hB ▸ hA ▸ split_filter hlt hsorted hnew hne
  have hsubB : before.Sublist sm.smRoot := hB ▸ List.filter_sublist
  have hsubA : after.Sublist sm.smRoot := hA ▸ List.filter_sublist
  have hbend : ∀ b ∈ before, b.ssEnd ≤ start := fun b hb => by
    rw [← hB, List.mem_filter] at hb
    exact (segCompare_eq_gt (hlt b hb.1)).1 (by simpa using hb.2)
  have hastart : ∀ a ∈ after, start + size ≤ a.ssStart := fun a ha => by
    rw [← hA, List.mem_filter] at ha
    exact (segCompare_eq_lt hnew).1 (by simpa using ha.2)
  rcases hml : mergeLeft before start with ⟨left, lo⟩
  rcases hmr : mergeRight after (start + size) with ⟨right, hi⟩
  obtain ⟨hlsub, hlo', hlo_le, hleft, hlcov, hlspace⟩ :=
    mergeLeft_spec (fun ss h => hlt ss (hsubB.subset h)) (hsorted.sublist hsubB) hbend
      (by omega : start ≤ start + size) hml
  obtain ⟨hrsub, hhi', hhi_ge, hright, hrcov, hrspace⟩ :=
    mergeRight_spec (fun ss h => hlt ss (hsubA.subset h)) (hsorted.sublist hsubA) hastart
      (by omega : lo ≤ start + size) hmr
  -- the segments after the call
  have hRlt : ∀ ss ∈ left ++ ⟨lo, hi⟩ :: right, ss.ssStart < ss.ssEnd := by
    intro ss hss
    rcases List.mem_append.1 hss with h | h
    · exact hlt ss (hsubB.subset (hlsub.subset h))
    · rcases List.mem_cons.1 h with rfl | h
      · show lo < hi
        omega
      · exact hlt ss (hsubA.subset (hrsub.subset h))
  have hRsorted : (left ++ ⟨lo, hi⟩ :: right).Pairwise fun a b => a.ssEnd < b.ssStart := by
    refine List.pairwise_append.2 ⟨hsorted.sublist (hlsub.trans hsubB),
      List.pairwise_cons.2 ⟨hright, hsorted.sublist (hrsub.trans hsubA)⟩, ?_⟩
    intro x hx y hy
    rcases List.mem_cons.1 hy with rfl | hy
    · exact hleft x hx
    · have := hleft x hx
      have := hright y hy
      omega
  have hRbounds : ∀ ss ∈ left ++ ⟨lo, hi⟩ :: right,
      sm.smStart ≤ ss.ssStart ∧ ss.ssEnd ≤ sm.smStart + sm.smSize := by
    intro ss hss
    rcases List.mem_append.1 hss with h | h
    · exact hv.bounds ss (hsubB.subset (hlsub.subset h))
    · rcases List.mem_cons.1 h with rfl | h
      · -- the merged segment ends are the new one's or its neighbours'
        constructor
        · rcases hlo' with rfl | ⟨b, hb, rfl⟩
          exacts [hlo, (hv.bounds b (hsubB.subset hb)).1]
        · rcases hhi' with rfl | ⟨a, ha, rfl⟩
          exacts [hhi, (hv.bounds a (hsubA.subset ha)).2]
      · exact hv.bounds ss (hsubA.subset (hrsub.subset h))
  have hRcover : segCover (left ++ ⟨lo, hi⟩ :: right) =
      segCover sm.smRoot ∪ Set.Ico start (start + size) := by
    calc segCover (left ++ ⟨lo, hi⟩ :: right)
        = segCover right ∪ (segCover left ∪ Set.Ico lo hi) := by
          rw [segCover_append, segCover_cons]
          ac_rfl
      _ = segCover left ∪ (segCover after ∪ Set.Ico lo (start + size)) := by
          rw [hrcov]
          ac_rfl
      _ = segCover after ∪ (segCover before ∪ Set.Ico start (start + size)) := by
          rw [hlcov]
          ac_rfl
      _ = segCover sm.smRoot ∪ Set.Ico start (start + size) := by
          rw [hsplit, segCover_append]
          ac_rfl
  have hRspace : segSpace (left ++ ⟨lo, hi⟩ :: right) = sm.smSpace + size := by
    have hsp := hv.space
    rw [hsplit, segSpace_append] at hsp
    rw [segSpace_append, segSpace_cons]
    dsimp only
    clear hlo' hhi'
    omega
  have hspace : sm.smSpace + size ≤ sm.smSize := by
    have := segSpace_le (hRsorted.imp le_of_lt) fun ss hss =>
      ⟨(hRbounds ss hss).1, (hRlt ss hss).le, (hRbounds ss hss).2⟩
    omega
  refine ⟨_, spaceMapAdd_eq hv hsize hlo hhi hspace hstart hsz hne (hB ▸ hml) (hA ▸ hmr),
    ⟨separated_segs.2 ⟨hRlt, hRsorted⟩, hRbounds, hv.range, hRspace.symm⟩, hRcover, rfl, rfl, rfl⟩

/-! ## Walking a map -/

/-- `space_map_walk(sm, func, mdest)` (space_map.c:243-251): `func(mdest,
ss_start, ss_end - ss_start)` for each segment of `sm` in order; `none` where
a call panics. -/
def spaceMapWalk (sm : SpaceMap) (func : SpaceMap → Nat → Nat → Option SpaceMap)
    (mdest : SpaceMap) : Option SpaceMap :=
  sm.smRoot.foldlM (fun d ss => func d ss.ssStart (ss.ssEnd - ss.ssStart)) mdest

/-- `space_map_add` of separated segments one after the other, each free in
the map, inside its range and aligned to its unit: the map stays valid and
covers the segments more. The induction is on the segments. -/
theorem foldlM_spaceMapAdd_spec (l : List SpaceSeg) {d : SpaceMap} (hd : d.Valid)
    (hl : Separated (l.map SpaceSeg.toPair))
    (hin : ∀ ss ∈ l, d.smStart ≤ ss.ssStart ∧ ss.ssEnd ≤ d.smStart + d.smSize ∧
      ss.ssStart % 2 ^ d.smShift = 0 ∧ ss.ssEnd % 2 ^ d.smShift = 0)
    (hfree : Disjoint (segCover d.smRoot) (segCover l)) :
    ∃ d', l.foldlM (fun d ss => spaceMapAdd d ss.ssStart (ss.ssEnd - ss.ssStart)) d = some d' ∧
      d'.Valid ∧ segCover d'.smRoot = segCover d.smRoot ∪ segCover l ∧
      d'.smStart = d.smStart ∧ d'.smSize = d.smSize ∧ d'.smShift = d.smShift := by
  induction l generalizing d with
  | nil => exact ⟨d, rfl, hd, by simp, rfl, rfl, rfl⟩
  | cons ss l ih =>
    obtain ⟨hlt, hafter, hrest⟩ := Separated.cons (p := ss.toPair) hl
    obtain ⟨hlo, hhi, hal1, hal2⟩ := hin ss List.mem_cons_self
    simp only [SpaceSeg.toPair_fst, SpaceSeg.toPair_snd] at hlt
    have hend : ss.ssStart + (ss.ssEnd - ss.ssStart) = ss.ssEnd := by omega
    rw [segCover_cons, Set.disjoint_union_right] at hfree
    obtain ⟨d1, hadd, hv1, hcov1, hst1, hsz1, hsh1⟩ := @spaceMapAdd_spec d hd ss.ssStart
      (ss.ssEnd - ss.ssStart) (by omega) hlo (by omega) hal1
      (Nat.sub_mod_eq_zero_of_mod_eq (hal2.trans hal1.symm)) (by rw [hend]; exact hfree.1)
    rw [hend] at hcov1
    -- the segment added lies before the rest
    have hfree1 : Disjoint (Set.Ico ss.ssStart ss.ssEnd) (segCover l) := by
      refine Set.disjoint_left.2 fun x hx hx' => ?_
      obtain ⟨b, hb, hbx, -⟩ := mem_segCover.1 hx'
      have := hafter b.toPair (List.mem_map_of_mem hb)
      simp only [SpaceSeg.toPair_fst, SpaceSeg.toPair_snd] at this
      exact absurd (Set.mem_Ico.1 hx).2 (by omega)
    obtain ⟨d', hfold, hv', hcov', hst', hsz', hsh'⟩ := ih hv1 hrest
      (fun b hb => by rw [hst1, hsz1, hsh1]; exact hin b (List.mem_cons_of_mem _ hb))
      (by rw [hcov1]; exact Disjoint.union_left hfree.2 hfree1)
    refine ⟨d', by rw [List.foldlM_cons, hadd]; exact hfold, hv', ?_, hst'.trans hst1,
      hsz'.trans hsz1, hsh'.trans hsh1⟩
    rw [hcov', hcov1, segCover_cons]
    ac_rfl

/-- `space_map_walk(sm, space_map_add, mdest)` of a valid map into one it is
free in, with the range and unit of `sm`'s segments: `mdest` covers `sm` more. -/
theorem spaceMapWalk_add_spec {sm d : SpaceMap} (hsm : sm.Valid) (hd : d.Valid)
    (hin : ∀ ss ∈ sm.smRoot, d.smStart ≤ ss.ssStart ∧ ss.ssEnd ≤ d.smStart + d.smSize ∧
      ss.ssStart % 2 ^ d.smShift = 0 ∧ ss.ssEnd % 2 ^ d.smShift = 0)
    (hfree : Disjoint (segCover d.smRoot) (segCover sm.smRoot)) :
    ∃ d', spaceMapWalk sm spaceMapAdd d = some d' ∧ d'.Valid ∧
      segCover d'.smRoot = segCover d.smRoot ∪ segCover sm.smRoot ∧
      d'.smStart = d.smStart ∧ d'.smSize = d.smSize ∧ d'.smShift = d.smShift :=
  foldlM_spaceMapAdd_spec sm.smRoot hd hsm.separated hin hfree

end ZfsOsx.Space
