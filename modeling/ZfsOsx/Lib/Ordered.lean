import Mathlib

/-!
# Lists ordered by a three-way comparator

C code orders its elements with a comparator that returns `-1`, `0` or `1`;
here that is a function `cmp : α → α → Ordering`, and a list is ordered when
every element compares `lt` with every later one. These are the facts about
such lists that insertion into a search tree needs: a new element that is
larger than a prefix and smaller than the rest keeps the list ordered (for a
transitive comparator it is enough to check the two neighbours), and it lands
exactly where `List.orderedInsert` puts it. `nextOf` and `prevOf` are the
neighbours of an element, what an in-order walk steps to.

`LtTransCmp` asks only that `lt` be transitive: a comparator that calls
overlapping intervals equal orders disjoint ones and is no `Std.TransCmp`.
-/

/-- An antisymmetric comparator whose `lt` is transitive. Unlike
`Std.TransCmp` its `eq` need not be. -/
class LtTransCmp {α : Type*} (cmp : α → α → Ordering) : Prop extends Std.OrientedCmp cmp where
  lt_trans {a b c : α} : cmp a b = .lt → cmp b c = .lt → cmp a c = .lt

instance {α : Type*} (cmp : α → α → Ordering) [Std.TransCmp cmp] : LtTransCmp cmp where
  lt_trans := Std.TransCmp.lt_trans

namespace List

variable {α : Type*} (cmp : α → α → Ordering)

/-- Inserting `x` between a prefix of smaller elements and a suffix of larger
ones keeps a list ordered. -/
theorem pairwise_insert_between {A B : List α} {x : α}
    (h : (A ++ B).Pairwise (fun a b => cmp a b = .lt)) (hA : ∀ a ∈ A, cmp a x = .lt)
    (hB : ∀ b ∈ B, cmp x b = .lt) : (A ++ x :: B).Pairwise (fun a b => cmp a b = .lt) := by
  rw [pairwise_append] at h ⊢
  obtain ⟨h1, h2, h3⟩ := h
  refine ⟨h1, pairwise_cons.2 ⟨hB, h2⟩, ?_⟩
  intro a ha b hb
  rcases mem_cons.1 hb with rfl | hb
  exacts [hA a ha, h3 a ha b hb]

/-- The sorted insertion of `x` goes after the elements that `x` is greater
than and before the first one it is less than. -/
theorem orderedInsert_eq_append {A B : List α} {x : α} (hA : ∀ a ∈ A, cmp x a = .gt)
    (hB : ∀ b ∈ B.head?, cmp x b = .lt) :
    (A ++ B).orderedInsert (fun a b => (cmp a b).isLE) x = A ++ x :: B := by
  induction A with
  | nil =>
    cases B with
    | nil => rfl
    | cons b B => simp [hB b rfl]
  | cons a A ih =>
    have ha := hA a mem_cons_self
    simp only [cons_append, orderedInsert_cons, ha, Ordering.isLE_gt, Bool.false_eq_true,
      if_false]
    rw [ih fun a' h => hA a' (mem_cons_of_mem _ h)]

/-- For a transitive comparator, fitting between its two neighbours is enough. -/
theorem pairwise_insert_between_of_adj [LtTransCmp cmp] {A B : List α} {x : α}
    (h : (A ++ B).Pairwise (fun a b => cmp a b = .lt)) (hA : ∀ a ∈ A.getLast?, cmp a x = .lt)
    (hB : ∀ b ∈ B.head?, cmp x b = .lt) : (A ++ x :: B).Pairwise (fun a b => cmp a b = .lt) := by
  obtain ⟨hAs, hBs, hAB⟩ := pairwise_append.1 h
  refine pairwise_insert_between cmp h ?_ ?_
  · -- every element of `A` is at most its last one
    rcases eq_nil_or_concat' A with rfl | ⟨A', l, rfl⟩
    · simp
    have hl : cmp l x = .lt := hA l (by simp)
    intro a ha
    rcases mem_append.1 ha with ha | ha
    · exact LtTransCmp.lt_trans ((pairwise_append.1 hAs).2.2 a ha l (by simp)) hl
    · rw [mem_singleton.1 ha]; exact hl
  · -- every element of `B` is at least its first one
    rcases B with _ | ⟨f, B'⟩
    · simp
    have hf : cmp x f = .lt := hB f rfl
    intro b hb
    rcases mem_cons.1 hb with rfl | hb
    · exact hf
    · exact LtTransCmp.lt_trans hf ((pairwise_cons.1 hBs).1 b hb)

/-- An element of a strictly ordered list occurs nowhere else in it. -/
theorem not_mem_of_pairwise_lt [Std.ReflCmp cmp] {A B : List α} {x : α}
    (h : (A ++ x :: B).Pairwise (fun a b => cmp a b = .lt)) : x ∉ A ++ B := by
  have hnd : (A ++ x :: B).Nodup := h.imp fun {a b} hab heq => by
    subst heq
    have haa : cmp a a = .eq := Std.ReflCmp.compare_self
    rw [haa] at hab
    cases hab
  exact (nodup_cons.1 (nodup_middle.1 hnd)).1

section Neighbours

variable [DecidableEq α]

/-- The element right after the first occurrence of `x`. -/
@[grind] def nextOf : List α → α → Option α
  | [], _ => none
  | a :: l, x => if a = x then l.head? else nextOf l x

/-- The element right before the last occurrence of `x`. -/
def prevOf (l : List α) (x : α) : Option α := nextOf l.reverse x

theorem nextOf_append_cons {A B : List α} {x : α} (hx : x ∉ A) :
    nextOf (A ++ x :: B) x = B.head? := by
  induction A with
  | nil => simp [nextOf]
  | cons a A ih =>
    rw [mem_cons, not_or] at hx
    simp only [cons_append, nextOf, if_neg (Ne.symm hx.1), ih hx.2]

theorem prevOf_append_cons {A B : List α} {x : α} (hx : x ∉ B) :
    prevOf (A ++ x :: B) x = A.getLast? := by
  rw [prevOf, reverse_append, reverse_cons, append_assoc, singleton_append,
    nextOf_append_cons (by simpa using hx), head?_reverse]

theorem mem_of_nextOf {l : List α} {x n : α} (h : n ∈ l.nextOf x) : n ∈ l := by
  induction l with
  | nil => cases h
  | cons a l ih =>
    simp only [nextOf] at h
    split at h
    · exact mem_cons_of_mem _ (mem_of_mem_head? h)
    · exact mem_cons_of_mem _ (ih h)

theorem nextOf_ne {l : List α} {x n : α} (hl : l.Nodup) (h : n ∈ l.nextOf x) : n ≠ x := by
  induction l with
  | nil => cases h
  | cons a l ih =>
    obtain ⟨ha, hl⟩ := nodup_cons.1 hl
    simp only [nextOf] at h
    split at h
    · rintro rfl
      subst_vars
      exact ha (mem_of_mem_head? h)
    · exact ih hl h

theorem mem_of_prevOf {l : List α} {x p : α} (h : p ∈ l.prevOf x) : p ∈ l :=
  mem_reverse.1 (mem_of_nextOf h)

theorem prevOf_ne {l : List α} {x p : α} (hl : l.Nodup) (h : p ∈ l.prevOf x) : p ≠ x :=
  nextOf_ne (nodup_reverse.2 hl) h

end Neighbours

/-! ## The neighbours of a value that is not in the list -/

section Bounds

/-- `o` is the greatest element of `l` below `v`, or `none` when nothing in `l`
is below `v`. -/
def GreatestBelow (l : List α) (v : α) : Option α → Prop
  | some a => a ∈ l ∧ cmp a v = .lt ∧ ∀ b ∈ l, cmp b v = .lt → cmp b a ≠ .gt
  | none => ∀ b ∈ l, cmp b v ≠ .lt

/-- `o` is the least element of `l` above `v`, or `none` when nothing in `l`
is above `v`. -/
def LeastAbove (l : List α) (v : α) : Option α → Prop
  | some a => a ∈ l ∧ cmp v a = .lt ∧ ∀ b ∈ l, cmp v b = .lt → cmp a b ≠ .gt
  | none => ∀ b ∈ l, cmp v b ≠ .lt

variable [Std.OrientedCmp cmp] {A B : List α} {v : α}

/-- An ordered list split around `v`: what lies below `v` is the first part. -/
theorem mem_left_of_lt (hB : ∀ b ∈ B, cmp v b = .lt) {b : α} (hb : b ∈ A ++ B)
    (hbv : cmp b v = .lt) : b ∈ A := by
  rcases mem_append.1 hb with hb | hb
  · exact hb
  · have hgt : cmp b v = .gt := Std.OrientedCmp.gt_iff_lt.2 (hB b hb)
    rw [hgt] at hbv
    cases hbv

/-- ... and what lies above `v` is the second part. -/
theorem mem_right_of_gt (hA : ∀ a ∈ A, cmp a v = .lt) {b : α} (hb : b ∈ A ++ B)
    (hvb : cmp v b = .lt) : b ∈ B := by
  rcases mem_append.1 hb with hb | hb
  · have hgt : cmp v b = .gt := Std.OrientedCmp.gt_iff_lt.2 (hA b hb)
    rw [hgt] at hvb
    cases hvb
  · exact hb

/-- Split around `v`, the last element of the first part is the greatest below `v`. -/
theorem greatestBelow_getLast? (h : (A ++ B).Pairwise (fun a b => cmp a b = .lt))
    (hA : ∀ a ∈ A, cmp a v = .lt) (hB : ∀ b ∈ B, cmp v b = .lt) :
    GreatestBelow cmp (A ++ B) v A.getLast? := by
  rcases eq_nil_or_concat' A with rfl | ⟨A', a, rfl⟩
  · intro b hb hbv
    exact absurd (mem_left_of_lt cmp hB hb hbv) not_mem_nil
  · rw [getLast?_concat]
    refine ⟨mem_append_left _ (mem_append_right _ (mem_singleton_self a)), hA a (by simp), ?_⟩
    intro b hb hbv
    rcases mem_append.1 (mem_left_of_lt cmp hB hb hbv) with hb' | hb'
    · -- `b` comes before `a`
      have hba : cmp b a = .lt :=
        (pairwise_append.1 (pairwise_append.1 h).1).2.2 b hb' a (mem_singleton_self a)
      rw [hba]
      decide
    · rw [mem_singleton.1 hb']
      intro haa
      have hlt : cmp a a = .lt := Std.OrientedCmp.gt_iff_lt.1 haa
      rw [haa] at hlt
      cases hlt

/-- Split around `v`, the first element of the second part is the least above `v`. -/
theorem leastAbove_head? (h : (A ++ B).Pairwise (fun a b => cmp a b = .lt))
    (hA : ∀ a ∈ A, cmp a v = .lt) (hB : ∀ b ∈ B, cmp v b = .lt) :
    LeastAbove cmp (A ++ B) v B.head? := by
  rcases B with _ | ⟨a, B'⟩
  · intro b hb hvb
    exact absurd (mem_right_of_gt cmp hA hb hvb) not_mem_nil
  · refine ⟨mem_append_right _ mem_cons_self, hB a mem_cons_self, ?_⟩
    intro b hb hvb
    rcases mem_cons.1 (mem_right_of_gt cmp hA hb hvb) with rfl | hb'
    · intro hbb
      have hlt : cmp b b = .lt := Std.OrientedCmp.gt_iff_lt.1 hbb
      rw [hbb] at hlt
      cases hlt
    · -- `b` comes after `a`
      have hab : cmp a b = .lt := (pairwise_cons.1 (pairwise_append.1 h).2.1).1 b hb'
      rw [hab]
      decide

end Bounds

/-! ## Lists ordered by a key -/

section Keyed

variable {β : Type*} [LinearOrder β] (f : α → β) {l : List α}

/-- In a list ordered by `f`, the elements below `m` form a prefix. -/
theorem takeWhile_lt_eq_filter (hl : l.Pairwise (fun a b => f a < f b)) (m : β) :
    l.takeWhile (fun a => f a < m) = l.filter (fun a => f a < m) := by
  induction l with
  | nil => rfl
  | cons a l ih =>
    obtain ⟨ha, hl⟩ := pairwise_cons.1 hl
    by_cases h : f a < m
    · simp [h, ih hl]
    · -- every later element is above `a`, so none is below `m` either
      have hnone : ∀ b ∈ l, m ≤ f b := fun b hb => (not_lt.1 h).trans (ha b hb).le
      rw [takeWhile_cons_of_neg (by simpa using h), filter_cons_of_neg (by simpa using h),
        eq_comm, filter_eq_nil_iff]
      simpa using hnone

/-- ... and the rest are those at or above `m`. -/
theorem dropWhile_lt_eq_filter (hl : l.Pairwise (fun a b => f a < f b)) (m : β) :
    l.dropWhile (fun a => f a < m) = l.filter (fun a => m ≤ f a) := by
  induction l with
  | nil => rfl
  | cons a l ih =>
    obtain ⟨ha, hl⟩ := pairwise_cons.1 hl
    by_cases h : f a < m
    · rw [dropWhile_cons_of_pos (by simpa using h), filter_cons_of_neg (by simpa using h), ih hl]
    · have hall : ∀ b ∈ a :: l, m ≤ f b := by
        intro b hb
        rcases mem_cons.1 hb with rfl | hb
        exacts [not_lt.1 h, (not_lt.1 h).trans (ha b hb).le]
      rw [dropWhile_cons_of_neg (by simpa using h), eq_comm, filter_eq_self]
      simpa using hall

/-- The last element of a list ordered by `f` has the largest key. -/
theorem le_of_getLast?_eq_some (hl : l.Pairwise (fun a b => f a < f b)) {d : α}
    (h : l.getLast? = some d) : ∀ a ∈ l, f a ≤ f d := by
  obtain ⟨ys, rfl⟩ := getLast?_eq_some_iff.1 h
  intro a ha
  rcases mem_append.1 ha with ha | ha
  · exact ((pairwise_append.1 hl).2.2 a ha d (mem_singleton_self d)).le
  · rw [mem_singleton.1 ha]

/-- An element above every key of the list is inserted at its end. -/
theorem orderedInsert_of_forall_lt {x : α} (hx : ∀ a ∈ l, f a < f x) :
    l.orderedInsert (fun a b => f a ≤ f b) x = l ++ [x] := by
  induction l with
  | nil => rfl
  | cons a l ih =>
    have ha : ¬f x ≤ f a := not_le.2 (hx a mem_cons_self)
    simp only [orderedInsert_cons, ha, if_false, cons_append,
      ih fun b hb => hx b (mem_cons_of_mem _ hb)]

end Keyed

end List
