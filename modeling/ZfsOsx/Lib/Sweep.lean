import Mathlib
/-!
# Weighted interval families and a sweep over their boundaries

A family of half-open intervals `[p.1, p.2)` with a weight `r` becomes a list of
events: `r` where an interval starts and `-r` where it ends (`events`). The
running total at `x` (`total`), the weights of the events at positions up to
`x`, is then `r` on the cover of the family and `0` elsewhere
(`total_events`), and over several families the sum of the weights of the
families that cover `x` (`total_allEvents`).

A sweep visits the events in order of position, but ties may come in any
order. The sum of a prefix of such a visit is the running total just below
the prefix's last position plus part of the events at that position; for
families whose intervals neither overlap nor touch (`Separated`), it lies
between the sums of the negative and of the positive parts of the weights
(`prefix_sum_bounds`).
-/

namespace Sweep

/-- The points of the half-open intervals `[p.1, p.2)` of `segs`. -/
def cover (segs : List (ℕ × ℕ)) : Set ℕ := {x | ∃ p ∈ segs, p.1 ≤ x ∧ x < p.2}

instance (segs : List (ℕ × ℕ)) : DecidablePred (· ∈ cover segs) := fun x =>
  inferInstanceAs (Decidable (∃ p ∈ segs, p.1 ≤ x ∧ x < p.2))

@[simp] theorem mem_cover {segs : List (ℕ × ℕ)} {x : ℕ} :
    x ∈ cover segs ↔ ∃ p ∈ segs, p.1 ≤ x ∧ x < p.2 := Iff.rfl

/-- Nonempty intervals in increasing order that neither overlap nor touch. -/
structure Separated (segs : List (ℕ × ℕ)) : Prop where
  lt : ∀ p ∈ segs, p.1 < p.2
  sorted : segs.Pairwise fun a b => a.2 < b.1

theorem Separated.cons {p : ℕ × ℕ} {segs : List (ℕ × ℕ)} (h : Separated (p :: segs)) :
    p.1 < p.2 ∧ (∀ b ∈ segs, p.2 < b.1) ∧ Separated segs :=
  ⟨h.lt p List.mem_cons_self, (List.pairwise_cons.1 h.sorted).1,
    ⟨fun q hq => h.lt q (List.mem_cons_of_mem _ hq), (List.pairwise_cons.1 h.sorted).2⟩⟩

/-- The events of the intervals `segs` with weight `r`. -/
def events (r : ℤ) (segs : List (ℕ × ℕ)) : List (ℕ × ℤ) :=
  segs.flatMap fun p => [(p.1, r), (p.2, -r)]

@[simp] theorem events_nil (r : ℤ) : events r [] = [] := rfl

@[simp] theorem events_cons (r : ℤ) (p : ℕ × ℕ) (segs : List (ℕ × ℕ)) :
    events r (p :: segs) = (p.1, r) :: (p.2, -r) :: events r segs := rfl

theorem mem_events {r : ℤ} {segs : List (ℕ × ℕ)} {e : ℕ × ℤ} :
    e ∈ events r segs ↔ ∃ p ∈ segs, e = (p.1, r) ∨ e = (p.2, -r) := by
  simp [events]

/-- The events of several weighted families, family after family. -/
@[grind] def allEvents (fams : List (ℤ × List (ℕ × ℕ))) : List (ℕ × ℤ) :=
  fams.flatMap fun f => events f.1 f.2

theorem mem_allEvents {fams : List (ℤ × List (ℕ × ℕ))} {e : ℕ × ℤ} :
    e ∈ allEvents fams ↔ ∃ f ∈ fams, ∃ p ∈ f.2, e = (p.1, f.1) ∨ e = (p.2, -f.1) := by
  simp [allEvents, mem_events]

/-- Every interval ends: the weights of all events cancel. -/
theorem sum_events (r : ℤ) (segs : List (ℕ × ℕ)) : ((events r segs).map Prod.snd).sum = 0 := by
  induction segs with
  | nil => rfl
  | cons p segs ih => simp [ih]

theorem sum_allEvents (fams : List (ℤ × List (ℕ × ℕ))) : ((allEvents fams).map Prod.snd).sum = 0 := by
  induction fams with
  | nil => rfl
  | cons f fams ih =>
    rw [allEvents, List.flatMap_cons, ← allEvents, List.map_append, List.sum_append, sum_events, ih]
    rfl

/-- The weights of the families that cover `x`. -/
def weightAt (fams : List (ℤ × List (ℕ × ℕ))) (x : ℕ) : ℤ :=
  (fams.map fun f => if x ∈ cover f.2 then f.1 else 0).sum

/-! ## Running totals -/

/-- The weights of the events of `L` at positions up to `x`. -/
@[grind] def total (L : List (ℕ × ℤ)) (x : ℕ) : ℤ := ((L.filter fun e => e.1 ≤ x).map Prod.snd).sum

@[simp] theorem total_nil (x : ℕ) : total [] x = 0 := rfl

theorem total_cons (e : ℕ × ℤ) (L : List (ℕ × ℤ)) (x : ℕ) :
    total (e :: L) x = (if e.1 ≤ x then e.2 else 0) + total L x := by
  by_cases h : e.1 ≤ x <;> simp [total, h]

theorem total_append (L M : List (ℕ × ℤ)) (x : ℕ) : total (L ++ M) x = total L x + total M x := by
  simp [total, List.filter_append]

theorem total_perm {L M : List (ℕ × ℤ)} (h : L.Perm M) (x : ℕ) : total L x = total M x :=
  ((h.filter _).map _).sum_eq

/-- Before every event the running total is zero. -/
theorem total_of_lt {L : List (ℕ × ℤ)} {x : ℕ} (h : ∀ e ∈ L, x < e.1) : total L x = 0 := by
  rw [total, List.filter_eq_nil_iff.2 fun e he => by simpa using h e he]
  rfl

/-- Once every event is at or before `x`, the running total is the sum. -/
theorem total_of_le {L : List (ℕ × ℤ)} {x : ℕ} (h : ∀ e ∈ L, e.1 ≤ x) :
    total L x = (L.map Prod.snd).sum := by
  rw [total, List.filter_eq_self.2 (by simpa using h)]

/-- The running total of a separated family is its weight on its cover. -/
theorem total_events {segs : List (ℕ × ℕ)} (h : Separated segs) (r : ℤ) (x : ℕ) :
    total (events r segs) x = if x ∈ cover segs then r else 0 := by
  induction segs with
  | nil => simp
  | cons p segs ih =>
    obtain ⟨hp, hafter, hs⟩ := h.cons
    rw [events_cons, total_cons, total_cons, ih hs]
    -- past `p` the cover is the rest's; on `p` or before it the rest is not hit
    by_cases hx : p.2 ≤ x
    · have hcov : x ∈ cover (p :: segs) ↔ x ∈ cover segs := by
        have hp' : ¬(p.1 ≤ x ∧ x < p.2) := by omega
        simp only [mem_cover, List.mem_cons, exists_eq_or_imp, hp', false_or]
      simp only [hcov, if_pos hx, if_pos (hp.le.trans hx)]
      ring
    · have hrest : x ∉ cover segs := by
        simp only [mem_cover, not_exists, not_and]
        intro b hb hbx
        have := hafter b hb
        omega
      have hcov : x ∈ cover (p :: segs) ↔ p.1 ≤ x := by
        simp only [mem_cover, List.mem_cons, exists_eq_or_imp]
        constructor
        · rintro (h | ⟨b, hb, hbx, hbx'⟩)
          · exact h.1
          · exact absurd ⟨b, hb, hbx, hbx'⟩ hrest
        · intro h
          exact .inl ⟨h, by omega⟩
      simp only [hcov, if_neg hx, if_neg hrest]
      split_ifs <;> ring

/-- The running total of all events is the weight of the families covering `x`. -/
theorem total_allEvents {fams : List (ℤ × List (ℕ × ℕ))} (h : ∀ f ∈ fams, Separated f.2)
    (x : ℕ) : total (allEvents fams) x = weightAt fams x := by
  induction fams with
  | nil => rfl
  | cons f fams ih =>
    rw [allEvents, List.flatMap_cons, total_append, ← allEvents,
      total_events (h f List.mem_cons_self), ih fun g hg => h g (List.mem_cons_of_mem _ hg)]
    simp [weightAt]

/-! ## Prefixes of a visit in order of position -/

/-- The weights of the events strictly before `o`. -/
@[grind] def below (o : ℕ) (L : List (ℕ × ℤ)) : ℤ := ((L.filter fun e => e.1 < o).map Prod.snd).sum

/-- The positive weights at `o`. -/
@[grind] def posAt (o : ℕ) (L : List (ℕ × ℤ)) : ℤ :=
  ((L.filter fun e => e.1 = o).map fun e => max e.2 0).sum

/-- The negative weights at `o`, negated. -/
@[grind] def negAt (o : ℕ) (L : List (ℕ × ℤ)) : ℤ :=
  ((L.filter fun e => e.1 = o).map fun e => max (-e.2) 0).sum

theorem below_perm {L M : List (ℕ × ℤ)} (h : L.Perm M) (o : ℕ) : below o L = below o M :=
  ((h.filter _).map _).sum_eq

theorem posAt_perm {L M : List (ℕ × ℤ)} (h : L.Perm M) (o : ℕ) : posAt o L = posAt o M :=
  ((h.filter _).map _).sum_eq

theorem negAt_perm {L M : List (ℕ × ℤ)} (h : L.Perm M) (o : ℕ) : negAt o L = negAt o M :=
  ((h.filter _).map _).sum_eq

/-- A sum over a sublist is at most the positive part of the sum over the list. -/
theorem sum_le_pos_of_sublist {Q R : List (ℕ × ℤ)} (h : Q.Sublist R) :
    (Q.map Prod.snd).sum ≤ (R.map fun e => max e.2 0).sum := by
  induction h with
  | slnil => simp
  | cons e _ ih =>
    simp only [List.map_cons, List.sum_cons]
    have := le_max_right e.2 0
    linarith
  | cons_cons e _ ih =>
    simp only [List.map_cons, List.sum_cons]
    have := le_max_left e.2 0
    linarith

/-- ... and at least minus the negative part. -/
theorem neg_le_sum_of_sublist {Q R : List (ℕ × ℤ)} (h : Q.Sublist R) :
    -(R.map fun e => max (-e.2) 0).sum ≤ (Q.map Prod.snd).sum := by
  induction h with
  | slnil => simp
  | cons e _ ih =>
    simp only [List.map_cons, List.sum_cons]
    have := le_max_right (-e.2) 0
    linarith
  | cons_cons e _ ih =>
    simp only [List.map_cons, List.sum_cons]
    have := le_max_left (-e.2) 0
    linarith

/-- A prefix `P` cut at `o` (everything in `P` at or before `o`, everything
after it at or past `o`): its sum is what lies before `o`, plus part of what
lies at `o`. -/
theorem sum_prefix_bounds {P S : List (ℕ × ℤ)} {o : ℕ} (hP : ∀ e ∈ P, e.1 ≤ o)
    (hS : ∀ e ∈ S, o ≤ e.1) :
    below o (P ++ S) - negAt o (P ++ S) ≤ (P.map Prod.snd).sum ∧
      (P.map Prod.snd).sum ≤ below o (P ++ S) + posAt o (P ++ S) := by
  have hbelow : below o (P ++ S) = below o P := by
    have : S.filter (fun e => e.1 < o) = [] :=
      List.filter_eq_nil_iff.2 fun e he => by simpa using hS e he
    simp [below, List.filter_append, this]
  -- the rest of `P` is at `o`, a sublist of what lies at `o`
  have hat : P.filter (fun e => ¬e.1 < o) = P.filter (fun e => e.1 = o) :=
    List.filter_congr fun e he => by
      by_cases h : e.1 < o
      · simp [h, Nat.ne_of_lt h]
      · have : e.1 = o := by have := hP e he; omega
        simp [this]
  have hsplit : (P.map Prod.snd).sum =
      below o P + ((P.filter fun e => e.1 = o).map Prod.snd).sum := by
    rw [below, ← hat, ← List.sum_map_filter_add_sum_map_filter_not (fun e => e.1 < o)]
  have hsub : (P.filter fun e => e.1 = o).Sublist ((P ++ S).filter fun e => e.1 = o) :=
    (List.sublist_append_left P S).filter _
  rw [hsplit, hbelow]
  exact ⟨by have := neg_le_sum_of_sublist hsub; rw [negAt]; linarith,
    by have := sum_le_pos_of_sublist hsub; rw [posAt]; linarith⟩

theorem below_append (o : ℕ) (L M : List (ℕ × ℤ)) : below o (L ++ M) = below o L + below o M := by
  simp [below, List.filter_append]

theorem posAt_append (o : ℕ) (L M : List (ℕ × ℤ)) : posAt o (L ++ M) = posAt o L + posAt o M := by
  simp [posAt, List.filter_append]

theorem negAt_append (o : ℕ) (L M : List (ℕ × ℤ)) : negAt o (L ++ M) = negAt o L + negAt o M := by
  simp [negAt, List.filter_append]

/-- Before `o` is up to `o - 1`. -/
theorem below_eq_total (L : List (ℕ × ℤ)) {o : ℕ} (ho : o ≠ 0) : below o L = total L (o - 1) := by
  have hcut : (fun e : ℕ × ℤ => decide (e.1 < o)) = fun e => decide (e.1 ≤ o - 1) := by
    funext e
    exact decide_eq_decide.2 ⟨fun h => by omega, fun h => by omega⟩
  rw [below, total, hcut]

@[simp] theorem below_zero (L : List (ℕ × ℤ)) : below 0 L = 0 := by
  simp [below]

section Family

variable {segs : List (ℕ × ℕ)} {r : ℤ}

theorem below_events (h : Separated segs) (o : ℕ) :
    below o (events r segs) = if o ≠ 0 ∧ o - 1 ∈ cover segs then r else 0 := by
  by_cases ho : o = 0
  · simp [ho]
  · rw [below_eq_total _ ho, total_events h]
    rw [if_congr (and_iff_right ho) rfl rfl]

theorem posAt_events (h : Separated segs) (o : ℕ) :
    posAt o (events r segs) =
      (if ∃ p ∈ segs, p.1 = o then max r 0 else 0) + if ∃ p ∈ segs, p.2 = o then max (-r) 0 else 0 := by
  induction segs with
  | nil => simp [posAt]
  | cons p segs ih =>
    obtain ⟨hp, hafter, hs⟩ := h.cons
    have hrest := ih hs
    rw [posAt] at hrest ⊢
    rw [events_cons, List.filter_cons, List.filter_cons]
    -- an interval at `o` leaves no other one there
    have hnone1 : p.1 = o ∨ p.2 = o → ¬∃ b ∈ segs, b.1 = o := fun ho ⟨b, hb, hbo⟩ => by
      have := hafter b hb
      omega
    have hnone2 : p.1 = o ∨ p.2 = o → ¬∃ b ∈ segs, b.2 = o := fun ho ⟨b, hb, hbo⟩ => by
      have := hafter b hb
      have := hs.lt b hb
      omega
    simp only [List.exists_mem_cons_iff]
    by_cases h1 : p.1 = o
    · have h2 : ¬p.2 = o := by omega
      rw [if_neg (hnone1 (.inl h1)), if_neg (hnone2 (.inl h1))] at hrest
      simp [h1, h2, hrest, hnone1 (.inl h1), hnone2 (.inl h1)]
    · by_cases h2 : p.2 = o
      · rw [if_neg (hnone1 (.inr h2)), if_neg (hnone2 (.inr h2))] at hrest
        simp [h1, h2, hrest, hnone1 (.inr h2), hnone2 (.inr h2)]
      · have hc1 : (p.1 = o ∨ ∃ x ∈ segs, x.1 = o) ↔ ∃ x ∈ segs, x.1 = o := by simp [h1]
        have hc2 : (p.2 = o ∨ ∃ x ∈ segs, x.2 = o) ↔ ∃ x ∈ segs, x.2 = o := by simp [h2]
        rw [if_congr hc1 rfl rfl, if_congr hc2 rfl rfl, ← hrest]
        simp [h1, h2]

theorem negAt_events (h : Separated segs) (o : ℕ) :
    negAt o (events r segs) =
      (if ∃ p ∈ segs, p.1 = o then max (-r) 0 else 0) + if ∃ p ∈ segs, p.2 = o then max r 0 else 0 := by
  have hneg : ∀ L : List (ℕ × ℤ), negAt o L = posAt o (L.map fun e => (e.1, -e.2)) := by
    intro L
    simp only [negAt, posAt, List.filter_map, List.map_map]
    rfl
  have hev : (events r segs).map (fun e => (e.1, -e.2)) = events (-r) segs := by
    induction segs with
    | nil => rfl
    | cons p segs ih => simp [events_cons, ih h.cons.2.2]
  rw [hneg, hev, posAt_events h, neg_neg]

/-- An interval that ends at `o` covers `o - 1`. -/
theorem cover_pred_of_end (h : Separated segs) {o : ℕ} (hB : ∃ p ∈ segs, p.2 = o) :
    o ≠ 0 ∧ o - 1 ∈ cover segs := by
  obtain ⟨p, hp, rfl⟩ := hB
  have := h.lt p hp
  exact ⟨by omega, p, hp, by omega, by omega⟩

/-- No interval of a separated family covers `o - 1` when one starts at `o`. -/
theorem not_cover_pred_of_start (h : Separated segs) {o : ℕ} (hC : ∃ p ∈ segs, p.1 = o) :
    ¬(o ≠ 0 ∧ o - 1 ∈ cover segs) := by
  induction segs with
  | nil => simp at hC
  | cons p segs ih =>
    obtain ⟨hp, hafter, hs⟩ := h.cons
    rintro ⟨ho, q, hq, hq1, hq2⟩
    rcases List.mem_cons.1 hq with rfl | hq'
    · -- `q` is the first interval: the one starting at `o` is `q` or after it
      obtain ⟨b, hb, hbo⟩ := hC
      rcases List.mem_cons.1 hb with rfl | hb
      · omega
      · have := hafter b hb
        omega
    · -- `q` is after `p`: so is the one starting at `o`
      obtain ⟨b, hb, hbo⟩ := hC
      rcases List.mem_cons.1 hb with rfl | hb
      · have := hafter q hq'
        have := hs.lt q hq'
        omega
      · exact ih hs ⟨b, hb, hbo⟩ ⟨ho, q, hq', hq1, hq2⟩

/-- A separated family brings between `min r 0` and `max r 0` to a prefix cut
at `o`. -/
theorem events_cut_bounds (h : Separated segs) (o : ℕ) :
    min r 0 ≤ below o (events r segs) - negAt o (events r segs) ∧
      below o (events r segs) + posAt o (events r segs) ≤ max r 0 := by
  rw [below_events h, posAt_events h, negAt_events h]
  by_cases hB : ∃ p ∈ segs, p.2 = o
  · -- an interval ends at `o`, so `o - 1` is covered and none starts at `o`
    have hC : ¬∃ p ∈ segs, p.1 = o := fun hC =>
      not_cover_pred_of_start h hC (cover_pred_of_end h hB)
    have hcov := cover_pred_of_end h hB
    simp only [hB, hC, hcov, ne_eq, not_false_eq_true, and_self, if_true, if_false]
    omega
  · by_cases hC : ∃ p ∈ segs, p.1 = o
    · have hcov := not_cover_pred_of_start h hC
      simp only [hB, hC, hcov, if_true, if_false]
      omega
    · simp only [hB, hC, if_false]
      split_ifs <;> omega

end Family

/-- Several families together bring between the sums of the negative and of
the positive parts of their weights. -/
theorem allEvents_cut_bounds {fams : List (ℤ × List (ℕ × ℕ))}
    (hfams : ∀ f ∈ fams, Separated f.2) (o : ℕ) :
    (fams.map fun f => min f.1 0).sum ≤ below o (allEvents fams) - negAt o (allEvents fams) ∧
      below o (allEvents fams) + posAt o (allEvents fams) ≤ (fams.map fun f => max f.1 0).sum := by
  induction fams with
  | nil => simp [allEvents, below, negAt, posAt]
  | cons f fams ih =>
    obtain ⟨h1, h2⟩ := events_cut_bounds (r := f.1) (hfams f List.mem_cons_self) o
    obtain ⟨h3, h4⟩ := ih fun g hg => hfams g (List.mem_cons_of_mem _ hg)
    rw [allEvents, List.flatMap_cons, ← allEvents, below_append, negAt_append, posAt_append,
      List.map_cons, List.sum_cons, List.map_cons, List.sum_cons]
    constructor <;> linarith

theorem sum_min_zero_nonpos (fams : List (ℤ × List (ℕ × ℕ))) :
    (fams.map fun f => min f.1 0).sum ≤ 0 := by
  induction fams with
  | nil => simp
  | cons f fams ih =>
    simp only [List.map_cons, List.sum_cons]
    omega

theorem sum_max_zero_nonneg (fams : List (ℤ × List (ℕ × ℕ))) :
    0 ≤ (fams.map fun f => max f.1 0).sum := by
  induction fams with
  | nil => simp
  | cons f fams ih =>
    simp only [List.map_cons, List.sum_cons]
    omega

/-- Every prefix of a visit of all events in order of position, ties in any
order, sums to between the sums of the negative and of the positive parts of
the weights. -/
theorem prefix_sum_bounds {fams : List (ℤ × List (ℕ × ℕ))}
    (hfams : ∀ f ∈ fams, Separated f.2) {L P S : List (ℕ × ℤ)}
    (hL : L.Perm (allEvents fams)) (hsorted : L.Pairwise fun a b => a.1 ≤ b.1) (hPS : L = P ++ S) :
    (fams.map fun f => min f.1 0).sum ≤ (P.map Prod.snd).sum ∧
      (P.map Prod.snd).sum ≤ (fams.map fun f => max f.1 0).sum := by
  have hlo := sum_min_zero_nonpos fams
  have hhi := sum_max_zero_nonneg fams
  rcases List.eq_nil_or_concat P with rfl | ⟨P, e, rfl⟩
  · simpa using ⟨hlo, hhi⟩
  · -- cut at the position of the last event of the prefix
    subst hPS
    rw [List.concat_eq_append] at hsorted hL ⊢
    obtain ⟨hpre, -, hacross⟩ := List.pairwise_append.1 hsorted
    have hP : ∀ d ∈ P ++ [e], d.1 ≤ e.1 := by
      intro d hd
      rcases List.mem_append.1 hd with hd | hd
      · exact (List.pairwise_append.1 hpre).2.2 d hd e List.mem_cons_self
      · rw [List.mem_singleton.1 hd]
    have hS : ∀ d ∈ S, e.1 ≤ d.1 := fun d hd => hacross e (by simp) d hd
    obtain ⟨hlo', hhi'⟩ := sum_prefix_bounds hP hS
    rw [below_perm hL, negAt_perm hL] at hlo'
    rw [below_perm hL, posAt_perm hL] at hhi'
    obtain ⟨h1, h2⟩ := allEvents_cut_bounds hfams e.1
    exact ⟨by linarith, by linarith⟩

end Sweep
