import Mathlib.Data.List.Nodup
import Mathlib.Logic.Function.Basic

/-!
# Intrusive singly linked lists

A list whose links live in its nodes: a head pointer, and each node's `next`
pointer. `Chain next v as` says that following the pointer `v`, then each
node's `next`, reaches the nodes `as` and ends at a null pointer. A chain never
repeats a node (`Chain.nodup`), and the updates that add a node at its end or
unlink one give the chain of the list with that node added or removed.

`Link` is a pointer to a pointer, the head or a node's `next` field, which C
loops keep as their cursor to write through: `WalkEnd` is the loop that walks to
the null pointer at the end, `FindLink` the loop that looks for a node and
stops at the link that holds it.
-/
namespace Intrusive

variable {α : Type}

/-- Following `v` and then `next` reaches the nodes `as`, then a null pointer. -/
inductive Chain (next : α → Option α) : Option α → List α → Prop
  | nil : Chain next none []
  | cons {a : α} {as : List α} : Chain next (next a) as → Chain next (some a) (a :: as)

/-- A pointer to a pointer: the head of the list or the `next` field of a node. -/
inductive Link (α : Type)
  | head
  | next (a : α)
  deriving DecidableEq, Repr

/-- The pointer a link holds. -/
def deref (head : Option α) (next : α → Option α) : Link α → Option α
  | .head => head
  | .next a => next a

/-- The link that holds the null pointer after the nodes `as` reached from `l`. -/
def endLink (l : Link α) (as : List α) : Link α :=
  match as.getLast? with
  | none => l
  | some x => .next x

/-- `for (tp = &head; *tp != NULL; tp = &(*tp)->next);`: the link the walk
from `l` stops at. -/
inductive WalkEnd (head : Option α) (next : α → Option α) : Link α → Link α → Prop
  | stop {l : Link α} : deref head next l = none → WalkEnd head next l l
  | step {l e : Link α} {a : α} :
      deref head next l = some a → WalkEnd head next (.next a) e → WalkEnd head next l e

/-- `for (tp = &head; (tn = *tp) != NULL; tp = &tn->next) if (tn == p) ...`:
the link that holds `p`, or `none` when the walk from `l` reaches the end first. -/
inductive FindLink (head : Option α) (next : α → Option α) (p : α) :
    Link α → Option (Link α) → Prop
  | found {l : Link α} : deref head next l = some p → FindLink head next p l (some l)
  | skip {l : Link α} {r : Option (Link α)} {a : α} :
      deref head next l = some a → a ≠ p → FindLink head next p (.next a) r →
        FindLink head next p l r
  | done {l : Link α} : deref head next l = none → FindLink head next p l none

section Chain

variable {next next' : α → Option α} {v : Option α} {as bs : List α}

theorem Chain.unique (h : Chain next v as) (h' : Chain next v bs) : as = bs := by
  induction h generalizing bs with
  | nil => cases h'; rfl
  | cons _ ih =>
    cases h' with
    | cons h' => rw [ih h']

theorem Chain.congr (h : Chain next v as) (hn : ∀ a ∈ as, next' a = next a) : Chain next' v as := by
  induction h with
  | nil => exact .nil
  | @cons a as _ ih =>
    refine .cons ?_
    rw [hn a List.mem_cons_self]
    exact ih fun b hb => hn b (List.mem_cons_of_mem a hb)

/-- A chain through `xs ++ ys` goes on from some pointer as a chain through `ys`. -/
theorem Chain.of_append {xs ys : List α} (h : Chain next v (xs ++ ys)) :
    ∃ w, Chain next w ys := by
  induction xs generalizing v with
  | nil => exact ⟨v, h⟩
  | cons x xs ih =>
    cases h with
    | cons h => exact ih h

theorem Chain.cons_inv {w : Option α} {a : α} (h : Chain next w (a :: as)) :
    w = some a ∧ Chain next (next a) as := by
  cases h with
  | cons h => exact ⟨rfl, h⟩

/-- A chain ends, so it never comes back to a node. -/
theorem Chain.nodup (h : Chain next v as) : as.Nodup := by
  induction h with
  | nil => exact List.nodup_nil
  | @cons a as h ih =>
    refine List.nodup_cons.2 ⟨fun ha => ?_, ih⟩
    obtain ⟨xs, ys, rfl⟩ := List.append_of_mem ha
    obtain ⟨w, hw⟩ := Chain.of_append h
    have hlen := congrArg List.length (h.unique hw.cons_inv.2)
    simp only [List.length_append, List.length_cons] at hlen
    omega

theorem Chain.update_of_not_mem [DecidableEq α] {p : α} {w : Option α} (h : Chain next v as)
    (hp : p ∉ as) : Chain (Function.update next p w) v as :=
  h.congr fun a ha => Function.update_of_ne (fun (hap : a = p) => hp (hap ▸ ha)) _ _

/-- Adding `p` after the last node `x`: `x`'s `next` takes `p`, whose own
`next` is null. -/
theorem Chain.snoc [DecidableEq α] {p x : α} (h : Chain next v as) (hp : p ∉ as)
    (hx : as.getLast? = some x) :
    Chain (Function.update (Function.update next p none) x (some p)) v (as ++ [p]) := by
  induction h with
  | nil => cases hx
  | @cons a as h ih =>
    have hnd := (Chain.cons h).nodup
    have hpa : p ≠ a := fun hpa => hp (hpa ▸ List.mem_cons_self)
    refine .cons ?_
    cases as with
    | nil =>
      have hxa : x = a := by simpa using hx.symm
      subst hxa
      rw [Function.update_self]
      exact .cons (by rw [Function.update_of_ne hpa, Function.update_self]; exact .nil)
    | cons b bs =>
      have hxs : x ∈ b :: bs := List.mem_of_getLast? (by simpa using hx)
      have hax : a ≠ x := fun (hax : a = x) => (List.nodup_cons.1 hnd).1 (hax ▸ hxs)
      rw [Function.update_of_ne hax, Function.update_of_ne hpa.symm]
      exact ih (fun hpb => hp (List.mem_cons_of_mem a hpb)) (by simpa using hx)

/-- Unlinking the first node `p`: the head takes `p`'s `next`, and `p`'s is cleared. -/
theorem Chain.unlink_head [DecidableEq α] {p : α} {ys : List α} (h : Chain next v (p :: ys)) :
    Chain (Function.update next p none) (next p) ys :=
  h.cons_inv.2.update_of_not_mem (List.nodup_cons.1 h.nodup).1

/-- Unlinking `p` from behind `x`: `x`'s `next` takes `p`'s, and `p`'s is cleared. -/
theorem Chain.unlink [DecidableEq α] {p x : α} {xs ys : List α}
    (h : Chain next v (xs ++ p :: ys)) (hx : xs.getLast? = some x) :
    Chain (Function.update (Function.update next x (next p)) p none) v (xs ++ ys) := by
  induction xs generalizing v with
  | nil => cases hx
  | cons a xs ih =>
    have hnd := h.nodup
    obtain ⟨rfl, hrest⟩ := h.cons_inv
    have ha : a ∉ xs ++ p :: ys := (List.nodup_cons.1 hnd).1
    have hap : a ≠ p := fun (hap : a = p) => ha (by simp [hap])
    refine .cons ?_
    rw [Function.update_of_ne hap]
    cases xs with
    | nil =>
      have hxa : x = a := by simpa using hx.symm
      subst hxa
      simp only [List.append_eq, List.nil_append] at hrest ⊢
      rw [Function.update_self]
      have hpys : p ∉ ys := (List.nodup_cons.1 (List.nodup_cons.1 hnd).2).1
      have hxys : x ∉ ys := fun hxy => ha (by simp [hxy])
      refine hrest.cons_inv.2.congr fun b hb => ?_
      rw [Function.update_of_ne (fun (e : b = p) => hpys (e ▸ hb)),
        Function.update_of_ne (fun (e : b = x) => hxys (e ▸ hb))]
    | cons b xs =>
      have hxs : x ∈ b :: xs := List.mem_of_getLast? (by simpa using hx)
      have hax : a ≠ x := fun (hax : a = x) => ha (List.mem_append_left _ (hax ▸ hxs))
      rw [Function.update_of_ne hax]
      exact ih hrest (by simpa using hx)

theorem Chain.none_inv (h : Chain next none as) : as = [] := h.unique .nil

theorem Chain.nil_inv {w : Option α} (h : Chain next w []) : w = none := by
  cases h
  rfl

theorem Chain.some_inv {a : α} (h : Chain next (some a) as) :
    ∃ bs, as = a :: bs ∧ Chain next (next a) bs := by
  cases h with
  | cons h => exact ⟨_, rfl, h⟩

end Chain

section Loops

variable {head : Option α} {next : α → Option α} {l e : Link α} {as : List α}

theorem endLink_nil (l : Link α) : endLink l [] = l := rfl

theorem endLink_cons (l : Link α) (a : α) (as : List α) :
    endLink l (a :: as) = endLink (.next a) as := by
  unfold endLink
  cases as with
  | nil => rfl
  | cons b bs =>
    rw [List.getLast?_cons_cons, List.getLast?_eq_some_getLast (List.cons_ne_nil b bs)]

/-- The walk to the end stops at the link after the last node. -/
theorem walkEnd_endLink (h : Chain next (deref head next l) as) :
    WalkEnd head next l (endLink l as) := by
  induction as generalizing l with
  | nil => exact .stop (h.nil_inv)
  | cons a as ih =>
    obtain ⟨ha, hrest⟩ := h.cons_inv
    rw [endLink_cons]
    exact .step ha (ih hrest)

theorem WalkEnd.eq_endLink (hw : WalkEnd head next l e) (h : Chain next (deref head next l) as) :
    e = endLink l as := by
  induction hw generalizing as with
  | stop hl =>
    rw [hl] at h
    rw [h.none_inv, endLink_nil]
  | step hl _ ih =>
    rw [hl] at h
    obtain ⟨bs, rfl, hbs⟩ := h.some_inv
    rw [endLink_cons]
    exact ih hbs

/-- The search for a node on the chain stops at the link after the nodes before it. -/
theorem findLink_of_mem {p : α} {xs ys : List α} (h : Chain next (deref head next l) (xs ++ p :: ys))
    (hp : p ∉ xs) : FindLink head next p l (some (endLink l xs)) := by
  induction xs generalizing l with
  | nil => exact .found h.cons_inv.1
  | cons x xs ih =>
    obtain ⟨hx, hrest⟩ := h.cons_inv
    have hxp : x ≠ p := fun hxp => hp (hxp ▸ List.mem_cons_self)
    rw [endLink_cons]
    exact .skip hx hxp (ih hrest fun hp' => hp (List.mem_cons_of_mem x hp'))

theorem findLink_of_not_mem {p : α} (h : Chain next (deref head next l) as) (hp : p ∉ as) :
    FindLink head next p l none := by
  induction as generalizing l with
  | nil => exact .done h.nil_inv
  | cons a as ih =>
    obtain ⟨ha, hrest⟩ := h.cons_inv
    exact .skip ha (fun hap => hp (hap ▸ List.mem_cons_self))
      (ih hrest fun hp' => hp (List.mem_cons_of_mem a hp'))

/-- What the search finds: nothing when the node is not on the chain, else the
link after the nodes before it. -/
theorem FindLink.spec {p : α} {r : Option (Link α)} (hf : FindLink head next p l r)
    (h : Chain next (deref head next l) as) :
    (r = none ∧ p ∉ as) ∨ ∃ xs ys, r = some (endLink l xs) ∧ as = xs ++ p :: ys ∧ p ∉ xs := by
  induction hf generalizing as with
  | found hl =>
    rw [hl] at h
    obtain ⟨bs, rfl, -⟩ := h.some_inv
    exact .inr ⟨[], bs, rfl, rfl, List.not_mem_nil⟩
  | skip hl hap _ ih =>
    rw [hl] at h
    obtain ⟨bs, rfl, hbs⟩ := h.some_inv
    rcases ih hbs with ⟨rfl, hp⟩ | ⟨xs, ys, rfl, rfl, hp⟩
    · exact .inl ⟨rfl, fun hp' => (List.mem_cons.1 hp').elim (fun e => hap e.symm) hp⟩
    · refine .inr ⟨_ :: xs, ys, by rw [endLink_cons], rfl, ?_⟩
      exact fun hp' => (List.mem_cons.1 hp').elim (fun e => hap e.symm) hp
  | done hl =>
    rw [hl] at h
    rw [h.none_inv]
    exact .inl ⟨rfl, List.not_mem_nil⟩

end Loops

end Intrusive
