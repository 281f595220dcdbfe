import ZfsOsx.Txg.State
import ZfsOsx.Lib.Intrusive

/-!
# Per-txg lists (`module/zfs/txg.c`)

A `txg_list_t` keeps one singly linked list of objects for each of the
`TXG_SIZE` txgs in flight. The links are the `txg_node_t` embedded in each
object, with a `tn_next` pointer and a `tn_member` flag per slot.
`txg_list_add` pushes at the head and `txg_list_add_tail` walks to the end,
both only when the flag is clear; `txg_list_remove` pops the head, and
`txg_list_remove_this` searches for an object and unlinks it.

Objects are identified by the pointer `p`; the offset of the node inside them
is the same for all and is left out. The two loops are the relations
`Intrusive.WalkEnd` and `Intrusive.FindLink` from the head, and each call is a
`TxgListStep`.

* `reachable_inv`: in every state the calls reach, each slot's links form a
  chain whose nodes are exactly the objects with `tn_member` set.
* `txg_list_membership`: so no object is twice on a list, and the calls return
  what their comments say.
-/
namespace ZfsOsx.Txg

open Intrusive

variable {α : Type} [DecidableEq α]

/-- A `txg_list_t` with the `txg_node_t` of every object: `tl_head`, and per
object `tn_next` and `tn_member`, all by slot. -/
structure TxgList (α : Type) where
  head : ℕ → Option α
  next : α → ℕ → Option α
  member : α → ℕ → Bool

namespace TxgList

/-- `txg_list_create`; every object's node is zero when it is allocated. -/
def create : TxgList α := ⟨fun _ => none, fun _ _ => none, fun _ _ => false⟩

/-- The `tn_next` pointers of slot `t`. -/
def nextAt (s : TxgList α) (t : ℕ) : α → Option α := fun a => s.next a t

/-- `*tp = v` through a link of slot `t`. -/
def store (s : TxgList α) (t : ℕ) (tp : Link α) (v : Option α) : TxgList α :=
  match tp with
  | .head => { s with head := Function.update s.head t v }
  | .next a => { s with next := Function.update s.next a (Function.update (s.next a) t v) }

/-- `tn->tn_member[t] = b`. -/
def setMember (s : TxgList α) (p : α) (t : ℕ) (b : Bool) : TxgList α :=
  { s with member := Function.update s.member p (Function.update (s.member p) t b) }

end TxgList

open TxgList

/-- `txg_list_add`: push `p` unless its flag says it is on the list; whether
it was.
mirrors module/zfs/txg.c:684-705 -/
def txgListAdd (s : TxgList α) (p : α) (txg : ℕ) : TxgList α × Bool :=
  let t := txgIdx txg
  if s.member p t then (s, true)
  else (((s.setMember p t true).store t (.next p) (s.head t)).store t .head (some p), false)

/-- The writes of `txg_list_add_tail` once its walk has stopped at `tp`.
mirrors module/zfs/txg.c:711-733 -/
def txgListAddTailAt (s : TxgList α) (p : α) (t : ℕ) (tp : Link α) : TxgList α :=
  ((s.setMember p t true).store t (.next p) none).store t tp (some p)

/-- `txg_list_remove`: unlink the head and return it.
mirrors module/zfs/txg.c:738-755 -/
def txgListRemove (s : TxgList α) (txg : ℕ) : TxgList α × Option α :=
  let t := txgIdx txg
  match s.head t with
  | none => (s, none)
  | some tn => (((s.store t .head (s.next tn t)).store t (.next tn) none).setMember tn t false,
      some tn)

/-- The writes of `txg_list_remove_this` once its search has found `p` at `tp`.
mirrors module/zfs/txg.c:760-781 -/
def txgListRemoveAt (s : TxgList α) (p : α) (t : ℕ) (tp : Link α) : TxgList α :=
  ((s.store t tp (s.next p t)).store t (.next p) none).setMember p t false

/-- The calls on a list. -/
inductive TxgListCall (α : Type)
  | add (p : α) (txg : ℕ)
  | addTail (p : α) (txg : ℕ)
  | remove (txg : ℕ)
  | removeThis (p : α) (txg : ℕ)

/-- What a call returns: the `int` of the adds, the pointer of the removes. -/
inductive TxgListRet (α : Type)
  | int (b : Bool)
  | ptr (o : Option α)

/-- One call, under `tl_lock`, with what it returns. -/
inductive TxgListStep : TxgList α → TxgListCall α → TxgListRet α → TxgList α → Prop
  | add (s : TxgList α) (p : α) (txg : ℕ) :
      TxgListStep s (.add p txg) (.int (txgListAdd s p txg).2) (txgListAdd s p txg).1
  | addTailMember {s : TxgList α} {p : α} {txg : ℕ} :
      s.member p (txgIdx txg) = true → TxgListStep s (.addTail p txg) (.int true) s
  | addTail {s : TxgList α} {p : α} {txg : ℕ} {tp : Link α} :
      s.member p (txgIdx txg) = false →
      WalkEnd (s.head (txgIdx txg)) (s.nextAt (txgIdx txg)) .head tp →
      TxgListStep s (.addTail p txg) (.int false) (txgListAddTailAt s p (txgIdx txg) tp)
  | remove (s : TxgList α) (txg : ℕ) :
      TxgListStep s (.remove txg) (.ptr (txgListRemove s txg).2) (txgListRemove s txg).1
  | removeThis {s : TxgList α} {p : α} {txg : ℕ} {tp : Link α} :
      FindLink (s.head (txgIdx txg)) (s.nextAt (txgIdx txg)) p .head (some tp) →
      TxgListStep s (.removeThis p txg) (.ptr (some p)) (txgListRemoveAt s p (txgIdx txg) tp)
  | removeThisNone {s : TxgList α} {p : α} {txg : ℕ} :
      FindLink (s.head (txgIdx txg)) (s.nextAt (txgIdx txg)) p .head none →
      TxgListStep s (.removeThis p txg) (.ptr none) s

/-- The states the calls reach from `txg_list_create`. -/
def TxgListReachable (s : TxgList α) : Prop :=
  Relation.ReflTransGen (fun s s' => ∃ op r, TxgListStep s op r s') create s

/-! ## What each write changes -/

namespace TxgList

variable {s : TxgList α} {t t' : ℕ} {v : Option α} {a p : α} {b : Bool}

@[simp] theorem head_store_head : (s.store t .head v).head = Function.update s.head t v := rfl

@[simp] theorem head_store_next : (s.store t (.next a) v).head = s.head := rfl

@[simp] theorem nextAt_store_head : (s.store t .head v).nextAt t' = s.nextAt t' := rfl

theorem nextAt_store_next_self :
    (s.store t (.next a) v).nextAt t = Function.update (s.nextAt t) a v := by
  funext b
  by_cases hb : b = a
  · subst hb
    simp [store, nextAt]
  · simp [store, nextAt, hb]

theorem nextAt_store_next_of_ne (h : t' ≠ t) : (s.store t (.next a) v).nextAt t' = s.nextAt t' := by
  funext b
  by_cases hb : b = a
  · subst hb
    simp [store, nextAt, h]
  · simp [store, nextAt, hb]

@[simp] theorem member_store {tp : Link α} : (s.store t tp v).member = s.member := by
  cases tp <;> rfl

@[simp] theorem head_setMember : (s.setMember p t b).head = s.head := rfl

@[simp] theorem nextAt_setMember : (s.setMember p t b).nextAt t' = s.nextAt t' := rfl

theorem member_setMember :
    (s.setMember p t b).member a t' = if a = p ∧ t' = t then b else s.member a t' := by
  by_cases ha : a = p
  · subst ha
    by_cases ht : t' = t
    · subst ht
      simp [setMember]
    · simp [setMember, ht]
  · simp [setMember, ha]

end TxgList

/-! ## The lists a state holds -/

/-- Slot `t` holds the objects `as`: its links from the head reach them, and
`tn_member[t]` is set exactly for them. -/
def SlotHolds (s : TxgList α) (t : ℕ) (as : List α) : Prop :=
  Chain (s.nextAt t) (s.head t) as ∧ ∀ a, s.member a t = true ↔ a ∈ as

/-- `p` is on the list of slot `t`. -/
def OnList (s : TxgList α) (t : ℕ) (p : α) : Prop :=
  ∃ as, Chain (s.nextAt t) (s.head t) as ∧ p ∈ as

/-- Every slot holds some list. -/
def TxgList.Inv (s : TxgList α) : Prop := ∀ t, ∃ as, SlotHolds s t as

/-- Two states agree on slot `t`. -/
def SameSlot (s s' : TxgList α) (t : ℕ) : Prop :=
  s'.head t = s.head t ∧ s'.nextAt t = s.nextAt t ∧ ∀ a, s'.member a t = s.member a t

section Slots

variable {s s' : TxgList α} {t t' : ℕ} {as : List α} {p : α}

omit [DecidableEq α] in
theorem SlotHolds.onList_iff (h : SlotHolds s t as) : OnList s t p ↔ p ∈ as := by
  constructor
  · rintro ⟨bs, hbs, hp⟩
    rwa [h.1.unique hbs]
  · exact fun hp => ⟨as, h.1, hp⟩

omit [DecidableEq α] in
theorem SlotHolds.of_same (h : SlotHolds s t as) (hsame : SameSlot s s' t) : SlotHolds s' t as := by
  obtain ⟨hhead, hnext, hmem⟩ := hsame
  refine ⟨?_, fun a => ?_⟩
  · rw [hhead, hnext]
    exact h.1
  · rw [hmem a]
    exact h.2 a

omit [DecidableEq α] in
theorem SameSlot.refl (s : TxgList α) (t : ℕ) : SameSlot s s t := ⟨rfl, rfl, fun _ => rfl⟩

omit [DecidableEq α] in
theorem SameSlot.trans {s'' : TxgList α} (h : SameSlot s s' t) (h' : SameSlot s' s'' t) :
    SameSlot s s'' t :=
  ⟨h'.1.trans h.1, h'.2.1.trans h.2.1, fun a => (h'.2.2 a).trans (h.2.2 a)⟩

theorem sameSlot_store (h : t' ≠ t) (tp : Link α) (v : Option α) :
    SameSlot s (s.store t tp v) t' := by
  refine ⟨?_, ?_, fun _ => by rw [TxgList.member_store]⟩
  · cases tp with
    | head => simp [Function.update_of_ne h]
    | next a => rfl
  · cases tp with
    | head => rfl
    | next a => exact TxgList.nextAt_store_next_of_ne h

theorem sameSlot_setMember (h : t' ≠ t) (b : Bool) : SameSlot s (s.setMember p t b) t' :=
  ⟨rfl, rfl, fun a => by rw [TxgList.member_setMember, if_neg fun h' => h h'.2]⟩

omit [DecidableEq α] in
theorem SlotHolds.not_mem (h : SlotHolds s t as) (hp : s.member p t = false) : p ∉ as :=
  fun hpas => by rw [(h.2 p).2 hpas] at hp; cases hp

/-- The flags after `p`'s is set: `p` joins the objects of slot `t`. -/
theorem member_setMember_iff {b : α} (h : SlotHolds s t as) {bs : List α}
    (hbs : ∀ a, a ∈ bs ↔ a = p ∨ a ∈ as) :
    ((s.setMember p t true).member b t = true ↔ b ∈ bs) := by
  rw [TxgList.member_setMember, hbs b]
  by_cases hbp : b = p
  · simp [hbp]
  · simp [hbp, h.2 b]

/-- The flags after `p`'s is cleared: `p` leaves the objects of slot `t`. -/
theorem member_clear_iff {b : α} (h : SlotHolds s t as) {s' : TxgList α}
    (hs' : s'.member = s.member) {bs : List α} (hp : p ∉ bs)
    (hbs : ∀ a, a ≠ p → (a ∈ bs ↔ a ∈ as)) :
    ((s'.setMember p t false).member b t = true ↔ b ∈ bs) := by
  rw [TxgList.member_setMember, hs']
  by_cases hbp : b = p
  · subst hbp
    simp [hp]
  · simp [hbp, h.2 b, hbs b hbp]

/-- `txg_list_add` of an object not on the list pushes it in front. -/
theorem SlotHolds.add (h : SlotHolds s t as) (hp : s.member p t = false) :
    SlotHolds (((s.setMember p t true).store t (.next p) (s.head t)).store t .head (some p)) t
      (p :: as) := by
  have hpas := h.not_mem hp
  refine ⟨?_, fun b => ?_⟩
  · rw [TxgList.head_store_head, Function.update_self, TxgList.nextAt_store_head,
      TxgList.nextAt_store_next_self, TxgList.nextAt_setMember]
    refine .cons ?_
    rw [Function.update_self]
    exact h.1.update_of_not_mem hpas
  · rw [TxgList.member_store, TxgList.member_store]
    exact member_setMember_iff h fun a => List.mem_cons

/-- `txg_list_add_tail` of an object not on the list, its walk stopped after
the last object, appends it. -/
theorem SlotHolds.addTail (h : SlotHolds s t as) (hp : s.member p t = false) :
    SlotHolds (txgListAddTailAt s p t (endLink .head as)) t (as ++ [p]) := by
  have hpas := h.not_mem hp
  refine ⟨?_, fun b => ?_⟩
  · unfold txgListAddTailAt endLink
    cases hx : as.getLast? with
    | none =>
      rw [List.getLast?_eq_none_iff.1 hx] at h ⊢
      rw [TxgList.head_store_head, Function.update_self, TxgList.nextAt_store_head,
        TxgList.nextAt_store_next_self]
      exact .cons (by rw [Function.update_self]; exact .nil)
    | some x =>
      rw [TxgList.head_store_next, TxgList.head_store_next, TxgList.head_setMember,
        TxgList.nextAt_store_next_self, TxgList.nextAt_store_next_self, TxgList.nextAt_setMember]
      exact h.1.snoc hpas hx
  · rw [txgListAddTailAt, TxgList.member_store, TxgList.member_store]
    exact member_setMember_iff h fun a => by simp [or_comm]

/-- `txg_list_remove` unlinks the first object and returns it. -/
theorem SlotHolds.remove {txg : ℕ} (h : SlotHolds s (txgIdx txg) as) :
    SlotHolds (txgListRemove s txg).1 (txgIdx txg) as.tail ∧ (txgListRemove s txg).2 = as.head? := by
  unfold txgListRemove
  dsimp only
  cases hhead : s.head (txgIdx txg) with
  | none =>
    have has := (hhead ▸ h.1).none_inv
    subst has
    exact ⟨h, rfl⟩
  | some a =>
    have hchain := hhead ▸ h.1
    obtain ⟨bs, rfl, -⟩ := hchain.some_inv
    have hnd := List.nodup_cons.1 hchain.nodup
    refine ⟨⟨?_, fun b => ?_⟩, rfl⟩
    · rw [TxgList.head_setMember, TxgList.head_store_next, TxgList.head_store_head,
        Function.update_self, TxgList.nextAt_setMember, TxgList.nextAt_store_next_self,
        TxgList.nextAt_store_head]
      exact hchain.unlink_head
    · exact member_clear_iff h (by simp) hnd.1 fun c hc => by simp [hc]

/-- `txg_list_remove_this`, its search stopped at the link after the objects
before `p`, unlinks `p`. -/
theorem SlotHolds.removeAt {xs ys : List α} (h : SlotHolds s t (xs ++ p :: ys)) :
    SlotHolds (txgListRemoveAt s p t (endLink .head xs)) t (xs ++ ys) := by
  have hnd := h.1.nodup
  have hp : p ∉ xs ++ ys := (List.nodup_middle.1 hnd |> List.nodup_cons.1).1
  refine ⟨?_, fun b => ?_⟩
  · unfold txgListRemoveAt endLink
    cases hx : xs.getLast? with
    | none =>
      rw [List.getLast?_eq_none_iff.1 hx] at h ⊢
      rw [TxgList.head_setMember, TxgList.head_store_next, TxgList.head_store_head,
        Function.update_self, TxgList.nextAt_setMember, TxgList.nextAt_store_next_self,
        TxgList.nextAt_store_head]
      exact h.1.unlink_head
    | some x =>
      rw [TxgList.head_setMember, TxgList.head_store_next, TxgList.head_store_next,
        TxgList.nextAt_setMember, TxgList.nextAt_store_next_self, TxgList.nextAt_store_next_self]
      exact h.1.unlink hx
  · exact member_clear_iff h (by simp) hp fun c hc => by simp [hc]

end Slots

/-! ## Every call keeps the lists and returns what it says -/

/-- The slot a call works on. -/
def TxgListCall.slot : TxgListCall α → ℕ
  | .add _ txg | .addTail _ txg | .remove txg | .removeThis _ txg => txgIdx txg

/-- What an add returns: whether `p` was on the list, and then it leaves the
state alone. -/
def AddReturns (s : TxgList α) (t : ℕ) (p : α) (r : TxgListRet α) (s' : TxgList α) : Prop :=
  ∃ b, r = .int b ∧ (b = true ↔ OnList s t p) ∧ (b = true → s' = s)

/-- What each call returns, by the list it found. -/
def CallSpec (s : TxgList α) : TxgListCall α → TxgListRet α → TxgList α → Prop
  | .add p txg, r, s' => AddReturns s (txgIdx txg) p r s'
  | .addTail p txg, r, s' => AddReturns s (txgIdx txg) p r s'
  | .remove txg, r, _ => r = .ptr (s.head (txgIdx txg))
  | .removeThis p txg, r, _ =>
    (r = .ptr (some p) ∧ OnList s (txgIdx txg) p) ∨ (r = .ptr none ∧ ¬OnList s (txgIdx txg) p)

section Steps

variable {s s' : TxgList α} {op : TxgListCall α} {r : TxgListRet α} {t : ℕ}

/-- A call writes only its own slot. -/
theorem TxgListStep.sameSlot (hs : TxgListStep s op r s') (ht : t ≠ op.slot) : SameSlot s s' t := by
  cases hs with
  | add p txg =>
    have ht' : t ≠ txgIdx txg := ht
    unfold txgListAdd
    dsimp only
    split
    · exact .refl s t
    · dsimp only
      exact (sameSlot_setMember ht' true).trans
        ((sameSlot_store ht' _ _).trans (sameSlot_store ht' _ _))
  | addTailMember => exact .refl s t
  | @addTail p txg tp _ _ =>
    have ht' : t ≠ txgIdx txg := ht
    exact (sameSlot_setMember ht' true).trans
      ((sameSlot_store ht' _ _).trans (sameSlot_store ht' _ _))
  | remove txg =>
    have ht' : t ≠ txgIdx txg := ht
    unfold txgListRemove
    dsimp only
    split
    · exact .refl s t
    · dsimp only
      exact (sameSlot_store ht' _ _).trans
        ((sameSlot_store ht' _ _).trans (sameSlot_setMember ht' false))
  | @removeThis p txg tp _ =>
    have ht' : t ≠ txgIdx txg := ht
    exact (sameSlot_store ht' _ _).trans
      ((sameSlot_store ht' _ _).trans (sameSlot_setMember ht' false))
  | removeThisNone => exact .refl s t

/-- A call keeps a list in its own slot. -/
theorem TxgListStep.slotHolds (hs : TxgListStep s op r s') {as : List α}
    (h : SlotHolds s op.slot as) : ∃ bs, SlotHolds s' op.slot bs := by
  cases hs with
  | add p txg =>
    unfold txgListAdd
    dsimp only
    split
    · exact ⟨as, h⟩
    · next hp => exact ⟨_, h.add (Bool.eq_false_iff.2 hp)⟩
  | addTailMember => exact ⟨as, h⟩
  | addTail hp hw =>
    rw [hw.eq_endLink h.1]
    exact ⟨_, h.addTail hp⟩
  | remove txg => exact ⟨_, h.remove.1⟩
  | removeThis hf =>
    rcases hf.spec h.1 with ⟨hnone, -⟩ | ⟨xs, ys, htp, rfl, -⟩
    · cases hnone
    · cases htp
      exact ⟨_, h.removeAt⟩
  | removeThisNone => exact ⟨as, h⟩

theorem TxgListStep.inv (hs : TxgListStep s op r s') (hi : s.Inv) : s'.Inv := by
  intro t
  by_cases ht : t = op.slot
  · subst ht
    obtain ⟨as, h⟩ := hi op.slot
    exact hs.slotHolds h
  · obtain ⟨as, h⟩ := hi t
    exact ⟨as, h.of_same (hs.sameSlot ht)⟩

/-- Every call returns, from a state whose slots hold lists: the walks reach
the end of the chain. -/
theorem TxgListStep.exists_of_inv (hi : s.Inv) (op : TxgListCall α) : ∃ r s', TxgListStep s op r s' := by
  cases op with
  | add p txg => exact ⟨_, _, .add s p txg⟩
  | addTail p txg =>
    cases hm : s.member p (txgIdx txg) with
    | true => exact ⟨_, _, .addTailMember hm⟩
    | false =>
      obtain ⟨as, h⟩ := hi (txgIdx txg)
      exact ⟨_, _, .addTail hm (walkEnd_endLink h.1)⟩
  | remove txg => exact ⟨_, _, .remove s txg⟩
  | removeThis p txg =>
    obtain ⟨as, h⟩ := hi (txgIdx txg)
    by_cases hp : p ∈ as
    · obtain ⟨xs, ys, rfl⟩ := List.append_of_mem hp
      have hpxs : p ∉ xs := fun hpx => (List.nodup_middle.1 h.1.nodup |> List.nodup_cons.1).1
        (List.mem_append_left _ hpx)
      exact ⟨_, _, .removeThis (findLink_of_mem h.1 hpxs)⟩
    · exact ⟨_, _, .removeThisNone (findLink_of_not_mem h.1 hp)⟩

/-- Every call returns what its comment says of the list it found. -/
theorem TxgListStep.spec (hs : TxgListStep s op r s') (hi : s.Inv) : CallSpec s op r s' := by
  cases hs with
  | add p txg =>
    obtain ⟨as, h⟩ := hi (txgIdx txg)
    refine ⟨s.member p (txgIdx txg), ?_, ?_, fun hm => ?_⟩
    · unfold txgListAdd
      dsimp only
      split <;> simp_all
    · rw [h.onList_iff]
      exact h.2 p
    · unfold txgListAdd
      dsimp only
      rw [if_pos hm]
  | addTailMember hm =>
    obtain ⟨as, h⟩ := hi (txgIdx _)
    exact ⟨true, rfl, by rw [h.onList_iff, ← h.2]; exact iff_of_true rfl hm, fun _ => rfl⟩
  | addTail hm _ =>
    obtain ⟨as, h⟩ := hi (txgIdx _)
    exact ⟨false, rfl, by rw [h.onList_iff]; exact iff_of_false nofun (h.not_mem hm), nofun⟩
  | remove txg =>
    obtain ⟨as, h⟩ := hi (txgIdx txg)
    show TxgListRet.ptr (txgListRemove s txg).2 = _
    rw [h.remove.2]
    cases as with
    | nil => rw [h.1.nil_inv]; rfl
    | cons a bs => rw [h.1.cons_inv.1]; rfl
  | removeThis hf =>
    obtain ⟨as, h⟩ := hi (txgIdx _)
    rcases hf.spec h.1 with ⟨hnone, -⟩ | ⟨xs, ys, -, rfl, -⟩
    · cases hnone
    · exact .inl ⟨rfl, h.onList_iff.2 (by simp)⟩
  | removeThisNone hf =>
    obtain ⟨as, h⟩ := hi (txgIdx _)
    rcases hf.spec h.1 with ⟨-, hp⟩ | ⟨xs, ys, hsome, -, -⟩
    · exact .inr ⟨rfl, fun hon => hp (h.onList_iff.1 hon)⟩
    · cases hsome

end Steps

omit [DecidableEq α] in
theorem create_inv : (create : TxgList α).Inv :=
  fun _ => ⟨[], .nil, fun _ => iff_of_false nofun List.not_mem_nil⟩

theorem reachable_inv {s : TxgList α} (hs : TxgListReachable s) : s.Inv := by
  induction hs with
  | refl => exact create_inv
  | tail _ hstep ih =>
    obtain ⟨op, r, hstep⟩ := hstep
    exact hstep.inv ih

/-- In every state the calls on a `txg_list_t` reach, each slot's links form
a chain without repeats whose objects are exactly those with `tn_member` set;
every call returns, and `txg_list_add`, `txg_list_add_tail` and
`txg_list_remove_this` report by the list they found. -/
theorem txg_list_membership {s : TxgList α} (hs : TxgListReachable s) :
    (∀ t, ∃ as, as.Nodup ∧ SlotHolds s t as) ∧
      ∀ op, (∃ r s', TxgListStep s op r s') ∧ ∀ r s', TxgListStep s op r s' → CallSpec s op r s' := by
  have hi := reachable_inv hs
  refine ⟨fun t => ?_, fun op => ⟨TxgListStep.exists_of_inv hi op, fun r s' hstep => hstep.spec hi⟩⟩
  obtain ⟨as, h⟩ := hi t
  exact ⟨as, h.1.nodup, h⟩

/-- Once object `7` is on the list of txg 5, adding it again reports it there. -/
theorem txg_list_add_again :
    TxgListReachable (txgListAdd (create : TxgList ℕ) 7 5).1 ∧
      ∀ r s', TxgListStep (txgListAdd (create : TxgList ℕ) 7 5).1 (.add 7 5) r s' →
        CallSpec (txgListAdd (create : TxgList ℕ) 7 5).1 (.add 7 5) r s' :=
  have hreach : TxgListReachable (txgListAdd (create : TxgList ℕ) 7 5).1 :=
    .single ⟨_, _, .add create 7 5⟩
  ⟨hreach, ((txg_list_membership hreach).2 (.add 7 5)).2⟩

end ZfsOsx.Txg
