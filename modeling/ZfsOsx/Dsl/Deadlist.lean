import ZfsOsx.Dsl.Bpobj
import ZfsOsx.Lib.Ordered

/-!
# Deadlists (`module/zfs/dsl_deadlist.c`)

A new-format deadlist keeps, for each key `mintxg`, a bpobj of the blocks
born after `mintxg` and at or before the next key; `dl_tree` holds the
entries in key order (the ZAP holds the same pairs) and the bonus buffer
counts `dl_used`, `dl_comp` and `dl_uncomp`. An entry whose bpobj is the
pool's shared empty bpobj gets a bpobj of its own on its first block.

The model keeps `dl_tree` as the list of its entries in key order; its
nodes are known by their keys, so `avl_find`, `avl_nearest`, `AVL_PREV` and
`AVL_NEXT` are the entries at, below or above a key.

* `DeadlistInv`: keys increase, every entry's bpobj counts exactly what it
  reaches, every block of the entry with key `k` is born in `(k, k']` for
  the next key `k'`, and the counters count every block the entries reach.
* One lemma per operation keeps it: `dsl_deadlist_add_key` with a key above
  every key and birth, `dsl_deadlist_insert`, `dsl_deadlist_remove_key`,
  `dsl_deadlist_move_bpobj` (whose moved entries end up reached from the
  bpobj), and `dsl_deadlist_merge` of entries that each fall in one interval
  of the keys; `DeadlistReach.inv` is the run lemma.
* `DeadlistInv.spaceRange_eq`: then `dsl_deadlist_space_range(mintxg,
  maxtxg)` is the space of the blocks born in `(mintxg, maxtxg]`;
  `deadlist_partition` puts the two together.
* `dsl_deadlist_merge_misplaces`: a merge of a deadlist whose keys do not
  line up with the target's files blocks under the wrong key.
-/
namespace ZfsOsx.Dsl

/-- What `bpobj_space` returns for an object number. -/
def BpobjRef.space : BpobjRef → Space
  | .empty => 0
  | .obj bpo => bpo.space

/-- The block pointers an object number reaches. -/
def BpobjRef.reach : BpobjRef → List Bp
  | .empty => []
  | .obj bpo => bpo.reach

/-- `dsl_deadlist_entry_t`: the key `dle_mintxg` and the entry's bpobj. -/
structure DeadlistEntry where
  mintxg : ℕ
  bpobj : BpobjRef

/-- A new-format `dsl_deadlist_t`: the entries of `dl_tree` in key order,
and `dl_used`, `dl_comp`, `dl_uncomp`. -/
structure Deadlist where
  tree : List DeadlistEntry
  space : Space

/-- `avl_find` of the key `k`. -/
def dlFind (tree : List DeadlistEntry) (k : ℕ) : Option DeadlistEntry :=
  tree.find? (·.mintxg = k)

/-- The entry before a key in `dl_tree`: `avl_nearest(..., AVL_BEFORE)` at
the place of a key not found, and `AVL_PREV` of an entry. -/
def dlBefore (tree : List DeadlistEntry) (k : ℕ) : Option DeadlistEntry :=
  (tree.filter (·.mintxg < k)).getLast?

/-- The entries from `avl_find` of `mintxg`, or else `avl_nearest(...,
AVL_AFTER)`, on through `AVL_NEXT`: those at or above `mintxg`. -/
def dlFrom (tree : List DeadlistEntry) (mintxg : ℕ) : List DeadlistEntry :=
  tree.dropWhile (·.mintxg < mintxg)

/-- The entry with key `k` changed by `f`. -/
def dlUpdate (tree : List DeadlistEntry) (k : ℕ) (f : DeadlistEntry → DeadlistEntry) :
    List DeadlistEntry :=
  tree.map fun e => if e.mintxg = k then f e else e

/-- `dle_enqueue(dl, dle, bp, tx)`: an entry on the shared empty bpobj gets a
new bpobj first.
mirrors module/zfs/dsl_deadlist.c:179-193 -/
def DeadlistEntry.enqueue (dle : DeadlistEntry) (bp : Bp) : DeadlistEntry :=
  match dle.bpobj with
  | .empty => { dle with bpobj := .obj (Bpobj.empty.enqueue bp) }
  | .obj bpo => { dle with bpobj := .obj (bpo.enqueue bp) }

/-- `dle_enqueue_subobj(dl, dle, obj, tx)`: an entry on the shared empty
bpobj takes `obj` as its bpobj.
mirrors module/zfs/dsl_deadlist.c:195-209 -/
def DeadlistEntry.enqueueSubobj (dle : DeadlistEntry) (obj : BpobjRef) (flatten : Bool) :
    DeadlistEntry :=
  match dle.bpobj with
  | .obj bpo => { dle with bpobj := .obj (bpo.enqueueSubobj obj flatten) }
  | .empty => { dle with bpobj := obj }

/-- `dsl_deadlist_insert(dl, bp, tx)`: the block goes to the entry before
its birth. `none` where there is none, and the code dereferences NULL.
mirrors module/zfs/dsl_deadlist.c:211-238 -/
def dslDeadlistInsert (dl : Deadlist) (bp : Bp) : Option Deadlist :=
  let space := dl.space + bp.space
  let dle := match dlFind dl.tree bp.birth with
    | none => dlBefore dl.tree bp.birth
    | some dle => dlBefore dl.tree dle.mintxg
  match dle with
  | none => none
  | some dle => some ⟨dlUpdate dl.tree dle.mintxg (·.enqueue bp), space⟩

/-- `dsl_deadlist_add_key(dl, mintxg, tx)`. `emptyBpobj` is whether the pool
has the empty-bpobj feature, with which `bpobj_alloc_empty` returns
`dp_empty_bpobj`. `none` where the key is there already and `avl_add`
panics.
mirrors module/zfs/dsl_deadlist.c:244-263 -/
def dslDeadlistAddKey (dl : Deadlist) (mintxg : ℕ) (emptyBpobj : Bool) : Option Deadlist :=
  match dlFind dl.tree mintxg with
  | some _ => none
  | none => some { dl with
      tree := dl.tree.orderedInsert (fun a b => a.mintxg ≤ b.mintxg)
        ⟨mintxg, if emptyBpobj then .empty else .obj Bpobj.empty⟩ }

/-- `dsl_deadlist_remove_key(dl, mintxg, tx)`: the entry's bpobj goes to the
entry before it. `none` where the key or the entry before it is missing.
mirrors module/zfs/dsl_deadlist.c:268-289 -/
def dslDeadlistRemoveKey (dl : Deadlist) (mintxg : ℕ) (flatten : Bool) : Option Deadlist :=
  match dlFind dl.tree mintxg with
  | none => none
  | some dle =>
    match dlBefore dl.tree dle.mintxg with
    | none => none
    | some prev =>
      some { dl with
        tree := (dlUpdate dl.tree prev.mintxg (·.enqueueSubobj dle.bpobj flatten)).filter
          (·.mintxg ≠ mintxg) }

/-- `dsl_deadlist_space_range(dl, mintxg, maxtxg)`: the entries from the key
`mintxg` up to those below `maxtxg`; nothing if `mintxg` is not a key.
mirrors module/zfs/dsl_deadlist.c:373-412 -/
def dslDeadlistSpaceRange (dl : Deadlist) (mintxg maxtxg : ℕ) : Space :=
  match dlFind dl.tree mintxg with
  | none => 0
  | some _ => (((dlFrom dl.tree mintxg).takeWhile (·.mintxg < maxtxg)).map (·.bpobj.space)).sum

/-- `dsl_deadlist_insert_bpobj(dl, obj, birth, tx)`: the bpobj goes to the
entry with key `birth`, or else the one before it.
mirrors module/zfs/dsl_deadlist.c:414-443 -/
def dslDeadlistInsertBpobj (dl : Deadlist) (obj : BpobjRef) (birth : ℕ) (flatten : Bool) :
    Option Deadlist :=
  let space := dl.space + obj.space
  let dle := match dlFind dl.tree birth with
    | none => dlBefore dl.tree birth
    | some dle => some dle
  match dle with
  | none => none
  | some dle => some ⟨dlUpdate dl.tree dle.mintxg (·.enqueueSubobj obj flatten), space⟩

/-- `dsl_deadlist_merge(dl, obj, tx)` of a new-format deadlist, whose
entries the ZAP cursor gives in the order `zapOrder`; the merged deadlist
is left empty.
mirrors module/zfs/dsl_deadlist.c:457-493 -/
def dslDeadlistMerge (dl : Deadlist) (zapOrder : List DeadlistEntry)
    (flatten : DeadlistEntry → Bool) : Option Deadlist :=
  zapOrder.foldlM (fun dl e => dslDeadlistInsertBpobj dl e.bpobj e.mintxg (flatten e)) dl

/-- `dsl_deadlist_move_bpobj(dl, bpo, mintxg, tx)`: the entries at or above
`mintxg` leave the deadlist for sub-bpobjs of `bpo`.
mirrors module/zfs/dsl_deadlist.c:498-536 -/
def dslDeadlistMoveBpobj (dl : Deadlist) (bpo : Bpobj) (mintxg : ℕ)
    (flatten : DeadlistEntry → Bool) : Deadlist × Bpobj :=
  let moved := dlFrom dl.tree mintxg
  ({ tree := dl.tree.filter (·.mintxg < mintxg),
     space := moved.foldl (fun space dle => space - dle.bpobj.space) dl.space },
   moved.foldl (fun bpo dle => bpo.enqueueSubobj dle.bpobj (flatten dle)) bpo)

/-! ## The partition invariant -/

/-- An object number counts what it reaches; the shared empty bpobj reaches
nothing. -/
def BpobjRef.Exact : BpobjRef → Prop
  | .empty => True
  | .obj bpo => bpo.Exact

@[simp] theorem BpobjRef.reach_empty : BpobjRef.empty.reach = [] := rfl

@[simp] theorem BpobjRef.reach_obj (bpo : Bpobj) : (BpobjRef.obj bpo).reach = bpo.reach := rfl

theorem BpobjRef.Exact.space_eq : ∀ {r : BpobjRef}, r.Exact → r.space = spaceOf r.reach
  | .empty, _ => rfl
  | .obj _, h => h

/-- The keys of `dl_tree`, in its order. -/
@[grind] def keysOf (tree : List DeadlistEntry) : List ℕ := tree.map (·.mintxg)

/-- The block pointers the entries' bpobjs reach. -/
def reachOf (tree : List DeadlistEntry) : List Bp := tree.flatMap (·.bpobj.reach)

@[simp] theorem reachOf_nil : reachOf [] = [] := rfl

@[simp] theorem reachOf_cons (e : DeadlistEntry) (tree : List DeadlistEntry) :
    reachOf (e :: tree) = e.bpobj.reach ++ reachOf tree := rfl

@[simp] theorem reachOf_append (t₁ t₂ : List DeadlistEntry) :
    reachOf (t₁ ++ t₂) = reachOf t₁ ++ reachOf t₂ := List.flatMap_append

theorem mem_reachOf {tree : List DeadlistEntry} {e : DeadlistEntry} {bp : Bp} (he : e ∈ tree)
    (hbp : bp ∈ e.bpobj.reach) : bp ∈ reachOf tree :=
  List.mem_flatMap.2 ⟨e, he, hbp⟩

/-- A birth in the interval that starts at the key `k`: after `k`, and at or
before every larger key. -/
def InInterval (keys : List ℕ) (k birth : ℕ) : Prop :=
  k < birth ∧ ∀ k' ∈ keys, k < k' → birth ≤ k'

/-- Fewer keys bound a birth less. -/
theorem InInterval.mono {keys keys' : List ℕ} {k birth : ℕ} (h : InInterval keys k birth)
    (hsub : ∀ k' ∈ keys', k' ∈ keys) : InInterval keys' k birth :=
  ⟨h.1, fun k' hk' hlt => h.2 k' (hsub k' hk') hlt⟩

/-- The partition invariant of a new-format deadlist: keys increase, each
entry's bpobj counts exactly what it reaches, every block of the entry with
key `k` is born in `(k, k']` for the next key `k'`, and `dl_used`,
`dl_comp`, `dl_uncomp` count all the blocks the entries reach. -/
structure DeadlistInv (dl : Deadlist) : Prop where
  sorted : dl.tree.Pairwise (fun a b => a.mintxg < b.mintxg)
  exact : ∀ e ∈ dl.tree, e.bpobj.Exact
  births : ∀ e ∈ dl.tree, ∀ bp ∈ e.bpobj.reach, InInterval (keysOf dl.tree) e.mintxg bp.birth
  space : dl.space = spaceOf (reachOf dl.tree)

/-- `dsl_deadlist_alloc` starts with no entries and zero counters. -/
theorem DeadlistInv.nil : DeadlistInv ⟨[], 0⟩ :=
  ⟨List.Pairwise.nil, by simp, by simp, rfl⟩

/-- With exact bpobjs, what the entries' counters add up to is the space of
what they reach. -/
theorem sum_space_eq {tree : List DeadlistEntry} (hex : ∀ e ∈ tree, e.bpobj.Exact) :
    (tree.map (·.bpobj.space)).sum = spaceOf (reachOf tree) := by
  induction tree with
  | nil => rfl
  | cons e tree ih =>
    rw [List.map_cons, List.sum_cons, (hex e List.mem_cons_self).space_eq,
      ih fun e' he' => hex e' (List.mem_cons_of_mem _ he'), reachOf_cons, spaceOf_append]

theorem DeadlistInv.space_eq_sum {dl : Deadlist} (h : DeadlistInv dl) :
    dl.space = (dl.tree.map (·.bpobj.space)).sum := by
  rw [h.space, sum_space_eq h.exact]

/-! ### Finding entries in an ordered tree -/

section Find

variable {tree pre post : List DeadlistEntry} {d : DeadlistEntry} {k : ℕ}

theorem dlFind_eq_some (h : dlFind tree k = some d) : d ∈ tree ∧ d.mintxg = k :=
  ⟨List.mem_of_find?_eq_some h, by simpa using List.find?_some h⟩

theorem dlFind_eq_none (h : dlFind tree k = none) : ∀ e ∈ tree, e.mintxg ≠ k := by
  simpa [dlFind] using List.find?_eq_none.1 h

theorem exists_dlFind (hk : k ∈ keysOf tree) : ∃ d, dlFind tree k = some d := by
  obtain ⟨e, he, rfl⟩ := List.mem_map.1 hk
  cases hf : dlFind tree e.mintxg with
  | none => exact absurd rfl (dlFind_eq_none hf e he)
  | some d => exact ⟨d, rfl⟩

/-- The entry before `k` is the last key below `k`. -/
theorem dlBefore_eq_some (hs : tree.Pairwise (fun a b => a.mintxg < b.mintxg))
    (h : dlBefore tree k = some d) :
    d ∈ tree ∧ d.mintxg < k ∧ ∀ e ∈ tree, e.mintxg < k → e.mintxg ≤ d.mintxg := by
  have hd := List.mem_filter.1 (List.mem_of_getLast? h)
  refine ⟨hd.1, by simpa using hd.2, fun e he hek => ?_⟩
  exact List.le_of_getLast?_eq_some (·.mintxg) (hs.filter _) h e
    (List.mem_filter.2 ⟨he, by simpa using hek⟩)

/-- In a tree ordered by key, the entries in front of `d` are below it and
those after it above. -/
theorem sorted_split (hs : (pre ++ d :: post).Pairwise (fun a b => a.mintxg < b.mintxg)) :
    (∀ e ∈ pre, e.mintxg < d.mintxg) ∧ ∀ e ∈ post, d.mintxg < e.mintxg := by
  rw [List.pairwise_append, List.pairwise_cons] at hs
  exact ⟨fun e he => hs.2.2 e he d List.mem_cons_self, hs.2.1.1⟩

/-- The entries after two neighbours are above the second. -/
theorem sorted_after_next {d' : DeadlistEntry}
    (hs : (pre ++ d :: d' :: post).Pairwise (fun a b => a.mintxg < b.mintxg)) :
    ∀ e ∈ post, d'.mintxg < e.mintxg := by
  have hs' : ((pre ++ [d]) ++ d' :: post).Pairwise (fun a b => a.mintxg < b.mintxg) := by
    simpa using hs
  exact (sorted_split hs').2

/-- `AVL_PREV` of an entry is the last of those in front of it. -/
theorem dlBefore_split (hs : (pre ++ d :: post).Pairwise (fun a b => a.mintxg < b.mintxg)) :
    dlBefore (pre ++ d :: post) d.mintxg = pre.getLast? := by
  obtain ⟨hpre, hpost⟩ := sorted_split hs
  have hpre' : pre.filter (·.mintxg < d.mintxg) = pre := List.filter_eq_self.2 (by simpa using hpre)
  have hpost' : post.filter (·.mintxg < d.mintxg) = [] :=
    List.filter_eq_nil_iff.2 (by simpa using fun e he => (hpost e he).le)
  rw [dlBefore, List.filter_append, List.filter_cons_of_neg (by simp), hpre', hpost',
    List.append_nil]

/-- In an ordered tree, `dlUpdate` at an entry's key changes that entry
alone. -/
theorem dlUpdate_split (hs : (pre ++ d :: post).Pairwise (fun a b => a.mintxg < b.mintxg))
    (f : DeadlistEntry → DeadlistEntry) :
    dlUpdate (pre ++ d :: post) d.mintxg f = pre ++ f d :: post := by
  obtain ⟨hpre, hpost⟩ := sorted_split hs
  have hkeep : ∀ l : List DeadlistEntry, (∀ e ∈ l, e.mintxg ≠ d.mintxg) →
      l.map (fun e => if e.mintxg = d.mintxg then f e else e) = l := fun l hl =>
    (List.map_congr_left fun e he => if_neg (hl e he)).trans (List.map_id' l)
  rw [dlUpdate, List.map_append, List.map_cons, if_pos rfl,
    hkeep pre fun e he => (hpre e he).ne, hkeep post fun e he => (hpost e he).ne']

theorem keysOf_dlUpdate (tree : List DeadlistEntry) (k : ℕ) {f : DeadlistEntry → DeadlistEntry}
    (hf : ∀ e, (f e).mintxg = e.mintxg) : keysOf (dlUpdate tree k f) = keysOf tree := by
  rw [keysOf, keysOf, dlUpdate, List.map_map]
  refine List.map_congr_left fun e _ => ?_
  by_cases h : e.mintxg = k <;> simp [h, hf]

end Find

/-! ### Entries -/

section Entry

variable (dle : DeadlistEntry)

@[simp] theorem DeadlistEntry.mintxg_enqueue (bp : Bp) : (dle.enqueue bp).mintxg = dle.mintxg := by
  unfold DeadlistEntry.enqueue
  split <;> rfl

@[simp] theorem DeadlistEntry.mintxg_enqueueSubobj (obj : BpobjRef) (flatten : Bool) :
    (dle.enqueueSubobj obj flatten).mintxg = dle.mintxg := by
  unfold DeadlistEntry.enqueueSubobj
  split <;> rfl

theorem DeadlistEntry.reach_enqueue (bp : Bp) :
    (dle.enqueue bp).bpobj.reach.Perm (bp :: dle.bpobj.reach) := by
  unfold DeadlistEntry.enqueue
  split
  next h => rw [h]; exact Bpobj.reach_enqueue Bpobj.empty bp
  next bpo h => rw [h]; exact Bpobj.reach_enqueue bpo bp

theorem DeadlistEntry.exact_enqueue {dle : DeadlistEntry} (h : dle.bpobj.Exact) (bp : Bp) :
    (dle.enqueue bp).bpobj.Exact := by
  unfold DeadlistEntry.enqueue
  split
  next => exact (show Bpobj.empty.Exact from rfl).enqueue bp
  next bpo hb => rw [hb] at h; exact Bpobj.Exact.enqueue h bp

/-- `bpobj_enqueue_subobj` of an object number adds what it reaches. -/
theorem reach_enqueueSubobj_ref (bpo : Bpobj) {obj : BpobjRef} (hobj : obj.Exact) (flatten : Bool) :
    (bpo.enqueueSubobj obj flatten).reach = bpo.reach ++ obj.reach := by
  cases obj with
  | empty => simp [Bpobj.enqueueSubobj]
  | obj sub => exact Bpobj.reach_enqueueSubobj bpo sub flatten hobj

theorem exact_enqueueSubobj_ref {bpo : Bpobj} (h : bpo.Exact) {obj : BpobjRef} (hobj : obj.Exact)
    (flatten : Bool) : (bpo.enqueueSubobj obj flatten).Exact :=
  h.enqueueSubobj obj flatten fun _ hsub => by subst hsub; exact hobj

theorem DeadlistEntry.reach_enqueueSubobj {obj : BpobjRef} (hobj : obj.Exact) (flatten : Bool) :
    (dle.enqueueSubobj obj flatten).bpobj.reach = dle.bpobj.reach ++ obj.reach := by
  unfold DeadlistEntry.enqueueSubobj
  split
  next bpo hb => rw [hb]; exact reach_enqueueSubobj_ref bpo hobj flatten
  next hb => rw [hb]; rfl

theorem DeadlistEntry.exact_enqueueSubobj {dle : DeadlistEntry} (h : dle.bpobj.Exact)
    {obj : BpobjRef} (hobj : obj.Exact) (flatten : Bool) :
    (dle.enqueueSubobj obj flatten).bpobj.Exact := by
  unfold DeadlistEntry.enqueueSubobj
  split
  next bpo hb => rw [hb] at h; exact exact_enqueueSubobj_ref h hobj flatten
  next => exact hobj

end Entry

/-! ### Each operation keeps the invariant -/

section Preserve

variable {dl dl' : Deadlist}

/-- Replacing one entry by another with the same key, an exact bpobj and
blocks born in the entry's interval keeps the invariant, with the counters
moved by the change in what the entry reaches. -/
theorem DeadlistInv.replace {pre post : List DeadlistEntry} {d d' : DeadlistEntry}
    {space space' : Space} (h : DeadlistInv ⟨pre ++ d :: post, space⟩)
    (hkey : d'.mintxg = d.mintxg) (hexact : d'.bpobj.Exact)
    (hbirths : ∀ bp ∈ d'.bpobj.reach, InInterval (keysOf (pre ++ d :: post)) d.mintxg bp.birth)
    (hspace : space' = space - spaceOf d.bpobj.reach + spaceOf d'.bpobj.reach) :
    DeadlistInv ⟨pre ++ d' :: post, space'⟩ := by
  have hkeys : keysOf (pre ++ d' :: post) = keysOf (pre ++ d :: post) := by simp [keysOf, hkey]
  -- every entry but `d'` is one of the old tree
  have hmem : ∀ e ∈ pre ++ d' :: post, e = d' ∨ e ∈ pre ++ d :: post := by
    intro e he
    simp only [List.mem_append, List.mem_cons] at he ⊢
    rcases he with he | rfl | he
    · exact Or.inr (Or.inl he)
    · exact Or.inl rfl
    · exact Or.inr (Or.inr (Or.inr he))
  refine ⟨?_, ?_, ?_, ?_⟩
  · have hs : (keysOf (pre ++ d' :: post)).Pairwise (· < ·) :=
      hkeys ▸ List.pairwise_map.2 h.sorted
    exact List.pairwise_map.1 hs
  · intro e he
    rcases hmem e he with rfl | he
    exacts [hexact, h.exact e he]
  · intro e he bp hbp
    rw [hkeys]
    rcases hmem e he with rfl | he
    · rw [hkey]
      exact hbirths bp hbp
    · exact h.births e he bp hbp
  · have hsp : space = spaceOf (reachOf (pre ++ d :: post)) := h.space
    show space' = spaceOf (reachOf (pre ++ d' :: post))
    rw [hspace, hsp]
    simp only [reachOf_append, reachOf_cons, spaceOf_append]
    abel

/-- A birth after `d`'s key lies in `d`'s interval when `d` has the last key
below it. -/
theorem inInterval_of_before {tree : List DeadlistEntry} {d : DeadlistEntry} {b : ℕ}
    (hlt : d.mintxg < b) (hmax : ∀ e ∈ tree, e.mintxg < b → e.mintxg ≤ d.mintxg) :
    InInterval (keysOf tree) d.mintxg b := by
  refine ⟨hlt, fun k' hk' hdk => ?_⟩
  obtain ⟨e, he, rfl⟩ := List.mem_map.1 hk'
  by_contra hb
  have := hmax e he (by omega)
  omega

/-- A birth in the interval of `k` lies in `d`'s interval when `d` has the
last key at or below `k`. -/
theorem inInterval_of_le {tree : List DeadlistEntry} {d : DeadlistEntry} {k b : ℕ}
    (hle : d.mintxg ≤ k) (hmax : ∀ e ∈ tree, e.mintxg ≤ k → e.mintxg ≤ d.mintxg)
    (h : InInterval (keysOf tree) k b) : InInterval (keysOf tree) d.mintxg b := by
  refine ⟨lt_of_le_of_lt hle h.1, fun k' hk' hdk => h.2 k' hk' ?_⟩
  obtain ⟨e, he, rfl⟩ := List.mem_map.1 hk'
  by_contra hb
  have := hmax e he (by omega)
  omega

/-- `dsl_deadlist_add_key` with a key above every key and every birth appends
an empty entry. -/
theorem DeadlistInv.addKey (h : DeadlistInv dl) {mintxg : ℕ} {emptyBpobj : Bool}
    (hk : ∀ e ∈ dl.tree, e.mintxg < mintxg) (hb : ∀ bp ∈ reachOf dl.tree, bp.birth ≤ mintxg)
    (hadd : dslDeadlistAddKey dl mintxg emptyBpobj = some dl') : DeadlistInv dl' := by
  set e₀ : DeadlistEntry := ⟨mintxg, if emptyBpobj then .empty else .obj Bpobj.empty⟩
  have hnew : e₀.bpobj.Exact ∧ e₀.bpobj.reach = [] := by
    cases emptyBpobj
    · exact ⟨rfl, rfl⟩
    · exact ⟨trivial, rfl⟩
  have hnone : dlFind dl.tree mintxg = none :=
    List.find?_eq_none.2 fun e he => by simpa using (hk e he).ne
  simp only [dslDeadlistAddKey, hnone, Option.some.injEq] at hadd
  subst hadd
  rw [List.orderedInsert_of_forall_lt (·.mintxg) (x := e₀) hk]
  refine ⟨?_, ?_, ?_, ?_⟩
  · exact List.pairwise_append.2 ⟨h.sorted, List.pairwise_singleton _ _,
      fun a ha b hb => by rw [List.mem_singleton.1 hb]; exact hk a ha⟩
  · intro e he
    rcases List.mem_append.1 he with he | he
    · exact h.exact e he
    · rw [List.mem_singleton.1 he]
      exact hnew.1
  · intro e he bp hbp
    rcases List.mem_append.1 he with hold | hnew'
    · -- an old block stays in its interval; the new key bounds it from above
      have hi := h.births e hold bp hbp
      refine ⟨hi.1, fun k' hk' hlt => ?_⟩
      simp only [keysOf, List.map_append, List.map_cons, List.map_nil, List.mem_append,
        List.mem_singleton] at hk'
      rcases hk' with hk' | hk'
      · exact hi.2 k' hk' hlt
      · exact hk' ▸ hb bp (mem_reachOf hold hbp)
    · rw [List.mem_singleton.1 hnew', hnew.2] at hbp
      cases hbp
  · simp [h.space, hnew.2]

/-- `dsl_deadlist_insert` files a block under the entry before its birth,
whether or not the birth is a key. -/
theorem dslDeadlistInsert_eq (dl : Deadlist) (bp : Bp) :
    dslDeadlistInsert dl bp = (dlBefore dl.tree bp.birth).map fun dle =>
      ⟨dlUpdate dl.tree dle.mintxg (·.enqueue bp), dl.space + bp.space⟩ := by
  unfold dslDeadlistInsert
  cases hf : dlFind dl.tree bp.birth with
  | none => cases dlBefore dl.tree bp.birth <;> rfl
  | some dle =>
    dsimp only
    rw [(dlFind_eq_some hf).2]
    cases dlBefore dl.tree bp.birth <;> rfl

theorem DeadlistInv.insert (h : DeadlistInv dl) {bp : Bp}
    (hins : dslDeadlistInsert dl bp = some dl') : DeadlistInv dl' := by
  rw [dslDeadlistInsert_eq, Option.map_eq_some_iff] at hins
  obtain ⟨d, hd, rfl⟩ := hins
  obtain ⟨hmem, hlt, hmax⟩ := dlBefore_eq_some h.sorted hd
  obtain ⟨pre, post, htree⟩ := List.append_of_mem hmem
  obtain ⟨tree, space⟩ := dl
  dsimp only at *
  subst htree
  rw [dlUpdate_split h.sorted]
  refine h.replace (d.mintxg_enqueue bp) (DeadlistEntry.exact_enqueue (h.exact d hmem) bp) ?_ ?_
  · intro x hx
    rcases List.mem_cons.1 ((d.reach_enqueue bp).mem_iff.1 hx) with rfl | hx
    · -- the new block: `d` has the last key below its birth
      exact inInterval_of_before hlt hmax
    · exact h.births d hmem x hx
  · rw [spaceOf_perm (d.reach_enqueue bp), spaceOf_cons]
    abel

/-- `dsl_deadlist_insert_bpobj` files the bpobj under the last key at or below
`birth`. -/
theorem dslDeadlistInsertBpobj_eq_some (hs : dl.tree.Pairwise (fun a b => a.mintxg < b.mintxg))
    {obj : BpobjRef} {birth : ℕ} {flatten : Bool}
    (h : dslDeadlistInsertBpobj dl obj birth flatten = some dl') :
    ∃ d ∈ dl.tree, d.mintxg ≤ birth ∧ (∀ e ∈ dl.tree, e.mintxg ≤ birth → e.mintxg ≤ d.mintxg) ∧
      dl' = ⟨dlUpdate dl.tree d.mintxg (·.enqueueSubobj obj flatten), dl.space + obj.space⟩ := by
  unfold dslDeadlistInsertBpobj at h
  cases hf : dlFind dl.tree birth with
  | some d =>
    simp only [hf, Option.some.injEq] at h
    obtain ⟨hmem, hkey⟩ := dlFind_eq_some hf
    exact ⟨d, hmem, hkey.le, fun e _ he => hkey ▸ he, h.symm⟩
  | none =>
    cases hb : dlBefore dl.tree birth with
    | none => simp [hf, hb] at h
    | some d =>
      simp only [hf, hb, Option.some.injEq] at h
      obtain ⟨hmem, hlt, hmax⟩ := dlBefore_eq_some hs hb
      -- `birth` is not a key, so the keys at or below it are below it
      have hne := dlFind_eq_none hf
      exact ⟨d, hmem, hlt.le, fun e he hle => hmax e he (lt_of_le_of_ne hle (hne e he)), h.symm⟩

/-- Filing an exact bpobj whose blocks fall in the interval of `birth` keeps
the invariant and the keys. -/
theorem DeadlistInv.insertBpobj (h : DeadlistInv dl) {obj : BpobjRef} {birth : ℕ} {flatten : Bool}
    (hobj : obj.Exact) (hin : ∀ bp ∈ obj.reach, InInterval (keysOf dl.tree) birth bp.birth)
    (heq : dslDeadlistInsertBpobj dl obj birth flatten = some dl') :
    DeadlistInv dl' ∧ keysOf dl'.tree = keysOf dl.tree := by
  obtain ⟨d, hmem, hle, hmax, rfl⟩ := dslDeadlistInsertBpobj_eq_some h.sorted heq
  refine ⟨?_, keysOf_dlUpdate _ _ fun e => e.mintxg_enqueueSubobj obj flatten⟩
  obtain ⟨pre, post, htree⟩ := List.append_of_mem hmem
  obtain ⟨tree, space⟩ := dl
  dsimp only at *
  subst htree
  rw [dlUpdate_split h.sorted]
  refine h.replace (d.mintxg_enqueueSubobj obj flatten)
    (DeadlistEntry.exact_enqueueSubobj (h.exact d hmem) hobj flatten) ?_ ?_
  · intro x hx
    rw [d.reach_enqueueSubobj hobj] at hx
    rcases List.mem_append.1 hx with hx | hx
    · exact h.births d hmem x hx
    · exact inInterval_of_le hle hmax (hin x hx)
  · rw [d.reach_enqueueSubobj hobj, spaceOf_append, hobj.space_eq]
    abel

/-- `dsl_deadlist_merge` of entries that are exact and each fall in one
interval of the keys. -/
theorem DeadlistInv.merge (h : DeadlistInv dl) {zapOrder : List DeadlistEntry}
    {flatten : DeadlistEntry → Bool}
    (hsrc : ∀ e ∈ zapOrder, e.bpobj.Exact ∧
      ∀ bp ∈ e.bpobj.reach, InInterval (keysOf dl.tree) e.mintxg bp.birth)
    (hm : dslDeadlistMerge dl zapOrder flatten = some dl') :
    DeadlistInv dl' ∧ keysOf dl'.tree = keysOf dl.tree := by
  -- on the fold over the ZAP order; the keys, and so the intervals, stay put
  induction zapOrder generalizing dl with
  | nil =>
    simp only [dslDeadlistMerge, List.foldlM_nil, Option.pure_def, Option.some.injEq] at hm
    subst hm
    exact ⟨h, rfl⟩
  | cons e rest ih =>
    simp only [dslDeadlistMerge, List.foldlM_cons, Option.bind_eq_bind, Option.bind_eq_some_iff] at hm
    obtain ⟨dl₁, h₁, hm⟩ := hm
    have he := hsrc e List.mem_cons_self
    obtain ⟨hinv₁, hkeys₁⟩ := h.insertBpobj he.1 he.2 h₁
    obtain ⟨hinv, hkeys⟩ :=
      ih hinv₁ (fun e' he' => hkeys₁ ▸ hsrc e' (List.mem_cons_of_mem _ he')) hm
    exact ⟨hinv, hkeys.trans hkeys₁⟩

/-- Folding an entry's bpobj into the one before it and dropping the entry
keeps the invariant: the two intervals join. -/
theorem DeadlistInv.joinNext {pre post : List DeadlistEntry} {prev dle : DeadlistEntry}
    {space : Space} (flatten : Bool) (h : DeadlistInv ⟨pre ++ prev :: dle :: post, space⟩) :
    DeadlistInv ⟨pre ++ prev.enqueueSubobj dle.bpobj flatten :: post, space⟩ := by
  obtain ⟨hpre, hpost⟩ := sorted_split h.sorted
  have hafter := sorted_after_next h.sorted
  have hexd : dle.bpobj.Exact := h.exact dle (by simp)
  have hexp : prev.bpobj.Exact := h.exact prev (by simp)
  have hkey := prev.mintxg_enqueueSubobj dle.bpobj flatten
  have hreach := prev.reach_enqueueSubobj hexd flatten
  set prev' := prev.enqueueSubobj dle.bpobj flatten
  have hkeys : keysOf (pre ++ prev' :: post) = keysOf (pre ++ prev :: post) := by
    simp [keysOf, hkey]
  have hsub : ∀ k ∈ keysOf (pre ++ prev' :: post), k ∈ keysOf (pre ++ prev :: dle :: post) := by
    rw [hkeys]
    exact fun k hk => (List.Sublist.map _ (List.Sublist.append_left
      (List.Sublist.cons_cons _ (List.sublist_cons_self _ _)) pre)).subset hk
  -- every entry but `prev'` is one of the old tree
  have hmem : ∀ e ∈ pre ++ prev' :: post, e = prev' ∨ e ∈ pre ++ prev :: dle :: post := by
    intro e he
    simp only [List.mem_append, List.mem_cons] at he ⊢
    rcases he with he | rfl | he
    · exact Or.inr (Or.inl he)
    · exact Or.inl rfl
    · exact Or.inr (Or.inr (Or.inr (Or.inr he)))
  refine ⟨?_, ?_, ?_, ?_⟩
  · have hs : (keysOf (pre ++ prev :: dle :: post)).Pairwise (· < ·) := List.pairwise_map.2 h.sorted
    have hs' : (keysOf (pre ++ prev' :: post)).Pairwise (· < ·) := by
      rw [hkeys]
      exact hs.sublist (List.Sublist.map _ (List.Sublist.append_left
        (List.Sublist.cons_cons _ (List.sublist_cons_self _ _)) pre))
    exact List.pairwise_map.1 hs'
  · intro e he
    rcases hmem e he with rfl | he
    exacts [DeadlistEntry.exact_enqueueSubobj hexp hexd flatten, h.exact e he]
  · intro e he bp hbp
    rcases hmem e he with rfl | he
    · rw [hreach] at hbp
      rw [hkey]
      rcases List.mem_append.1 hbp with hbp | hbp
      · exact (h.births prev (by simp) bp hbp).mono hsub
      · -- a block of `dle` is born after `dle`'s key and at or before the key after it
        have hi := h.births dle (by simp) bp hbp
        refine ⟨(hpost dle List.mem_cons_self).trans hi.1, fun k' hk' hlt => ?_⟩
        rw [hkeys] at hk'
        simp only [keysOf, List.map_append, List.map_cons, List.mem_append, List.mem_cons,
          List.mem_map] at hk'
        rcases hk' with ⟨e, he, rfl⟩ | rfl | ⟨e, he, rfl⟩
        · exact absurd (hpre e he) (by omega)
        · exact absurd hlt (lt_irrefl _)
        · exact hi.2 _ (List.mem_map_of_mem (by simp [he])) (hafter e he)
    · exact (h.births e he bp hbp).mono hsub
  · have hsp : space = spaceOf (reachOf (pre ++ prev :: dle :: post)) := h.space
    show space = spaceOf (reachOf (pre ++ prev' :: post))
    rw [hsp]
    simp [hreach]

theorem DeadlistInv.removeKey (h : DeadlistInv dl) {mintxg : ℕ} {flatten : Bool}
    (hr : dslDeadlistRemoveKey dl mintxg flatten = some dl') : DeadlistInv dl' := by
  unfold dslDeadlistRemoveKey at hr
  cases hf : dlFind dl.tree mintxg with
  | none => simp [hf] at hr
  | some dle =>
    cases hb : dlBefore dl.tree dle.mintxg with
    | none => simp [hf, hb] at hr
    | some prev =>
      simp only [hf, hb, Option.some.injEq] at hr
      subst hr
      obtain ⟨hmem, rfl⟩ := dlFind_eq_some hf
      obtain ⟨A, post, htree⟩ := List.append_of_mem hmem
      obtain ⟨tree, space⟩ := dl
      dsimp only at *
      subst htree
      -- `AVL_PREV` of `dle` is the last entry in front of it
      rw [dlBefore_split h.sorted, List.getLast?_eq_some_iff] at hb
      obtain ⟨pre, rfl⟩ := hb
      simp only [List.append_assoc, List.singleton_append] at h ⊢
      obtain ⟨hpre, hpost⟩ := sorted_split h.sorted
      have hafter := sorted_after_next h.sorted
      have hdle : prev.mintxg < dle.mintxg := hpost dle List.mem_cons_self
      rw [dlUpdate_split h.sorted, List.filter_append, List.filter_cons_of_pos (by simpa using hdle.ne),
        List.filter_cons_of_neg (by simp), List.filter_eq_self.2 (by simpa using fun e he => ((hpre e he).trans hdle).ne),
        List.filter_eq_self.2 (by simpa using fun e he => (hafter e he).ne')]
      exact h.joinNext flatten

/-- The space `dsl_deadlist_move_bpobj` takes off the counters. -/
theorem foldl_sub_space (moved : List DeadlistEntry) (space : Space) :
    moved.foldl (fun space dle => space - dle.bpobj.space) space =
      space - (moved.map (·.bpobj.space)).sum := by
  induction moved generalizing space with
  | nil => simp
  | cons e moved ih =>
    rw [List.foldl_cons, ih, List.map_cons, List.sum_cons]
    abel

theorem DeadlistInv.moveBpobj (h : DeadlistInv dl) (bpo : Bpobj) (mintxg : ℕ)
    (flatten : DeadlistEntry → Bool) : DeadlistInv (dslDeadlistMoveBpobj dl bpo mintxg flatten).1 := by
  -- the entries kept and the entries moved split the ordered tree
  have hsplit : dl.tree.filter (·.mintxg < mintxg) ++ dlFrom dl.tree mintxg = dl.tree := by
    rw [dlFrom, ← List.takeWhile_lt_eq_filter _ h.sorted, List.takeWhile_append_dropWhile]
  have hkept : ∀ e ∈ dl.tree.filter (·.mintxg < mintxg), e ∈ dl.tree :=
    fun e he => (List.mem_filter.1 he).1
  have hmoved : ∀ e ∈ dlFrom dl.tree mintxg, e ∈ dl.tree :=
    fun e he => (List.dropWhile_sublist _).subset he
  have hsub : ∀ k ∈ keysOf (dl.tree.filter (·.mintxg < mintxg)), k ∈ keysOf dl.tree :=
    fun k hk => ((List.filter_sublist).map _).subset hk
  refine ⟨h.sorted.filter _, fun e he => h.exact e (hkept e he),
    fun e he bp hbp => (h.births e (hkept e he) bp hbp).mono hsub, ?_⟩
  have hsum := congrArg (fun t => spaceOf (reachOf t)) hsplit
  simp only [reachOf_append, spaceOf_append] at hsum
  show List.foldl _ dl.space (dlFrom dl.tree mintxg) = spaceOf (reachOf (dl.tree.filter _))
  rw [foldl_sub_space, sum_space_eq fun e he => h.exact e (hmoved e he), h.space, ← hsum]
  abel

/-- The entries `dsl_deadlist_move_bpobj` takes out reach, from `bpo`, what
they reached from the deadlist. -/
theorem DeadlistInv.moveBpobj_bpobj (h : DeadlistInv dl) {bpo : Bpobj} (hbpo : bpo.Exact)
    (mintxg : ℕ) (flatten : DeadlistEntry → Bool) :
    (dslDeadlistMoveBpobj dl bpo mintxg flatten).2.Exact ∧
      (dslDeadlistMoveBpobj dl bpo mintxg flatten).2.reach =
        bpo.reach ++ reachOf (dlFrom dl.tree mintxg) := by
  have hmoved : ∀ e ∈ dlFrom dl.tree mintxg, e.bpobj.Exact :=
    fun e he => h.exact e ((List.dropWhile_sublist _).subset he)
  show (List.foldl _ bpo (dlFrom dl.tree mintxg)).Exact ∧ (List.foldl _ bpo _).reach = _
  generalize dlFrom dl.tree mintxg = moved at hmoved ⊢
  -- on the moved entries, with the bpobj built so far
  induction moved generalizing bpo with
  | nil => exact ⟨hbpo, by simp⟩
  | cons e moved ih =>
    have he := hmoved e List.mem_cons_self
    obtain ⟨hex, hreach⟩ := ih (exact_enqueueSubobj_ref hbpo he (flatten e))
      fun e' he' => hmoved e' (List.mem_cons_of_mem _ he')
    refine ⟨hex, ?_⟩
    rw [List.foldl_cons, hreach, reach_enqueueSubobj_ref bpo he, reachOf_cons, List.append_assoc]

end Preserve

/-! ## Space in a range of txgs -/

/-- The blocks of the entries that `P` picks are the blocks that `Q` picks,
when `Q` agrees on each entry's blocks with `P` on the entry. -/
theorem reachOf_filter {tree : List DeadlistEntry} {P : DeadlistEntry → Bool} {Q : Bp → Bool}
    (hPQ : ∀ e ∈ tree, ∀ bp ∈ e.bpobj.reach, Q bp = P e) :
    (reachOf tree).filter Q = reachOf (tree.filter P) := by
  induction tree with
  | nil => rfl
  | cons e tree ih =>
    have hrest := ih fun e' he' => hPQ e' (List.mem_cons_of_mem _ he')
    have he := hPQ e List.mem_cons_self
    rw [reachOf_cons, List.filter_append, hrest, List.filter_cons]
    by_cases hP : P e = true
    · rw [if_pos hP, reachOf_cons, List.filter_eq_self.2 fun bp hbp => (he bp hbp).trans hP]
    · rw [if_neg hP, List.filter_eq_nil_iff.2 fun bp hbp => by rw [he bp hbp]; exact hP,
        List.nil_append]

/-- `dsl_deadlist_space_range(mintxg, maxtxg)` from a key `mintxg` to a key
`maxtxg`, or to a `maxtxg` above every birth, is the space of the blocks born
in `(mintxg, maxtxg]`. -/
theorem DeadlistInv.spaceRange_eq {dl : Deadlist} (h : DeadlistInv dl) {mintxg maxtxg : ℕ}
    (hmin : mintxg ∈ keysOf dl.tree)
    (hmax : maxtxg ∈ keysOf dl.tree ∨ ∀ bp ∈ reachOf dl.tree, bp.birth ≤ maxtxg) :
    dslDeadlistSpaceRange dl mintxg maxtxg =
      spaceOf ((reachOf dl.tree).filter fun bp => mintxg < bp.birth ∧ bp.birth ≤ maxtxg) := by
  obtain ⟨d, hd⟩ := exists_dlFind hmin
  -- the walk visits the entries with a key in `[mintxg, maxtxg)`
  have hrange : (dlFrom dl.tree mintxg).takeWhile (·.mintxg < maxtxg) =
      dl.tree.filter fun e => mintxg ≤ e.mintxg ∧ e.mintxg < maxtxg := by
    rw [dlFrom, List.dropWhile_lt_eq_filter _ h.sorted,
      List.takeWhile_lt_eq_filter _ (h.sorted.filter _), List.filter_filter]
    congr 1
    funext e
    simp [Bool.and_comm]
  -- and a block is born in `(mintxg, maxtxg]` exactly when its entry is one of them
  have hblocks : ∀ e ∈ dl.tree, ∀ bp ∈ e.bpobj.reach,
      decide (mintxg < bp.birth ∧ bp.birth ≤ maxtxg) =
        decide (mintxg ≤ e.mintxg ∧ e.mintxg < maxtxg) := by
    intro e he bp hbp
    have hi := h.births e he bp hbp
    have hbelow : e.mintxg < mintxg → bp.birth ≤ mintxg := hi.2 mintxg hmin
    have habove : e.mintxg < maxtxg → bp.birth ≤ maxtxg := by
      rcases hmax with hmax | hmax
      · exact hi.2 maxtxg hmax
      · exact fun _ => hmax bp (mem_reachOf he hbp)
    have hafter := hi.1
    rw [decide_eq_decide]
    constructor
    · rintro ⟨h1, h2⟩
      refine ⟨?_, by omega⟩
      by_contra hlt
      have := hbelow (by omega)
      omega
    · rintro ⟨h1, h2⟩
      exact ⟨by omega, habove h2⟩
  simp only [dslDeadlistSpaceRange, hd, hrange]
  rw [sum_space_eq fun e he => h.exact e (List.mem_filter.1 he).1, reachOf_filter hblocks]

/-! ## Runs -/

/-- The deadlist operations, with the arguments the model takes for what it
does not compute (see the definitions). -/
inductive DeadlistOp
  | addKey (mintxg : ℕ) (emptyBpobj : Bool)
  | insert (bp : Bp)
  | removeKey (mintxg : ℕ) (flatten : Bool)
  | merge (zapOrder : List DeadlistEntry) (flatten : DeadlistEntry → Bool)
  | moveBpobj (bpo : Bpobj) (mintxg : ℕ) (flatten : DeadlistEntry → Bool)

/-- One operation on the deadlist; `none` where the code panics or
dereferences NULL. -/
def dslDeadlistStep (dl : Deadlist) : DeadlistOp → Option Deadlist
  | .addKey mintxg emptyBpobj => dslDeadlistAddKey dl mintxg emptyBpobj
  | .insert bp => dslDeadlistInsert dl bp
  | .removeKey mintxg flatten => dslDeadlistRemoveKey dl mintxg flatten
  | .merge zapOrder flatten => dslDeadlistMerge dl zapOrder flatten
  | .moveBpobj bpo mintxg flatten => some (dslDeadlistMoveBpobj dl bpo mintxg flatten).1

/-- What callers guarantee: a new key is above every key and every birth (the
txg of a new snapshot), and the entries merged in are exact and each fall in
one interval of the keys. -/
def DeadlistOp.Fits (dl : Deadlist) : DeadlistOp → Prop
  | .addKey mintxg _ =>
    (∀ e ∈ dl.tree, e.mintxg < mintxg) ∧ ∀ bp ∈ reachOf dl.tree, bp.birth ≤ mintxg
  | .merge zapOrder _ => ∀ e ∈ zapOrder, e.bpobj.Exact ∧
    ∀ bp ∈ e.bpobj.reach, InInterval (keysOf dl.tree) e.mintxg bp.birth
  | _ => True

theorem DeadlistInv.step {dl dl' : Deadlist} (h : DeadlistInv dl) {op : DeadlistOp}
    (hop : op.Fits dl) (hs : dslDeadlistStep dl op = some dl') : DeadlistInv dl' := by
  cases op with
  | addKey mintxg emptyBpobj => exact h.addKey hop.1 hop.2 hs
  | insert bp => exact h.insert hs
  | removeKey mintxg flatten => exact h.removeKey hs
  | merge zapOrder flatten => exact (h.merge hop hs).1
  | moveBpobj bpo mintxg flatten =>
    cases hs
    exact h.moveBpobj bpo mintxg flatten

/-- The deadlists that runs of the operations, each called within what its
callers guarantee, reach from `dl₀`. -/
inductive DeadlistReach (dl₀ : Deadlist) : Deadlist → Prop
  | refl : DeadlistReach dl₀ dl₀
  | step {dl dl' : Deadlist} (op : DeadlistOp) : DeadlistReach dl₀ dl → op.Fits dl →
      dslDeadlistStep dl op = some dl' → DeadlistReach dl₀ dl'

theorem DeadlistReach.inv {dl₀ dl : Deadlist} (h0 : DeadlistInv dl₀)
    (hr : DeadlistReach dl₀ dl) : DeadlistInv dl := by
  induction hr with
  | refl => exact h0
  | step op _ hop hs ih => exact ih.step hop hs

theorem deadlist_partition {dl₀ dl : Deadlist} (h0 : DeadlistInv dl₀)
    (hr : DeadlistReach dl₀ dl) :
    DeadlistInv dl ∧ dl.space = (dl.tree.map (·.bpobj.space)).sum ∧
      ∀ mintxg maxtxg, mintxg ∈ keysOf dl.tree →
        (maxtxg ∈ keysOf dl.tree ∨ ∀ bp ∈ reachOf dl.tree, bp.birth ≤ maxtxg) →
          dslDeadlistSpaceRange dl mintxg maxtxg =
            spaceOf ((reachOf dl.tree).filter fun bp => mintxg < bp.birth ∧ bp.birth ≤ maxtxg) := by
  have h := hr.inv h0
  exact ⟨h, h.space_eq_sum, fun _ _ hmin hmax => h.spaceRange_eq hmin hmax⟩

/-- A new deadlist, a key `0`, a block born at `3`, then the key `5` of a
snapshot. -/
theorem deadlist_partition_snapshot :
    let bp : Bp := ⟨3, 512, 512, 1024, by decide⟩
    let dl : Deadlist := ⟨[⟨0, .obj (Bpobj.empty.enqueue bp)⟩, ⟨5, .empty⟩], 0 + bp.space⟩
    DeadlistInv dl ∧ dl.space = (dl.tree.map (·.bpobj.space)).sum ∧
      ∀ mintxg maxtxg, mintxg ∈ keysOf dl.tree →
        (maxtxg ∈ keysOf dl.tree ∨ ∀ bp ∈ reachOf dl.tree, bp.birth ≤ maxtxg) →
          dslDeadlistSpaceRange dl mintxg maxtxg =
            spaceOf ((reachOf dl.tree).filter fun bp => mintxg < bp.birth ∧ bp.birth ≤ maxtxg) := by
  intro bp dl
  exact deadlist_partition DeadlistInv.nil
    (.step (.addKey 5 true)
      (.step (.insert bp) (.step (.addKey 0 true) .refl ⟨by simp, by simp⟩ rfl) trivial rfl)
      ⟨by decide, by decide⟩ rfl)

/-- Merging a deadlist whose key `0` holds a block born at `7` into one with
the keys `0` and `5` files the block under `0`: the block is outside that
interval, and `dsl_deadlist_space_range(0, 5)` counts it. -/
theorem dsl_deadlist_merge_misplaces :
    ∃ dl src dl' : Deadlist, DeadlistReach ⟨[], 0⟩ dl ∧ DeadlistReach ⟨[], 0⟩ src ∧
      dslDeadlistMerge dl src.tree (fun _ => false) = some dl' ∧ ¬DeadlistInv dl' ∧
      dslDeadlistSpaceRange dl' 0 5 ≠
        spaceOf ((reachOf dl'.tree).filter fun bp => 0 < bp.birth ∧ bp.birth ≤ 5) := by
  let bp : Bp := ⟨7, 512, 512, 1024, by decide⟩
  let dl' : Deadlist := ⟨[⟨0, .obj (Bpobj.empty.enqueue bp)⟩, ⟨5, .empty⟩], 0 + (0 + bp.space)⟩
  have hne : dslDeadlistSpaceRange dl' 0 5 ≠
      spaceOf ((reachOf dl'.tree).filter fun bp => 0 < bp.birth ∧ bp.birth ≤ 5) := by
    decide
  refine ⟨⟨[⟨0, .empty⟩, ⟨5, .empty⟩], 0⟩, ⟨[⟨0, .obj (Bpobj.empty.enqueue bp)⟩], 0 + bp.space⟩,
    dl', ?_, ?_, rfl, fun h => hne (h.spaceRange_eq (by decide) (.inl (by decide))), hne⟩
  · exact .step (.addKey 5 true) (.step (.addKey 0 true) .refl ⟨by simp, by simp⟩ rfl)
      ⟨by decide, by decide⟩ rfl
  · exact .step (.insert bp) (.step (.addKey 0 true) .refl ⟨by simp, by simp⟩ rfl) trivial rfl

end ZfsOsx.Dsl
