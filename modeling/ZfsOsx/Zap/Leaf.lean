import Mathlib

/-!
# The collision differentiator of a fat ZAP leaf (`module/zfs/zap_leaf.c`)

A leaf keeps its entries on hash chains: `l_hash[LEAF_HASH(l, h)]` heads the
chain of the entries whose hash falls in that bucket, linked through
`le_next`. Names with the same 64-bit hash are told apart by the collision
differentiator `le_cd`, and `zap_entry_create` called with `ZAP_NEED_CD`
picks the lowest cd that no entry of that hash uses. In a leaf flagged
`ZLF_ENTRIES_CDSORTED` it walks the chain once, counting the entries of the
hash and stopping at the first larger cd; in an old unsorted leaf it tries
`cd = 0, 1, ...` and scans the whole chain for each.

A chain is the list of the entries it links, in `le_next` order, and an
entry keeps the fields the chains and the search read.

* `sortedCdLoop_spec`, `legacyCdLoop_spec`: each search returns the least cd
  from its start that no entry of the hash on the chain uses; the sorted one
  needs the chain ascending by cd, with no cd twice for one hash.
* `LeafInv`: every entry is on the chain of its bucket, no two entries of one
  hash share a cd, and the chains of a sorted leaf ascend by cd.
* `zapEntryCd_needCd`: on a leaf that keeps `LeafInv`, either search gives
  the least cd no entry of the hash uses.
* `ZapLeafReachable.inv`: `zap_leaf_init`, `zap_entry_create` and
  `zap_entry_remove` keep `LeafInv`, a caller's own cd being one no entry of
  the hash holds.
-/
namespace ZfsOsx.Zap

open Function (update)

/-! ## The least unused number -/

/-- `n` is the least number from `lo` on of which `used` does not hold. -/
def LeastUnused (used : ℕ → Prop) (lo n : ℕ) : Prop :=
  lo ≤ n ∧ ¬used n ∧ ∀ m, lo ≤ m → m < n → used m

section LeastUnused

variable {used : ℕ → Prop} {lo n : ℕ}

theorem LeastUnused.self (h : ¬used lo) : LeastUnused used lo lo :=
  ⟨Nat.le_refl lo, h, fun _ h1 h2 => absurd h2 (Nat.not_lt.2 h1)⟩

theorem LeastUnused.succ (hlo : used lo) (h : LeastUnused used (lo + 1) n) :
    LeastUnused used lo n := by
  obtain ⟨hle, hn, hlt⟩ := h
  refine ⟨by omega, hn, fun m hm hmn => ?_⟩
  rcases Nat.eq_or_lt_of_le hm with rfl | hm
  · exact hlo
  · exact hlt m hm hmn

/-- Numbers below the start that become used change nothing. -/
theorem LeastUnused.or_below {q : ℕ → Prop} (h : LeastUnused used lo n)
    (hq : ∀ m, q m → m < lo) : LeastUnused (fun m => q m ∨ used m) lo n := by
  obtain ⟨hle, hn, hlt⟩ := h
  refine ⟨hle, ?_, fun m hm hmn => .inr (hlt m hm hmn)⟩
  rintro (hqn | hun)
  · exact absurd (hq n hqn) (by omega)
  · exact hn hun

end LeastUnused

/-! ## The leaf -/

/-- `ZAP_NEED_CD` (`-1U`), the cd that asks `zap_entry_create` to choose one. -/
def zapNeedCd : ℕ := 2 ^ 32 - 1

/-- `ZAP_LEAF_CHUNKSIZE`. -/
def zapLeafChunksize : ℕ := 24

/-- `ZAP_LEAF_ARRAY_BYTES`: a chunk less its type byte and next pointer. -/
def zapLeafArrayBytes : ℕ := zapLeafChunksize - 3

/-- `ZAP_LEAF_ARRAY_NCHUNKS(bytes)`. -/
def zapLeafArrayNchunks (bytes : ℕ) : ℕ :=
  (bytes + zapLeafArrayBytes - 1) / zapLeafArrayBytes

/-- The fields of a `struct zap_leaf_entry` that the chains and the cd search
read. `leChunks` is the number of chunks the entry holds, its own and those
of its name and value arrays, which `zap_entry_remove` frees. -/
structure ZapLeafEntry where
  leHash : ℕ
  leCd : ℕ
  leChunks : ℕ
  deriving DecidableEq, Repr

/-- A leaf: its block size shift `l_bs`, the header fields that entry creation
and removal read and write (`ZLF_ENTRIES_CDSORTED` of `lh_flags` as
`cdSorted`), and the hash table, each bucket as its chain. -/
structure ZapLeaf where
  lBs : ℕ
  lhPrefixLen : ℕ
  lhNfree : ℕ
  lhNentries : ℕ
  cdSorted : Bool
  lHash : ℕ → List ZapLeafEntry

/-- `ZAP_LEAF_HASH_SHIFT(l)`. -/
def zapLeafHashShift (l : ZapLeaf) : ℕ := l.lBs - 5

/-- `ZAP_LEAF_HASH_NUMENTRIES(l)`. -/
def zapLeafHashNumentries (l : ZapLeaf) : ℕ := 2 ^ zapLeafHashShift l

/-- `ZAP_LEAF_NUMCHUNKS(l)`: the block less the hash table and a header of
two chunks. -/
def zapLeafNumchunks (l : ZapLeaf) : ℕ :=
  (2 ^ l.lBs - 2 * zapLeafHashNumentries l) / zapLeafChunksize - 2

/-- `LEAF_HASH(l, h)`: the hash bits just below the leaf's prefix. -/
def leafHash (l : ZapLeaf) (h : ℕ) : ℕ :=
  (zapLeafHashNumentries l - 1) &&& (h >>> (64 - zapLeafHashShift l - l.lhPrefixLen))

/-- The parts of a `zap_name_t` that `zap_entry_create` reads. -/
structure ZapName where
  znHash : ℕ
  znKeyIntlen : ℕ
  znKeyOrigNumints : ℕ

/-- `zap_leaf_init(l, sort)` for a block of `2 ^ bs` bytes: a zeroed header,
empty chains and every chunk free.
mirrors module/zfs/zap_leaf.c:154-172 -/
def zapLeafInit (bs : ℕ) (sort : Bool) : ZapLeaf :=
  let l : ZapLeaf := ⟨bs, 0, 0, 0, sort, fun _ => []⟩
  { l with lhNfree := zapLeafNumchunks l }

/-! ## The two searches -/

/-- Some entry of the chain has hash `h` and cd `cd`. -/
@[grind] def CdUsed (chain : List ZapLeafEntry) (h cd : ℕ) : Prop :=
  ∃ le ∈ chain, le.leHash = h ∧ le.leCd = cd

/-- The search of a sorted leaf, from `cd` on.
mirrors module/zfs/zap_leaf.c:592-604 -/
def sortedCdLoop (h : ℕ) : List ZapLeafEntry → ℕ → ℕ
  | [], cd => cd
  | le :: rest, cd =>
    if le.leCd > cd then cd
    else sortedCdLoop h rest (if le.leHash = h then cd + 1 else cd)

/-- The inner loop of the unsorted search: it breaks at an entry of hash `h`
and cd `cd`, and reaches `CHAIN_END` when there is none. -/
def cdInUse (chain : List ZapLeafEntry) (h cd : ℕ) : Bool :=
  chain.any fun le => le.leHash == h && le.leCd == cd

/-- The search of an unsorted leaf, "the O(n^2) way", from `cd` on. It stops
because each round passes one more of the chain's cds of hash `h`.
mirrors module/zfs/zap_leaf.c:606-619 -/
def legacyCdLoop (chain : List ZapLeafEntry) (h cd : ℕ) : ℕ :=
  if hu : cdInUse chain h cd = true then legacyCdLoop chain h (cd + 1) else cd
termination_by (chain.filter fun le => le.leHash == h && decide (cd ≤ le.leCd)).length
decreasing_by
  obtain ⟨le, hle, hp⟩ := List.any_eq_true.1 hu
  simp only [Bool.and_eq_true, beq_iff_eq] at hp
  have hsub : chain.filter (fun le => le.leHash == h && decide (cd + 1 ≤ le.leCd)) =
      (chain.filter fun le => le.leHash == h && decide (cd ≤ le.leCd)).filter
        fun le => decide (cd + 1 ≤ le.leCd) := by
    rw [List.filter_filter]
    refine List.filter_congr fun x _ => ?_
    by_cases hx : x.leHash = h <;> by_cases hc : cd + 1 ≤ x.leCd <;> simp [hx, hc]
    omega
  rw [hsub, List.length_filter_lt_length_iff_exists]
  exact ⟨le, List.mem_filter.2 ⟨hle, by simp [hp.1, hp.2]⟩, by simp [hp.2]⟩

/-- The cd that `zap_entry_create` gives the new entry: the search of the
leaf's kind on the chain of `h` for `ZAP_NEED_CD`, else the caller's.
mirrors module/zfs/zap_leaf.c:590-626 -/
def zapEntryCd (l : ZapLeaf) (h cd : ℕ) : ℕ :=
  if cd = zapNeedCd then
    if l.cdSorted then sortedCdLoop h (l.lHash (leafHash l h)) 0
    else legacyCdLoop (l.lHash (leafHash l h)) h 0
  else cd

/-! ## Creating and removing entries -/

/-- The walk of `zap_leaf_rehash_entry`: the entry goes in before the first
one of larger cd, which keeps the chain sorted by cd. -/
@[grind] def rehashInsert (le : ZapLeafEntry) : List ZapLeafEntry → List ZapLeafEntry
  | [] => [le]
  | le2 :: rest => if le2.leCd > le.leCd then le :: le2 :: rest else le2 :: rehashInsert le rest

/-- `zap_leaf_rehash_entry(l, entry)`: link the entry into the chain of its
hash.
mirrors module/zfs/zap_leaf.c:710-732 -/
def zapLeafRehashEntry (l : ZapLeaf) (le : ZapLeafEntry) : ZapLeaf :=
  let b := leafHash l le.leHash
  { l with lHash := update l.lHash b (rehashInsert le (l.lHash b)) }

@[simp]
theorem zapLeafRehashEntry_lHash (l : ZapLeaf) (le : ZapLeafEntry) :
    (zapLeafRehashEntry l le).lHash =
      update l.lHash (leafHash l le.leHash) (rehashInsert le (l.lHash (leafHash l le.leHash))) :=
  rfl

@[simp]
theorem leafHash_zapLeafRehashEntry (l : ZapLeaf) (le : ZapLeafEntry) :
    leafHash (zapLeafRehashEntry l le) = leafHash l :=
  rfl

/-- The errors of `zap_entry_create`. -/
inductive ZapError
  | e2big
  | eagain
  deriving DecidableEq, Repr

/-- `zap_entry_create(l, zn, cd, integer_size, num_integers, ...)`: the leaf
with the new entry and the handle's `zeh_cd`. The entry takes one chunk and
the chunks of its name and value arrays.
mirrors module/zfs/zap_leaf.c:570-658 -/
def zapEntryCreate (l : ZapLeaf) (zn : ZapName) (cd integerSize numIntegers : ℕ) :
    Except ZapError (ZapLeaf × ℕ) :=
  let valuelen := integerSize * numIntegers
  let numchunks := 1 + zapLeafArrayNchunks (zn.znKeyOrigNumints * zn.znKeyIntlen) +
    zapLeafArrayNchunks valuelen
  if numchunks > zapLeafNumchunks l then .error .e2big
  else
    let cd := zapEntryCd l zn.znHash cd
    if l.lhNfree < numchunks then .error .eagain
    else
      let l' := zapLeafRehashEntry { l with lhNfree := l.lhNfree - numchunks }
        ⟨zn.znHash, cd, numchunks⟩
      .ok ({ l' with lhNentries := l.lhNentries + 1 }, cd)

/-- `zap_entry_remove(zeh)` for a handle on the `i`-th entry of bucket `b`:
unlink it through `*zeh_chunkp` and free its chunks.
mirrors module/zfs/zap_leaf.c:549-568 -/
def zapEntryRemove (l : ZapLeaf) (b i : ℕ) : ZapLeaf :=
  match (l.lHash b)[i]? with
  | some le =>
    let chain := (l.lHash b).eraseIdx i
    { l with lHash := update l.lHash b chain, lhNfree := l.lhNfree + le.leChunks,
             lhNentries := l.lhNentries - 1 }
  | none => l

/-! ## The searches find the least unused cd -/

@[simp]
theorem cdUsed_nil (h cd : ℕ) : ¬CdUsed [] h cd := by
  simp [CdUsed]

@[simp]
theorem cdUsed_cons {le : ZapLeafEntry} {rest : List ZapLeafEntry} {h cd : ℕ} :
    CdUsed (le :: rest) h cd ↔ (le.leHash = h ∧ le.leCd = cd) ∨ CdUsed rest h cd := by
  simp [CdUsed]

theorem cdInUse_iff {chain : List ZapLeafEntry} {h cd : ℕ} :
    cdInUse chain h cd = true ↔ CdUsed chain h cd := by
  simp [cdInUse, CdUsed]

/-- The unsorted search counts up from `cd` to the first cd not on the chain. -/
theorem legacyCdLoop_spec (chain : List ZapLeafEntry) (h cd : ℕ) :
    LeastUnused (CdUsed chain h) cd (legacyCdLoop chain h cd) := by
  fun_induction legacyCdLoop chain h cd with
  | case1 cd hu ih => exact .succ (cdInUse_iff.1 hu) ih
  | case2 cd hu => exact .self fun hc => hu (cdInUse_iff.2 hc)

/-- The sorted search. The chain ascends by cd, no two of its entries of hash
`h` share a cd, and those it has not passed yet are at `cd` or above; the
induction is on the chain, with the running cd generalised. -/
theorem sortedCdLoop_spec (h : ℕ) :
    ∀ (chain : List ZapLeafEntry) (cd : ℕ),
      chain.Pairwise (fun e e' => e.leCd ≤ e'.leCd) →
      chain.Pairwise (fun e e' => e.leHash = e'.leHash → e.leCd ≠ e'.leCd) →
      (∀ le ∈ chain, le.leHash = h → cd ≤ le.leCd) →
      LeastUnused (CdUsed chain h) cd (sortedCdLoop h chain cd) := by
  intro chain
  induction chain with
  | nil =>
    intro cd _ _ _
    exact .self (cdUsed_nil h cd)
  | cons le rest ih =>
    intro cd hs hu hge
    obtain ⟨hle, hs⟩ := List.pairwise_cons.1 hs
    obtain ⟨hne, hu⟩ := List.pairwise_cons.1 hu
    have hge' : ∀ e ∈ rest, e.leHash = h → cd ≤ e.leCd :=
      fun e he => hge e (List.mem_cons_of_mem _ he)
    have hused : CdUsed (le :: rest) h = fun m => (le.leHash = h ∧ le.leCd = m) ∨ CdUsed rest h m :=
      funext fun m => propext cdUsed_cons
    by_cases hgt : le.leCd > cd
    · -- every later cd is at least this one: `cd` is free
      rw [sortedCdLoop, if_pos hgt, hused]
      refine .self ?_
      rintro (⟨-, hcd⟩ | ⟨e, he, -, hcd⟩)
      · omega
      · have := hle e he
        omega
    rw [sortedCdLoop, if_neg hgt]
    by_cases hh : le.leHash = h
    · -- an entry of the hash at `cd` itself: the search moves past it
      have hcd : le.leCd = cd := Nat.le_antisymm (by omega) (hge le List.mem_cons_self hh)
      rw [if_pos hh]
      have hrest : ∀ e ∈ rest, e.leHash = h → cd + 1 ≤ e.leCd := by
        intro e he heh
        have h1 := hge' e he heh
        have h2 := hne e he (hh.trans heh.symm)
        omega
      have hlu := (ih (cd + 1) hs hu hrest).or_below
        (q := fun m => le.leHash = h ∧ le.leCd = m) fun m hm => by omega
      rw [hused]
      exact LeastUnused.succ (.inl ⟨hh, hcd⟩) hlu
    · have hrest : CdUsed (le :: rest) h = CdUsed rest h := by
        funext m
        simp [hh]
      rw [if_neg hh, hrest]
      exact ih cd hs hu hge'

/-! ## The leaf invariant -/

/-- Some entry of the leaf has hash `h` and cd `cd`. -/
def LeafCdUsed (l : ZapLeaf) (h cd : ℕ) : Prop := ∃ b, CdUsed (l.lHash b) h cd

/-- What the leaf's chains keep: each entry on the chain of its own bucket,
one cd per hash, and in a sorted leaf chains ascending by cd. -/
structure LeafInv (l : ZapLeaf) : Prop where
  bucket : ∀ b, ∀ le ∈ l.lHash b, leafHash l le.leHash = b
  cdUnique : ∀ b, (l.lHash b).Pairwise fun e e' => e.leHash = e'.leHash → e.leCd ≠ e'.leCd
  sorted : l.cdSorted = true → ∀ b, (l.lHash b).Pairwise fun e e' => e.leCd ≤ e'.leCd

variable {l : ZapLeaf}

/-- The entries of a hash are all on the chain of its bucket. -/
theorem LeafInv.leafCdUsed_iff (hl : LeafInv l) {h cd : ℕ} :
    LeafCdUsed l h cd ↔ CdUsed (l.lHash (leafHash l h)) h cd := by
  constructor
  · rintro ⟨b, le, hle, rfl, rfl⟩
    rw [hl.bucket b le hle]
    exact ⟨le, hle, rfl, rfl⟩
  · exact fun hc => ⟨_, hc⟩

/-- With `ZAP_NEED_CD`, on a leaf of either kind, `zap_entry_create` picks the
least cd that no entry of the hash uses. -/
theorem zapEntryCd_needCd (hl : LeafInv l) (h : ℕ) :
    LeastUnused (LeafCdUsed l h) 0 (zapEntryCd l h zapNeedCd) := by
  have hused : LeafCdUsed l h = CdUsed (l.lHash (leafHash l h)) h :=
    funext fun _ => propext hl.leafCdUsed_iff
  rw [hused, zapEntryCd, if_pos rfl]
  split
  · next hs =>
    exact sortedCdLoop_spec h _ 0 (hl.sorted hs _) (hl.cdUnique _) fun _ _ _ => Nat.zero_le _
  · exact legacyCdLoop_spec _ h 0

/-- The cd `zap_entry_create` stores is one no entry of the hash uses, when a
caller's own cd is. -/
theorem zapEntryCd_unused (hl : LeafInv l) {h cd : ℕ}
    (hcd : cd ≠ zapNeedCd → ¬LeafCdUsed l h cd) : ¬LeafCdUsed l h (zapEntryCd l h cd) := by
  by_cases hn : cd = zapNeedCd
  · subst hn
    exact (zapEntryCd_needCd hl h).2.1
  · rw [zapEntryCd, if_neg hn]
    exact hcd hn

/-! ## The operations keep it -/

theorem mem_rehashInsert {le e : ZapLeafEntry} {chain : List ZapLeafEntry} :
    e ∈ rehashInsert le chain ↔ e = le ∨ e ∈ chain := by
  induction chain with
  | nil => simp [rehashInsert]
  | cons le2 rest ih =>
    simp only [rehashInsert]
    split <;> simp [ih, or_left_comm]

theorem rehashInsert_perm (le : ZapLeafEntry) (chain : List ZapLeafEntry) :
    (rehashInsert le chain).Perm (le :: chain) := by
  induction chain with
  | nil => simp [rehashInsert]
  | cons le2 rest ih =>
    simp only [rehashInsert]
    split
    · exact List.Perm.refl _
    · exact (ih.cons le2).trans (List.Perm.swap le le2 rest)

/-- The insertion keeps a chain ascending by cd. -/
theorem rehashInsert_sorted (le : ZapLeafEntry) {chain : List ZapLeafEntry}
    (hs : chain.Pairwise fun e e' => e.leCd ≤ e'.leCd) :
    (rehashInsert le chain).Pairwise fun e e' => e.leCd ≤ e'.leCd := by
  induction chain with
  | nil => simp [rehashInsert]
  | cons le2 rest ih =>
    obtain ⟨hle2, hrest⟩ := List.pairwise_cons.1 hs
    simp only [rehashInsert]
    split
    · next hgt =>
      refine List.Pairwise.cons ?_ hs
      intro e he
      rcases List.mem_cons.1 he with rfl | he
      · omega
      · have := hle2 e he
        omega
    · next hgt =>
      refine List.Pairwise.cons ?_ (ih hrest)
      intro e he
      rcases mem_rehashInsert.1 he with rfl | he
      · omega
      · exact hle2 e he

/-- The chunk counts are no part of the invariant. -/
theorem LeafInv.withCounts (hl : LeafInv l) (nfree nentries : ℕ) :
    LeafInv { l with lhNfree := nfree, lhNentries := nentries } :=
  ⟨hl.bucket, hl.cdUnique, hl.sorted⟩

theorem leafInv_init (bs : ℕ) (sort : Bool) : LeafInv (zapLeafInit bs sort) :=
  ⟨fun _ _ hle => absurd hle List.not_mem_nil, fun _ => List.Pairwise.nil,
    fun _ _ => List.Pairwise.nil⟩

/-- Everything a successful `zap_entry_create` does to the leaf. -/
theorem zapEntryCreate_eq_ok {zn : ZapName} {cd integerSize numIntegers c : ℕ} {l' : ZapLeaf}
    (h : zapEntryCreate l zn cd integerSize numIntegers = .ok (l', c)) :
    c = zapEntryCd l zn.znHash cd ∧ ∃ k,
      l' = { zapLeafRehashEntry { l with lhNfree := l.lhNfree - k } ⟨zn.znHash, c, k⟩ with
             lhNentries := l.lhNentries + 1 } := by
  simp only [zapEntryCreate] at h
  split at h
  · cases h
  split at h
  · cases h
  cases h
  exact ⟨rfl, _, rfl⟩

/-- A new entry whose cd no entry of its hash uses keeps the invariant. -/
theorem LeafInv.rehash (hl : LeafInv l) (le : ZapLeafEntry)
    (hfree : ¬LeafCdUsed l le.leHash le.leCd) : LeafInv (zapLeafRehashEntry l le) := by
  have hsym : ∀ {e e' : ZapLeafEntry}, (e.leHash = e'.leHash → e.leCd ≠ e'.leCd) →
      e'.leHash = e.leHash → e'.leCd ≠ e.leCd := fun h1 h2 h3 => h1 h2.symm h3.symm
  refine ⟨fun b e he => ?_, fun b => ?_, fun hs b => ?_⟩
  · rw [leafHash_zapLeafRehashEntry]
    rw [zapLeafRehashEntry_lHash] at he
    by_cases hb : b = leafHash l le.leHash
    · subst hb
      rw [Function.update_self] at he
      rcases mem_rehashInsert.1 he with rfl | he
      · rfl
      · exact hl.bucket _ e he
    · rw [Function.update_of_ne hb] at he
      exact hl.bucket b e he
  · rw [zapLeafRehashEntry_lHash]
    by_cases hb : b = leafHash l le.leHash
    · subst hb
      rw [Function.update_self, (rehashInsert_perm _ _).pairwise_iff hsym]
      refine List.Pairwise.cons (fun e he hh hc => hfree ?_) (hl.cdUnique _)
      exact ⟨leafHash l le.leHash, e, he, hh.symm, hc.symm⟩
    · simpa [Function.update_of_ne hb] using hl.cdUnique b
  · rw [zapLeafRehashEntry_lHash]
    by_cases hb : b = leafHash l le.leHash
    · subst hb
      rw [Function.update_self]
      exact rehashInsert_sorted le (hl.sorted hs _)
    · simpa [Function.update_of_ne hb] using hl.sorted hs b

theorem LeafInv.create (hl : LeafInv l) {zn : ZapName} {cd integerSize numIntegers c : ℕ}
    {l' : ZapLeaf} (hcd : cd ≠ zapNeedCd → ¬LeafCdUsed l zn.znHash cd)
    (h : zapEntryCreate l zn cd integerSize numIntegers = .ok (l', c)) : LeafInv l' := by
  obtain ⟨rfl, k, rfl⟩ := zapEntryCreate_eq_ok h
  have hl' := (hl.withCounts (l.lhNfree - k) l.lhNentries).rehash
    ⟨zn.znHash, zapEntryCd l zn.znHash cd, k⟩ (zapEntryCd_unused hl hcd)
  exact hl'.withCounts _ _

theorem LeafInv.remove (hl : LeafInv l) (b i : ℕ) : LeafInv (zapEntryRemove l b i) := by
  unfold zapEntryRemove
  split
  · have hsub : ∀ b', (update l.lHash b ((l.lHash b).eraseIdx i) b').Sublist (l.lHash b') := by
      intro b'
      by_cases hb : b' = b
      · subst hb
        rw [Function.update_self]
        exact List.eraseIdx_sublist _ _
      · rw [Function.update_of_ne hb]
    refine ⟨fun b' e he => hl.bucket b' e ((hsub b').subset he), fun b' => ?_, fun hs b' => ?_⟩
    · exact (hl.cdUnique b').sublist (hsub b')
    · exact (hl.sorted hs b').sublist (hsub b')
  · exact hl

/-! ## Every run keeps the invariant -/

/-- One call on a leaf: `zap_entry_create`, given `ZAP_NEED_CD` or a cd that no
entry of the name's hash holds (its callers copy the cd of an entry of a
microzap or leaf that kept one cd per hash), or `zap_entry_remove` on an
entry of a chain. -/
inductive ZapLeafStep : ZapLeaf → ZapLeaf → Prop
  | create {l l' : ZapLeaf} (zn : ZapName) (cd integerSize numIntegers c : ℕ)
      (hcd : cd ≠ zapNeedCd → ¬LeafCdUsed l zn.znHash cd)
      (h : zapEntryCreate l zn cd integerSize numIntegers = .ok (l', c)) : ZapLeafStep l l'
  | remove (l : ZapLeaf) (b i : ℕ) (hi : i < (l.lHash b).length) :
      ZapLeafStep l (zapEntryRemove l b i)

/-- The leaves a run of calls builds from `zap_leaf_init`. -/
def ZapLeafReachable (l : ZapLeaf) : Prop :=
  ∃ bs sort, Relation.ReflTransGen ZapLeafStep (zapLeafInit bs sort) l

theorem ZapLeafStep.inv {l l' : ZapLeaf} (hs : ZapLeafStep l l') (hl : LeafInv l) :
    LeafInv l' := by
  cases hs with
  | create zn cd integerSize numIntegers c hcd h => exact hl.create hcd h
  | remove b i _ => exact hl.remove b i

theorem ZapLeafReachable.inv (hr : ZapLeafReachable l) : LeafInv l := by
  obtain ⟨bs, sort, hrun⟩ := hr
  induction hrun with
  | refl => exact leafInv_init bs sort
  | tail _ hs ih => exact hs.inv ih

end ZfsOsx.Zap
