import ZfsOsx.Checksum.Zio
import ZfsOsx.Zpl.RangeLock

/-!
# Parsing the intent log (`module/zfs/zil.c`)

A log is a chain of blocks. `zil_read_log_block` reads one, checks that the
block pointer it holds for the next one carries the same checksum verifier
with the sequence number one up and is no hole, and copies the block's used
bytes into `lrbuf`. `zil_parse` walks the chain from `zh_log`: it hands each
block pointer to `parse_blk_func`, reads the block, and walks its records,
`lrp += reclen` with `reclen` read from the record itself, handing each to
`parse_lr_func`. A claimed log stops at the sequence numbers its header
recorded.

Both loops are unbounded in the source and take fuel here; `none` is a run
that has not ended within the fuel. The state carries what `zil_parse` stores
in the `zilog_t` and, as a trace, the blocks and records it hands to its
callbacks. `lrbuf` is a memory indexed by the offset from its start (`Mem`),
so that a pointer the record loop moves below the buffer still reads
something.

* `zilReadLogBlock_ok`: a read that succeeds hands back a next block pointer
  that passes the chain check (`Linked`), so its sequence number is one up in
  64 bits (`Linked.seq_eq`) and, below `UINT64_MAX`, larger (`Linked.seq_lt`).
* `zilParseRecords_visit`, `zilParseBlocks_trace`, `zilParse_trace`: the
  blocks a parse hands over are chained so, none past `claim_blk_seq`; each
  record it hands over starts before its block's `end`, with `lrc_seq` at most
  `claim_lr_seq`. That is all the record loop checks.
* `zilParseRecords_chain`: on a block whose records chain from `lrbuf` to
  `end`, each at least `sizeof (lr_t)` long, the record loop ends, and every
  record it hands over lies inside the block.
* `zilParseRecords_stuck`: a record with `lrc_reclen` 0 keeps the loop where it
  is; `zil_parse_record_escapes` parses a block of one such record, and one
  whose record runs past `end`.
-/
namespace ZfsOsx.Zil

open Endian ByteOrder
open ZfsOsx.Compress (Buf)
open ZfsOsx.Checksum (ZioCksum ZioChecksum load64 loadCksum zilChainNused zilChainSize ecksum)
open ZfsOsx.Zpl (uint64Max uint64Max_toNat)

/-! ## Block pointers and the chain check -/

/-- The fields of a `blkptr_t` the log code reads: `blk_dva` (the six words
that say where the block is, which only the read looks at), `blk_prop`,
`blk_birth` and `blk_cksum`.
mirrors include/sys/spa.h:188-196 -/
structure ZilBlkptr where
  dva : List UInt64
  prop : UInt64
  birth : UInt64
  cksum : ZioCksum
  deriving DecidableEq, Repr

namespace ZilBlkptr

/-- `BP_IS_HOLE(bp)`.
mirrors include/sys/spa.h:306 -/
@[grind] def isHole (bp : ZilBlkptr) : Bool := bp.birth == 0

/-- `BP_GET_CHECKSUM(bp)`.
mirrors include/sys/spa.h:233 -/
def checksum (bp : ZilBlkptr) : ℕ := ((bp.prop >>> 40) &&& 0xff).toNat

/-- `BP_GET_LSIZE(bp)`.
mirrors include/sys/spa.h:220-221 -/
def lsize (bp : ZilBlkptr) : ℕ := ((bp.prop &&& 0xffff).toNat + 1) <<< 9

/-- `bp->blk_cksum.zc_word[ZIL_ZC_SEQ]`, the block's sequence number. -/
def seq (bp : ZilBlkptr) : UInt64 := bp.cksum.word3

end ZilBlkptr

/-- The `blkptr_t` stored at `a`, read on a host of order `h`. -/
def blkptrAt (h : ByteOrder) (m : Buf) (a : ℕ) : ZilBlkptr :=
  ⟨(List.range 6).map fun i => load64 h m (a + 8 * i), load64 h m (a + 48), load64 h m (a + 80),
    loadCksum h m (a + 96)⟩

/-- The verifier the next block of a chain carries: `cksum.zc_word[ZIL_ZC_SEQ]++`. -/
def nextCksum (zc : ZioCksum) : ZioCksum := { zc with word3 := zc.word3 + 1 }

/-- `b'` passes the chain check as the block after `b`. -/
def Linked (b b' : ZilBlkptr) : Prop := b'.cksum = nextCksum b.cksum

/-- `lrbuf` and the memory around it, by offset from the start of `lrbuf`. -/
abbrev Mem := ℤ → UInt8

/-- `bcopy(src + s, dst, len)` into `lrbuf`. -/
def copyIn (dst : Mem) (src : Buf) (s len : ℕ) : Mem :=
  fun a => if 0 ≤ a ∧ a < len then src (s + a.toNat) else dst a

/-- `zil_read_log_block(zilog, bp, nbp, dst, end)` on a host of order `h`:
the next block pointer, `lrbuf` after the copy and `end` as an offset, or the
error. `read` is `dsl_read_nolock`, which hands back the block's bytes once
the I/O pipeline has verified them, or a nonzero error. A `zilog2` block has
its chain header in front and `zc_nused` counts from the block's start; an old
one has the header at its end.
mirrors module/zfs/zil.c:196-264 -/
def zilReadLogBlock (h : ByteOrder) (read : ZilBlkptr → Except ℤ Buf) (bp : ZilBlkptr) (dst : Mem) :
    Except ℤ (ZilBlkptr × Mem × ℕ) :=
  match read bp with
  | .error e => .error e
  | .ok data =>
    let cksum := nextCksum bp.cksum
    if bp.checksum = ZioChecksum.zilog2.toNat then
      let next := blkptrAt h data 8
      let len := (load64 h data zilChainNused - UInt64.ofNat zilChainSize).toNat
      if cksum ≠ next.cksum ∨ next.isHole then .error ecksum
      else .ok (next, copyIn dst data zilChainSize len, len)
    else
      let size := bp.lsize
      let zilc := size - zilChainSize
      let next := blkptrAt h data (zilc + 8)
      let nused := (load64 h data (zilc + zilChainNused)).toNat
      if cksum ≠ next.cksum ∨ next.isHole ∨ nused > size - zilChainSize then .error ecksum
      else .ok (next, copyIn dst data 0 nused, nused)

/-- A successful read hands back a next block pointer that is no hole and
carries `bp`'s verifier with the sequence number one up. -/
theorem zilReadLogBlock_ok {h : ByteOrder} {read : ZilBlkptr → Except ℤ Buf} {bp next : ZilBlkptr}
    {dst m : Mem} {e : ℕ} (hr : zilReadLogBlock h read bp dst = .ok (next, m, e)) :
    Linked bp next ∧ next.isHole = false := by
  unfold zilReadLogBlock at hr
  split at hr
  · cases hr
  dsimp only at hr
  split at hr
  · split at hr
    · cases hr
    · rename_i hc
      cases hr
      simp only [ne_eq, not_or, not_not, Bool.not_eq_true] at hc
      exact ⟨hc.1.symm, hc.2⟩
  · split at hr
    · cases hr
    · rename_i hc
      cases hr
      simp only [ne_eq, not_or, not_not, Bool.not_eq_true] at hc
      exact ⟨hc.1.symm, hc.2.1⟩

/-- `lrbuf` after copying a block agrees, on the copied bytes, whatever it
held before. -/
theorem copyIn_congr (m m' : Mem) (src : Buf) (s len : ℕ) {a : ℤ} (h0 : 0 ≤ a) (ha : a < len) :
    copyIn m' src s len a = copyIn m src s len a := by
  simp only [copyIn, if_pos (And.intro h0 ha)]

/-- A second read of a block pointer the first read took, from a disk that
holds the same bytes wherever both can read: it fails in the I/O, or it gives
the same next block pointer and `end`, and a buffer that agrees on the
block. -/
theorem zilReadLogBlock_replay {h : ByteOrder} {read₁ read₂ : ZilBlkptr → Except ℤ Buf}
    {bp next : ZilBlkptr} {m₁ m₂ m₁' : Mem} {e : ℕ}
    (hdisk : ∀ d₁ d₂, read₁ bp = .ok d₁ → read₂ bp = .ok d₂ → d₁ = d₂)
    (hr : zilReadLogBlock h read₁ bp m₁ = .ok (next, m₁', e)) :
    (∃ err, read₂ bp = .error err ∧ zilReadLogBlock h read₂ bp m₂ = .error err) ∨
      ∃ m₂', zilReadLogBlock h read₂ bp m₂ = .ok (next, m₂', e) ∧
        ∀ a : ℤ, 0 ≤ a → a < e → m₂' a = m₁' a := by
  unfold zilReadLogBlock at hr ⊢
  cases h₁ : read₁ bp with
  | error err => rw [h₁] at hr; cases hr
  | ok d =>
    rw [h₁] at hr
    cases h₂ : read₂ bp with
    | error err => exact .inl ⟨err, rfl, rfl⟩
    | ok d₂ =>
      obtain rfl := hdisk d d₂ h₁ h₂
      right
      dsimp only at hr ⊢
      -- the checks read only the block's bytes, so they come out the same
      by_cases hz : bp.checksum = ZioChecksum.zilog2.toNat
      · rw [if_pos hz] at hr ⊢
        split at hr
        · cases hr
        · rename_i hc
          rw [if_neg hc]
          cases hr
          exact ⟨_, rfl, fun a h0 ha => copyIn_congr _ _ _ _ _ h0 ha⟩
      · rw [if_neg hz] at hr ⊢
        split at hr
        · cases hr
        · rename_i hc
          rw [if_neg hc]
          cases hr
          exact ⟨_, rfl, fun a h0 ha => copyIn_congr _ _ _ _ _ h0 ha⟩

/-! ## Records -/

/-- `sizeof (lr_t)`: `lrc_txtype`, `lrc_reclen`, `lrc_txg` and `lrc_seq`.
mirrors include/sys/zil.h:182-187 -/
def lrSize : ℕ := 32

/-- The `int` a `uint64_t` converts to: its low 32 bits in two's complement. -/
def toCInt (v : UInt64) : ℤ :=
  if v.toNat % 2 ^ 32 < 2 ^ 31 then ((v.toNat % 2 ^ 32 : ℕ) : ℤ) else ((v.toNat % 2 ^ 32 : ℕ) : ℤ) - 2 ^ 32

theorem toCInt_of_lt {v : UInt64} (hv : v.toNat < 2 ^ 31) : toCInt v = v.toNat := by
  have hmod : v.toNat % 2 ^ 32 = v.toNat := Nat.mod_eq_of_lt (by omega)
  rw [toCInt, hmod, if_pos hv]

/-- The word at offset `off` of the record at `lrp`. -/
def lrcWord (h : ByteOrder) (m : Mem) (lrp : ℤ) (off : ℕ) : UInt64 :=
  load64 h (fun k => m (lrp + k)) off

/-- `reclen = lr->lrc_reclen`, kept in an `int`. -/
def lrcReclen (h : ByteOrder) (m : Mem) (lrp : ℤ) : ℤ := toCInt (lrcWord h m lrp 8)

/-- `lr->lrc_seq`. -/
def lrcSeq (h : ByteOrder) (m : Mem) (lrp : ℤ) : UInt64 := lrcWord h m lrp 24

/-- A record's word reads only the eight bytes at its offset: two memories
that agree on `lrbuf` from 0 to `e` give the same word of a record that
lies there. -/
theorem lrcWord_congr {h : ByteOrder} {m m' : Mem} {lrp e : ℤ} {off : ℕ} (h0 : 0 ≤ lrp)
    (hle : lrp + off + 8 ≤ e) (hm : ∀ a, 0 ≤ a → a < e → m' a = m a) :
    lrcWord h m' lrp off = lrcWord h m lrp off := by
  apply ZfsOsx.Checksum.load64_congr
  intro k hk
  apply hm <;> push_cast <;> omega

/-! ## The parse -/

/-- A call of `parse_blk_func` as the trace records it: the block pointer,
and what the call returned. -/
structure BlkVisit where
  bp : ZilBlkptr
  ret : ℤ
  deriving DecidableEq, Repr

/-- A call of `parse_lr_func` as the trace records it: the block the record
is in, where it starts in `lrbuf`, the `reclen` and `lrc_seq` the loop read,
`end`, and what the call returned. -/
structure LrVisit where
  blk : ZilBlkptr
  lrp : ℤ
  reclen : ℤ
  seq : UInt64
  lrEnd : ℤ
  ret : ℤ
  deriving DecidableEq, Repr

/-- The callbacks' argument and what `zil_parse` keeps: `error`,
`max_blk_seq`, `max_lr_seq`, `blk_count` and `lr_count` (stored in
`zl_parse_*` at `done`), and the trace of the block pointers and records
handed to the callbacks. -/
structure ParseState (σ : Type) where
  arg : σ
  error : ℤ
  maxBlkSeq : UInt64
  maxLrSeq : UInt64
  blkCount : UInt64
  lrCount : UInt64
  blks : List BlkVisit
  lrs : List LrVisit
  deriving DecidableEq

namespace ParseState

variable {σ : Type}

/-- The state `zil_parse` starts from. -/
def init (arg : σ) : ParseState σ := ⟨arg, 0, 0, 0, 0, 0, [], []⟩

/-- The state once `parse_blk_func` was handed `blk` and returned `r`: the
callbacks' argument it left, and the call in the trace. -/
@[simps]
def handBlk (st : ParseState σ) (blk : ZilBlkptr) (r : σ × ℤ) : ParseState σ :=
  { st with arg := r.1, blks := st.blks ++ [⟨blk, r.2⟩] }

/-- `max_blk_seq = blk_seq; blk_count++`. -/
@[simps]
def countBlk (st : ParseState σ) (blk : ZilBlkptr) : ParseState σ :=
  { st with maxBlkSeq := blk.seq, blkCount := st.blkCount + 1 }

/-- The state once `parse_lr_func` was handed the record `v` and left the
argument `a`. -/
@[simps]
def handLr (st : ParseState σ) (v : LrVisit) (a : σ) : ParseState σ :=
  { st with arg := a, lrs := st.lrs ++ [v] }

/-- `max_lr_seq = lr->lrc_seq; lr_count++`. -/
@[simps]
def countLr (st : ParseState σ) (seq : UInt64) : ParseState σ :=
  { st with maxLrSeq := seq, lrCount := st.lrCount + 1 }

end ParseState

/-- How the record loop ends: at `end`, on to the next block, or by `goto done`. -/
inductive RecordsExit (σ : Type)
  | next (st : ParseState σ)
  | done (st : ParseState σ)

/-- The state the record loop ends in, either way. -/
@[grind] def RecordsExit.state {σ : Type} : RecordsExit σ → ParseState σ
  | .next st => st
  | .done st => st

/-- The fields of `zil_header_t` that `zil_parse` reads.
mirrors include/sys/zil.h:56-64 -/
structure ZilHeader where
  claimTxg : UInt64
  log : ZilBlkptr
  claimBlkSeq : UInt64
  flags : UInt64
  claimLrSeq : UInt64
  deriving DecidableEq, Repr

/-- `ZIL_CLAIM_LR_SEQ_VALID`.
mirrors include/sys/zil.h:70 -/
def zilClaimLrSeqValid : UInt64 := 0x2

/-- `claim_blk_seq` and `claim_lr_seq` of `zil_parse`: the header's for a
claimed log, `UINT64_MAX` otherwise, and `UINT64_MAX` for the record sequence
of an old log that did not record it.
mirrors module/zfs/zil.c:310-328 -/
def claimSeqs (zh : ZilHeader) : UInt64 × UInt64 :=
  let claimed := zh.claimTxg ≠ 0
  let claimLrSeq := if claimed then zh.claimLrSeq else uint64Max
  (if claimed then zh.claimBlkSeq else uint64Max,
    if zh.flags &&& zilClaimLrSeqValid = 0 then uint64Max else claimLrSeq)

section Parse

variable {σ : Type} (h : ByteOrder) (read : ZilBlkptr → Except ℤ Buf)
  (parseBlk : σ → ZilBlkptr → σ × ℤ) (parseLr : σ → Mem → ℤ → σ × ℤ)
  (claimBlkSeq claimLrSeq : UInt64)

/-- The record loop of `zil_parse` over the block `blk` read into `m`, from
`lrp` on. `reclen` is not checked (the `ASSERT3U` is compiled out); `goto done`
leaves `error` as the read set it, 0.
mirrors module/zfs/zil.c:365-377 -/
@[grind] def zilParseRecords (blk : ZilBlkptr) (m : Mem) (lrEnd : ℤ) :
    ℕ → ℤ → ParseState σ → Option (RecordsExit σ)
  | 0, _, _ => none
  | fuel + 1, lrp, st =>
    if lrp < lrEnd then
      let reclen := lrcReclen h m lrp
      let seq := lrcSeq h m lrp
      if seq > claimLrSeq then some (.done st)
      else
        let r := parseLr st.arg m lrp
        let st := st.handLr ⟨blk, lrp, reclen, seq, lrEnd, r.2⟩ r.1
        if r.2 ≠ 0 then some (.done { st with error := r.2 })
        else zilParseRecords blk m lrEnd fuel (lrp + reclen) (st.countLr seq)
    else some (.next st)

/-- The block loop of `zil_parse` from `blk`, with `lrbuf` holding `m`.
mirrors module/zfs/zil.c:342-378 -/
@[grind] def zilParseBlocks : ℕ → ZilBlkptr → Mem → ParseState σ → Option (ParseState σ)
  | 0, _, _, _ => none
  | fuel + 1, blk, m, st =>
    if blk.isHole then some st
    else if blk.seq > claimBlkSeq then some st
    else
      let r := parseBlk st.arg blk
      let st := st.handBlk blk r
      if r.2 ≠ 0 then some { st with error := r.2 }
      else
        let st := st.countBlk blk
        if st.maxLrSeq = claimLrSeq ∧ st.maxBlkSeq = claimBlkSeq then some st
        else
          match zilReadLogBlock h read blk m with
          | .error e => some { st with error := e }
          | .ok (next, m, lrEnd) =>
            match zilParseRecords h parseLr claimLrSeq blk m lrEnd fuel 0 st with
            | none => none
            | some (.done st) => some st
            | some (.next st) => zilParseBlocks fuel next m st

end Parse

/-- `zil_parse(zilog, parse_blk_func, parse_lr_func, arg, txg)` on a host of
order `h`, with `lrbuf` holding `m` when it is allocated: the state at
`done`. The callbacks take `txg` as part of themselves.
mirrors module/zfs/zil.c:303-389 -/
def zilParse {σ : Type} (h : ByteOrder) (read : ZilBlkptr → Except ℤ Buf)
    (parseBlk : σ → ZilBlkptr → σ × ℤ) (parseLr : σ → Mem → ℤ → σ × ℤ) (zh : ZilHeader)
    (m : Mem) (arg : σ) (fuel : ℕ) : Option (ParseState σ) :=
  zilParseBlocks h read parseBlk parseLr (claimSeqs zh).1 (claimSeqs zh).2 fuel zh.log m
    (.init arg)

/-! ## What a parse hands over -/

/-- What the record loop over block `blk`, read into `m` with end `e`, has
read of a record it hands over: it starts before `e`, and its `lrc_seq` is at
most `claim_lr_seq`. -/
structure LrVisit.Handed (h : ByteOrder) (m : Mem) (blk : ZilBlkptr) (e : ℤ) (claimLrSeq : UInt64)
    (v : LrVisit) : Prop where
  blk_eq : v.blk = blk
  end_eq : v.lrEnd = e
  lt_end : v.lrp < e
  seq_le : v.seq ≤ claimLrSeq
  reclen_eq : v.reclen = lrcReclen h m v.lrp
  seq_eq : v.seq = lrcSeq h m v.lrp

/-- The records from `lrp` on are `n` records that chain to `end`, each at
least `sizeof (lr_t)` long and inside the block: the shape the writer gives a
block. -/
inductive RecordChain (h : ByteOrder) (m : Mem) (lrEnd : ℤ) : ℤ → ℕ → Prop
  | done : RecordChain h m lrEnd lrEnd 0
  | cons {lrp : ℤ} {n : ℕ} : (lrSize : ℤ) ≤ lrcReclen h m lrp → lrp + lrcReclen h m lrp ≤ lrEnd →
      RecordChain h m lrEnd (lrp + lrcReclen h m lrp) n → RecordChain h m lrEnd lrp (n + 1)

/-- The sequence number a counter of `zil_parse` holds after the calls `l`,
from `d`: `max_blk_seq` and `max_lr_seq` take that of each call whose
callback accepted it, so this is the last such call's, or `d`. -/
def lastOk {α : Type} (seq : α → UInt64) (ret : α → ℤ) (d : UInt64) (l : List α) : UInt64 :=
  l.foldl (fun d v => if ret v = 0 then seq v else d) d

section LastOk

variable {α : Type} {seq : α → UInt64} {ret : α → ℤ} {d : UInt64} {v : α} {l : List α}

@[simp] theorem lastOk_nil : lastOk seq ret d [] = d := rfl

@[simp] theorem lastOk_cons :
    lastOk seq ret d (v :: l) = lastOk seq ret (if ret v = 0 then seq v else d) l := rfl

theorem lastOk_append (l₁ l₂ : List α) :
    lastOk seq ret d (l₁ ++ l₂) = lastOk seq ret (lastOk seq ret d l₁) l₂ :=
  List.foldl_append

/-- Over strictly increasing sequence numbers, the counter after one more
call is at least where it was, and the rest still increase from it. -/
theorem lastOk_step (hp : (d :: (v :: l).map seq).Pairwise (· < ·)) :
    d ≤ (if ret v = 0 then seq v else d) ∧
      ((if ret v = 0 then seq v else d) :: l.map seq).Pairwise (· < ·) := by
  rw [List.map_cons, List.pairwise_cons, List.pairwise_cons] at hp
  obtain ⟨hd, hv, hl⟩ := hp
  split
  · exact ⟨UInt64.le_of_lt (hd _ List.mem_cons_self), List.pairwise_cons.2 ⟨hv, hl⟩⟩
  · exact ⟨UInt64.le_refl d, List.pairwise_cons.2 ⟨fun a ha => hd a (List.mem_cons_of_mem _ ha), hl⟩⟩

theorem le_lastOk (hp : (d :: l.map seq).Pairwise (· < ·)) : d ≤ lastOk seq ret d l := by
  induction l generalizing d with
  | nil => exact UInt64.le_refl d
  | cons v l ih =>
    obtain ⟨hle, hp'⟩ := lastOk_step hp
    exact UInt64.le_trans hle (ih hp')

/-- Each accepted call's sequence number is at most the counter's end value. -/
theorem seq_le_lastOk (hp : (d :: l.map seq).Pairwise (· < ·)) (hv : v ∈ l) (hok : ret v = 0) :
    seq v ≤ lastOk seq ret d l := by
  induction l generalizing d with
  | nil => cases hv
  | cons w l ih =>
    obtain ⟨-, hp'⟩ := lastOk_step hp
    rcases List.mem_cons.1 hv with rfl | hv
    · rw [lastOk_cons, if_pos hok]
      rw [if_pos hok] at hp'
      exact le_lastOk hp'
    · exact ih hp' hv

/-- What follows `l₁` still increases from the counter's value after `l₁`. -/
theorem pairwise_lastOk {l₂ : List α} (hp : (d :: (l ++ l₂).map seq).Pairwise (· < ·)) :
    (lastOk seq ret d l :: l₂.map seq).Pairwise (· < ·) := by
  induction l generalizing d with
  | nil => simpa using hp
  | cons v l ih => exact ih (lastOk_step hp).2

/-- A counter that ends where it started saw no accepted call. -/
theorem ret_ne_of_lastOk_eq (hp : (d :: l.map seq).Pairwise (· < ·)) (heq : lastOk seq ret d l = d)
    (hv : v ∈ l) : ret v ≠ 0 := by
  induction l generalizing d with
  | nil => cases hv
  | cons w l ih =>
    obtain ⟨-, hp'⟩ := lastOk_step hp
    rw [lastOk_cons] at heq
    have hlt : d < seq w := by
      rw [List.map_cons, List.pairwise_cons] at hp
      exact hp.1 _ List.mem_cons_self
    by_cases hw : ret w = 0
    · rw [if_pos hw] at heq hp'
      have : seq w ≤ lastOk seq ret (seq w) l := le_lastOk hp'
      rw [heq] at this
      exact absurd (UInt64.lt_of_lt_of_le hlt this) (UInt64.lt_irrefl d)
    · rw [if_neg hw] at heq hp'
      rcases List.mem_cons.1 hv with rfl | hv
      · exact hw
      · exact ih hp' heq hv

/-- The same, as the calls' list: none of them was accepted. -/
theorem filter_eq_nil_of_lastOk_eq (hp : (d :: l.map seq).Pairwise (· < ·))
    (heq : lastOk seq ret d l = d) : l.filter (ret · = 0) = [] :=
  List.filter_eq_nil_iff.2 fun _ hv => by simpa using ret_ne_of_lastOk_eq hp heq hv

end LastOk

section Lemmas

variable {σ : Type} {h : ByteOrder} {read : ZilBlkptr → Except ℤ Buf}
  {parseBlk : σ → ZilBlkptr → σ × ℤ} {parseLr : σ → Mem → ℤ → σ × ℤ}
  {claimBlkSeq claimLrSeq : UInt64} {blk : ZilBlkptr} {m : Mem} {e lrp : ℤ} {fuel : ℕ}

/-- The record loop touches no field of the block loop, and every record it
adds to the trace is one it handed over from this block. -/
theorem zilParseRecords_visit {st : ParseState σ} {x : RecordsExit σ}
    (hr : zilParseRecords h parseLr claimLrSeq blk m e fuel lrp st = some x) :
    x.state.blks = st.blks ∧ x.state.maxBlkSeq = st.maxBlkSeq ∧ x.state.blkCount = st.blkCount ∧
      ∃ vs, x.state.lrs = st.lrs ++ vs ∧ x.state.maxLrSeq = lastOk LrVisit.seq LrVisit.ret st.maxLrSeq vs ∧
        ∀ v ∈ vs, v.Handed h m blk e claimLrSeq := by
  induction fuel generalizing lrp st with
  | zero => cases hr
  | succ fuel ih =>
    simp only [zilParseRecords] at hr
    split at hr
    · rename_i hlt
      split at hr
      · cases hr
        exact ⟨rfl, rfl, rfl, [], by simp [RecordsExit.state], rfl, by simp⟩
      rename_i hseq
      have hv : LrVisit.Handed h m blk e claimLrSeq
          ⟨blk, lrp, lrcReclen h m lrp, lrcSeq h m lrp, e, (parseLr st.arg m lrp).2⟩ :=
        ⟨rfl, rfl, hlt, UInt64.not_lt.1 hseq, rfl, rfl⟩
      split at hr
      · rename_i hret
        cases hr
        exact ⟨rfl, rfl, rfl, [_], rfl, by simp [RecordsExit.state, hret], by simpa using hv⟩
      · rename_i hret
        obtain ⟨h1, h2, h3, vs, hvs, hmax, hall⟩ := ih hr
        refine ⟨h1, h2, h3, ⟨blk, lrp, lrcReclen h m lrp, lrcSeq h m lrp, e, (parseLr st.arg m lrp).2⟩ :: vs,
          by simp [hvs], by rw [lastOk_cons, if_pos (not_not.1 hret)]; exact hmax, ?_⟩
        intro v hmem
        rcases List.mem_cons.1 hmem with rfl | hmem
        · exact hv
        · exact hall v hmem
    · cases hr
      exact ⟨rfl, rfl, rfl, [], by simp [RecordsExit.state], rfl, by simp⟩

/-- A record whose `lrc_reclen` is 0, which the loop may hand over and which
`parse_lr_func` accepts, keeps `lrp` where it is: the loop never ends. -/
theorem zilParseRecords_stuck (hlt : lrp < e) (hrec : lrcReclen h m lrp = 0)
    (hseq : lrcSeq h m lrp ≤ claimLrSeq) (hok : ∀ a, (parseLr a m lrp).2 = 0) (st : ParseState σ) :
    zilParseRecords h parseLr claimLrSeq blk m e fuel lrp st = none := by
  induction fuel generalizing st with
  | zero => rfl
  | succ fuel ih =>
    have hns : ¬lrcSeq h m lrp > claimLrSeq := UInt64.not_lt.2 hseq
    simp only [zilParseRecords, if_pos hlt, if_neg hns, hok, ne_eq, not_true_eq_false,
      if_false, hrec, add_zero]
    exact ih _

/-- On a block whose records chain to `end`, the record loop ends within one
round more than there are records, and every record it hands over lies inside
the block and is at least `sizeof (lr_t)` long. -/
theorem zilParseRecords_chain {n : ℕ} (hc : RecordChain h m e lrp n) (hf : n < fuel)
    (st : ParseState σ) :
    ∃ x, zilParseRecords h parseLr claimLrSeq blk m e fuel lrp st = some x ∧
      ∃ vs, x.state.lrs = st.lrs ++ vs ∧ ∀ v ∈ vs, (lrSize : ℤ) ≤ v.reclen ∧ v.lrp + v.reclen ≤ e := by
  induction hc generalizing fuel st with
  | done =>
    obtain ⟨fuel, rfl⟩ : ∃ f, fuel = f + 1 := ⟨fuel - 1, by omega⟩
    exact ⟨.next st, by simp [zilParseRecords], [], by simp [RecordsExit.state], by simp⟩
  | @cons lrp n hmin hle _ ih =>
    obtain ⟨fuel, rfl⟩ : ∃ f, fuel = f + 1 := ⟨fuel - 1, by omega⟩
    have hsize : (lrSize : ℤ) = 32 := rfl
    have hlt : lrp < e := by omega
    simp only [zilParseRecords, if_pos hlt]
    split
    · exact ⟨_, rfl, [], by simp [RecordsExit.state], by simp⟩
    split
    · exact ⟨_, rfl, [_], rfl, by simpa using ⟨hmin, hle⟩⟩
    · obtain ⟨x, hx, vs, hvs, hall⟩ := ih (show n < fuel by omega) _
      refine ⟨x, hx, ⟨blk, lrp, lrcReclen h m lrp, lrcSeq h m lrp, e, (parseLr st.arg m lrp).2⟩ :: vs,
        by simp [hvs], ?_⟩
      intro v hmem
      rcases List.mem_cons.1 hmem with rfl | hmem
      · exact ⟨hmin, hle⟩
      · exact hall v hmem

/-- Block pointers chained by the check of `zil_read_log_block`, the first
one `blk`, none of them a hole or past `claim_blk_seq`. -/
def ChainFrom (claimBlkSeq : UInt64) (blk : ZilBlkptr) (bs : List ZilBlkptr) : Prop :=
  List.IsChain Linked bs ∧ (∀ b ∈ bs.head?, b = blk) ∧ ∀ b ∈ bs, b.isHole = false ∧ b.seq ≤ claimBlkSeq

theorem ChainFrom.single (hb : blk.isHole = false ∧ blk.seq ≤ claimBlkSeq) :
    ChainFrom claimBlkSeq blk [blk] :=
  ⟨List.isChain_singleton blk, by simp, by simpa using hb⟩

theorem ChainFrom.cons {bs : List ZilBlkptr} {next : ZilBlkptr} (hc : ChainFrom claimBlkSeq next bs)
    (hlink : Linked blk next) (hb : blk.isHole = false ∧ blk.seq ≤ claimBlkSeq) :
    ChainFrom claimBlkSeq blk (blk :: bs) := by
  obtain ⟨hchain, hhead, hall⟩ := hc
  refine ⟨?_, by simp, ?_⟩
  · cases bs with
    | nil => exact List.isChain_singleton blk
    | cons b bs =>
      have hb' : b = next := hhead b rfl
      subst hb'
      exact List.IsChain.cons_cons hlink hchain
  · intro b hmem
    rcases List.mem_cons.1 hmem with rfl | hmem
    · exact hb
    · exact hall b hmem

/-- The chain check moves the sequence number one up, in 64 bits. -/
theorem Linked.seq_eq {b b' : ZilBlkptr} (hl : Linked b b') : b'.seq = b.seq + 1 := by
  rw [Linked] at hl
  rw [ZilBlkptr.seq, hl, nextCksum, ZilBlkptr.seq]

/-- Below `UINT64_MAX`, the next block's sequence number is the larger. -/
theorem Linked.seq_lt {b b' : ZilBlkptr} (hl : Linked b b') (hb : b.seq ≠ uint64Max) :
    b.seq < b'.seq := by
  have hne : b.seq.toNat ≠ 2 ^ 64 - 1 := fun heq => hb (UInt64.toNat_inj.1 (by rw [heq]; rfl))
  have hlt := UInt64.toNat_lt b.seq
  rw [hl.seq_eq, UInt64.lt_iff_toNat_lt, UInt64.toNat_add, UInt64.toNat_one,
    Nat.mod_eq_of_lt (by omega)]
  omega

/-- What the block loop from `blk` adds to the trace: a chain of block
pointers from `blk`, and records each handed over from one of those blocks,
starting before its `end`, with `lrc_seq` at most `claim_lr_seq`; the two
counters end at the last accepted call of each kind. -/
theorem zilParseBlocks_trace {st r : ParseState σ}
    (hr : zilParseBlocks h read parseBlk parseLr claimBlkSeq claimLrSeq fuel blk m st = some r) :
    (∃ bs, r.blks = st.blks ++ bs ∧ r.maxBlkSeq = lastOk (·.bp.seq) BlkVisit.ret st.maxBlkSeq bs ∧
        ChainFrom claimBlkSeq blk (bs.map (·.bp))) ∧
      ∃ vs, r.lrs = st.lrs ++ vs ∧ r.maxLrSeq = lastOk LrVisit.seq LrVisit.ret st.maxLrSeq vs ∧
        ∀ v ∈ vs, v.lrp < v.lrEnd ∧ v.seq ≤ claimLrSeq ∧ v.blk ∈ r.blks.map (·.bp) := by
  induction fuel generalizing blk m st with
  | zero => cases hr
  | succ fuel ih =>
    have hnil : ChainFrom claimBlkSeq blk [] := ⟨List.isChain_nil, by simp, by simp⟩
    simp only [zilParseBlocks] at hr
    split at hr
    · cases hr
      exact ⟨⟨[], by simp, rfl, hnil⟩, [], by simp, rfl, by simp⟩
    split at hr
    · cases hr
      exact ⟨⟨[], by simp, rfl, hnil⟩, [], by simp, rfl, by simp⟩
    rename_i hhole hseq
    have hb : blk.isHole = false ∧ blk.seq ≤ claimBlkSeq :=
      ⟨by simpa using hhole, UInt64.not_lt.1 hseq⟩
    have hone : ChainFrom claimBlkSeq blk [blk] := ChainFrom.single hb
    split at hr
    · rename_i hret
      cases hr
      exact ⟨⟨[⟨blk, (parseBlk st.arg blk).2⟩], rfl, by simp [hret], hone⟩, [], by simp, rfl, by simp⟩
    rename_i hret
    have hacc : lastOk (·.bp.seq) BlkVisit.ret st.maxBlkSeq [⟨blk, (parseBlk st.arg blk).2⟩] = blk.seq := by
      rw [lastOk_cons, if_pos (not_not.1 hret), lastOk_nil]
    -- the break of a claimed log and a failed read keep the trace of `st` plus `blk`
    split at hr
    · cases hr
      exact ⟨⟨[⟨blk, (parseBlk st.arg blk).2⟩], rfl, hacc.symm, hone⟩, [], by simp, rfl, by simp⟩
    split at hr
    · cases hr
      exact ⟨⟨[⟨blk, (parseBlk st.arg blk).2⟩], rfl, hacc.symm, hone⟩, [], by simp, rfl, by simp⟩
    rename_i next m' e hread
    have hnext := zilReadLogBlock_ok hread
    split at hr
    · cases hr
    · rename_i st' hrec
      cases hr
      obtain ⟨hblks, hmaxb, -, vs, hvs, hmax, hall⟩ := zilParseRecords_visit hrec
      simp only [RecordsExit.state] at hblks hmaxb hvs hmax
      refine ⟨⟨[⟨blk, (parseBlk st.arg blk).2⟩], hblks, hmaxb.trans hacc.symm, hone⟩, vs, hvs, hmax, ?_⟩
      intro v hv
      have hv' := hall v hv
      refine ⟨hv'.end_eq ▸ hv'.lt_end, hv'.seq_le, ?_⟩
      simp [hblks, hv'.blk_eq]
    · rename_i st' hrec
      obtain ⟨hblks, hmaxb, -, vs, hvs, hmax, hall⟩ := zilParseRecords_visit hrec
      obtain ⟨⟨bs, hbs, hmaxb', hchain⟩, vs', hvs', hmax', hall'⟩ := ih hr
      simp only [RecordsExit.state, ParseState.countBlk_maxBlkSeq, ParseState.countBlk_maxLrSeq,
        ParseState.handBlk_maxLrSeq] at hblks hmaxb hvs hmax
      refine ⟨⟨⟨blk, (parseBlk st.arg blk).2⟩ :: bs, by simp [hbs, hblks], ?_,
        hchain.cons hnext.1 hb⟩, vs ++ vs', by simp [hvs', hvs], ?_, ?_⟩
      · rw [hmaxb', hmaxb, lastOk_cons, if_pos (not_not.1 hret)]
      · rw [hmax', hmax, lastOk_append]
      intro v hv
      rcases List.mem_append.1 hv with hv | hv
      · have hv' := hall v hv
        refine ⟨hv'.end_eq ▸ hv'.lt_end, hv'.seq_le, ?_⟩
        simp [hbs, hblks, hv'.blk_eq]
      · exact hall' v hv

/-- A block loop at a block pointer it does not stop at hands that block
pointer over first. -/
theorem zilParseBlocks_head {st r : ParseState σ}
    (hr : zilParseBlocks h read parseBlk parseLr claimBlkSeq claimLrSeq fuel blk m st = some r)
    (hb : blk.isHole = false ∧ blk.seq ≤ claimBlkSeq) :
    ∃ bs, r.blks = st.blks ++ ⟨blk, (parseBlk st.arg blk).2⟩ :: bs := by
  cases fuel with
  | zero => cases hr
  | succ fuel =>
    simp only [zilParseBlocks, hb.1, Bool.false_eq_true, if_false, if_neg (UInt64.not_lt.2 hb.2)] at hr
    split at hr
    · cases hr
      exact ⟨[], rfl⟩
    split at hr
    · cases hr
      exact ⟨[], rfl⟩
    split at hr
    · cases hr
      exact ⟨[], rfl⟩
    split at hr
    · cases hr
    · rename_i hrec
      cases hr
      exact ⟨[], (zilParseRecords_visit hrec).1⟩
    · rename_i hrec
      obtain ⟨bs, hbs, -⟩ := (zilParseBlocks_trace hr).1
      have hblks : _ = _ := (zilParseRecords_visit hrec).1
      simp only [RecordsExit.state, ParseState.countBlk_blks, ParseState.handBlk_blks] at hblks
      exact ⟨bs, by rw [hbs, hblks]; simp⟩

/-- A whole parse: each block pointer it hands over has the sequence number
one up from the one before, none is past `claim_blk_seq`, and each record it
hands over lies in one of those blocks, starts before that block's end and has
`lrc_seq` at most `claim_lr_seq`. -/
theorem zilParse_trace {zh : ZilHeader} {arg : σ} {r : ParseState σ}
    (hr : zilParse h read parseBlk parseLr zh m arg fuel = some r) :
    List.IsChain (fun b b' : ZilBlkptr => b'.seq = b.seq + 1) (r.blks.map (·.bp)) ∧
      (∀ b ∈ r.blks, b.bp.seq ≤ (claimSeqs zh).1) ∧
      ∀ v ∈ r.lrs, v.lrp < v.lrEnd ∧ v.seq ≤ (claimSeqs zh).2 ∧ v.blk ∈ r.blks.map (·.bp) := by
  obtain ⟨⟨bs, hbs, -, hchain, -, hall⟩, vs, hvs, -, hv⟩ := zilParseBlocks_trace hr
  simp only [ParseState.init, List.nil_append] at hbs hvs
  refine ⟨hbs ▸ hchain.imp fun _ _ hl => hl.seq_eq, fun b hb => ?_, ?_⟩
  · exact (hall b.bp (List.mem_map_of_mem (hbs ▸ hb))).2
  · rw [hvs]
    exact hv

end Lemmas

/-- The block pointer `zh_log` names in the runs below: a `zilog2` block
(checksum 9 in bits 40 to 47 of `blk_prop`) of 512 bytes, born in txg 1, with
the sequence number 1. -/
def escBlk : ZilBlkptr := ⟨[], (9 : UInt64) <<< 40, 1, ⟨0, 0, 0, 1⟩⟩

/-- The bytes of `escBlk`: a chain header whose `zc_next_blk` is born in
txg 1 and has the sequence number 2, and whose `zc_nused` is 216, so that one
32-byte record follows the header, with `lrc_reclen` the given byte and every
other field 0. -/
def escData (reclen : UInt8) : Buf := fun i =>
  if i = 88 then 1 else if i = 128 then 2 else if i = 136 then 216 else if i = 192 then reclen else 0

/-- Reading `escBlk` gives `escData reclen`; every other block is unreadable. -/
def escRead (reclen : UInt8) (bp : ZilBlkptr) : Except ℤ Buf :=
  if bp = escBlk then .ok (escData reclen) else .error ecksum

/-- An unclaimed log of one checksum-valid block, parsed with callbacks that
accept every block and record, as `zil_claim_log_block` does for a block born
before the claim txg and `zil_claim_log_record` for a record that is no
`TX_WRITE`. With `lrc_reclen` 0 the parse never ends; with 64 it hands
`parse_lr_func` a record that starts at 0 and runs to 64, past `end` at 32. -/
theorem zil_parse_record_escapes :
    (∀ fuel, zilParse little (escRead 0) (fun a _ => (a, 0)) (fun a _ _ => (a, 0))
      ⟨0, escBlk, 0, 0, 0⟩ (fun _ => 0) () fuel = none) ∧
    (zilParse little (escRead 64) (fun a _ => (a, 0)) (fun a _ _ => (a, 0))
      ⟨0, escBlk, 0, 0, 0⟩ (fun _ => 0) () 3).map (·.lrs) = some [⟨escBlk, 0, 64, 0, 32, 0⟩] := by
  refine ⟨?_, by decide⟩
  intro fuel
  cases fuel with
  | zero => rfl
  | succ fuel =>
    have hread : zilReadLogBlock little (escRead 0) escBlk (fun _ => 0) =
        .ok (blkptrAt little (escData 0) 8, copyIn (fun _ => 0) (escData 0) 184 32, 32) := rfl
    have hclaim : claimSeqs ⟨0, escBlk, 0, 0, 0⟩ = (uint64Max, uint64Max) := rfl
    -- the one record, at 0, has `lrc_reclen` 0
    have hrec : ∀ st : ParseState Unit, zilParseRecords little (fun a _ _ => (a, 0)) uint64Max escBlk
        (copyIn (fun _ => 0) (escData 0) 184 32) ((32 : ℕ) : ℤ) fuel 0 st = none :=
      zilParseRecords_stuck (by decide) (by decide) (by decide) (fun _ => rfl)
    rw [zilParse, hclaim, zilParseBlocks]
    simp +decide only [hread, hrec, if_false]

end ZfsOsx.Zil
