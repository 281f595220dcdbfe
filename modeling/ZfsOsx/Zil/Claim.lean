import ZfsOsx.Zil.Parse
import ZfsOsx.Lib.Bits

/-!
# Claiming the intent log and parsing it again (`module/zfs/zil.c`)

`zil_claim` parses an unclaimed log once, when the pool is opened, and
records in the header where that parse ended: `zh_claim_blk_seq` and
`zh_claim_lr_seq` are the last block and record sequence numbers it accepted,
and `ZIL_CLAIM_LR_SEQ_VALID` says the second is valid. Every later parse
(replay, destroy) runs with those bounds: it stops at a block past
`zh_claim_blk_seq` and at a record past `zh_claim_lr_seq`, and it stops before
reading the block at `zh_claim_blk_seq` when the records so far already reach
`zh_claim_lr_seq`. That way a block that was unreadable at claim time and
readable later is not replayed.

The comparison holds for logs as the writer lays them out: block and record
sequence numbers increase from 1, and the records of each block chain to its
end (`RecordChain`). Then the later parse hands its callbacks exactly the calls
the claiming parse's callbacks accepted, in order, when it can read at least
the blocks the claiming parse read and its own callbacks accept every call; and
a prefix of them otherwise.

* `claimSeqs_zilClaimHeader`: a later parse runs with the claiming parse's
  counters as its bounds.
* `zilParseRecords_replay`: the record loops of the two parses over one block.
* `zilParseBlocks_replay`: the block loops, by induction over the claiming
  parse.
* `zil_claim_replay_agree`: the two parses of `zil_claim` and a later one;
  `zil_claim_replay_misorder` shows a log whose record sequence numbers do not
  increase, where the later parse skips records the claiming parse accepted.
-/
namespace ZfsOsx.Zil

open Endian ByteOrder
open ZfsOsx.Compress (Buf)
open ZfsOsx.Checksum (ecksum)
open ZfsOsx.Zpl (uint64Max uint64Max_toNat)

/-- `ZIL_REPLAY_NEEDED`.
mirrors include/sys/zil.h:69 -/
def zilReplayNeeded : UInt64 := 0x1

/-- The header `zil_claim` writes once its parse `r` of an unclaimed log has
ended, in txg `firstTxg`.
mirrors module/zfs/zil.c:691-699 -/
def zilClaimHeader {σ : Type} (zh : ZilHeader) (firstTxg : UInt64) (r : ParseState σ) : ZilHeader :=
  let flags := if r.lrCount ≠ 0 ∨ r.blkCount > 1 then zh.flags ||| zilReplayNeeded else zh.flags
  let flags := flags ||| zilClaimLrSeqValid
  { zh with claimTxg := firstTxg, claimBlkSeq := r.maxBlkSeq, claimLrSeq := r.maxLrSeq, flags }

/-- The header after `zil_claim` in txg `firstTxg`: an unclaimed log that is
no hole is parsed with the claim callbacks and its header rewritten; any other
is left as it is. `none` is a parse that has not ended within the fuel. The
branch for a log being cleared (`SPA_LOG_CLEAR`) is not modelled.
mirrors module/zfs/zil.c:653-704 -/
def zilClaim {σ : Type} (h : ByteOrder) (read : ZilBlkptr → Except ℤ Buf)
    (parseBlk : σ → ZilBlkptr → σ × ℤ) (parseLr : σ → Mem → ℤ → σ × ℤ) (zh : ZilHeader) (m : Mem)
    (arg : σ) (firstTxg : UInt64) (fuel : ℕ) : Option ZilHeader :=
  if zh.claimTxg = 0 ∧ zh.log.isHole = false then
    (zilParse h read parseBlk parseLr zh m arg fuel).map (zilClaimHeader zh firstTxg)
  else some zh

/-- An unclaimed log is parsed without bounds. -/
theorem claimSeqs_unclaimed {zh : ZilHeader} (hz : zh.claimTxg = 0) :
    claimSeqs zh = (uint64Max, uint64Max) := by
  simp [claimSeqs, hz]

/-- Setting `ZIL_CLAIM_LR_SEQ_VALID` sets its bit, whatever the flags were. -/
theorem claimLrSeqValid_set (x : UInt64) : (x ||| zilClaimLrSeqValid) &&& zilClaimLrSeqValid ≠ 0 := by
  intro h0
  have h := congrArg UInt64.toNat h0
  rw [UInt64.toNat_and, UInt64.toNat_or] at h
  have hb := (FlagWord.and_two_pow_eq_zero_iff _ 1).1 (by simpa [zilClaimLrSeqValid] using h)
  have h2 : Nat.testBit 2 1 = true := by decide
  simp [h2] at hb

/-- A parse of a claimed log runs with the counters of the claiming parse as
its bounds. -/
theorem claimSeqs_zilClaimHeader {σ : Type} {zh : ZilHeader} {firstTxg : UInt64} {r : ParseState σ}
    (hft : firstTxg ≠ 0) : claimSeqs (zilClaimHeader zh firstTxg r) = (r.maxBlkSeq, r.maxLrSeq) := by
  simp only [claimSeqs, zilClaimHeader, ne_eq, hft, not_false_eq_true, if_true,
    if_neg (claimLrSeqValid_set _)]

/-! ## The two record loops over one block -/

/-- A call with its callback's answer taken as an accept: what the claiming
parse's trace holds of a call it accepted, so that the calls of two parses
compare whatever the later callback answered. -/
def LrVisit.accept (v : LrVisit) : LrVisit := { v with ret := 0 }

/-- The same for a block pointer's call. -/
def BlkVisit.accept (b : BlkVisit) : BlkVisit := { b with ret := 0 }

theorem LrVisit.accept_of_ret {v : LrVisit} (hv : v.ret = 0) : v.accept = v := by
  cases v
  simp_all [LrVisit.accept]

theorem BlkVisit.accept_of_ret {b : BlkVisit} (hb : b.ret = 0) : b.accept = b := by
  cases b
  simp_all [BlkVisit.accept]

/-- How the later parse's record loop over a block ends against the claiming
parse's, where they hand over `vs₂` and `vs₁`: on to the next block in step,
with the same records, all accepted, and the same counter; or done, each call
it made one that the claiming parse accepted, in order. -/
def RecordsAgree {σ₁ σ₂ : Type} (x₁ : RecordsExit σ₁) (x₂ : RecordsExit σ₂) (vs₁ vs₂ : List LrVisit) :
    Prop :=
  match x₁, x₂ with
  | .next s₁, .next s₂ => vs₂ = vs₁ ∧ s₂.maxLrSeq = s₁.maxLrSeq ∧ ∀ v ∈ vs₁, v.ret = 0
  | _, .done _ => vs₂.map LrVisit.accept <+: vs₁.filter (·.ret = 0)
  | .done _, .next _ => False

/-- Whether a record loop went on to the next block. -/
def RecordsExit.isNext {σ : Type} : RecordsExit σ → Bool
  | .next _ => true
  | .done _ => false

/-- One more record handed over and accepted by both parses keeps them in
agreement. -/
theorem RecordsAgree.cons {σ₁ σ₂ : Type} {x₁ : RecordsExit σ₁} {x₂ : RecordsExit σ₂}
    {vs₁ vs₂ : List LrVisit} {v : LrVisit} (hv : v.ret = 0) (h : RecordsAgree x₁ x₂ vs₁ vs₂) :
    RecordsAgree x₁ x₂ (v :: vs₁) (v :: vs₂) := by
  cases x₁ <;> cases x₂ <;> simp_all [RecordsAgree, LrVisit.accept_of_ret hv]

section Replay

variable {σ₁ σ₂ : Type} {h : ByteOrder} {parseLr₁ : σ₁ → Mem → ℤ → σ₁ × ℤ}
  {parseLr₂ : σ₂ → Mem → ℤ → σ₂ × ℤ} {blk : ZilBlkptr} {m₁ m₂ : Mem} {e : ℤ} {L : UInt64}

theorem not_gt_uint64Max (x : UInt64) : ¬x > uint64Max := by
  rw [gt_iff_lt, UInt64.lt_iff_toNat_lt, uint64Max_toNat]
  have := UInt64.toNat_lt x
  omega

/-- The record loops of the claiming parse (no bound) and of a later one
(bound `L`) over one block whose records chain to its end, read into two
buffers that agree on the block. `L` is where the claiming parse's record
counter ends, after this block's records and `rest`, the records it hands over
in later blocks (none if this loop ends the parse), over sequence numbers that
increase. Then the later loop ends as `RecordsAgree` says; with a
`parse_lr_func` that accepts every record, it hands over exactly what the
claiming loop accepted, and goes on to the next block when that loop does. -/
theorem zilParseRecords_replay {fuel n : ℕ} {lrp : ℤ} {st₁ : ParseState σ₁} {st₂ : ParseState σ₂}
    {x₁ : RecordsExit σ₁} {rest : List LrVisit}
    (hx₁ : zilParseRecords h parseLr₁ uint64Max blk m₁ e fuel lrp st₁ = some x₁)
    (hc : RecordChain h m₁ e lrp n) (h0 : 0 ≤ lrp) (hm : ∀ a, 0 ≤ a → a < e → m₂ a = m₁ a)
    (hmax : st₂.maxLrSeq = st₁.maxLrSeq)
    (hrest : x₁.isNext = false → rest = [])
    (hL : ∀ vs₁, x₁.state.lrs = st₁.lrs ++ vs₁ →
      (st₁.maxLrSeq :: (vs₁ ++ rest).map (·.seq)).Pairwise (· < ·) ∧
        L = lastOk LrVisit.seq LrVisit.ret st₁.maxLrSeq (vs₁ ++ rest)) :
    ∃ x₂ vs₁ vs₂, zilParseRecords h parseLr₂ L blk m₂ e fuel lrp st₂ = some x₂ ∧
      x₁.state.lrs = st₁.lrs ++ vs₁ ∧ x₂.state.lrs = st₂.lrs ++ vs₂ ∧ RecordsAgree x₁ x₂ vs₁ vs₂ ∧
      ((∀ a m p, (parseLr₂ a m p).2 = 0) →
        vs₂ = vs₁.filter (·.ret = 0) ∧ x₂.isNext = x₁.isNext) := by
  induction fuel generalizing lrp n st₁ st₂ with
  | zero => cases hx₁
  | succ fuel ih =>
    cases hc with
    | done =>
      -- both loops are at `end`
      simp only [zilParseRecords, lt_irrefl, if_false] at hx₁ ⊢
      cases hx₁
      exact ⟨_, [], [], rfl, by simp [RecordsExit.state], by simp [RecordsExit.state],
        ⟨rfl, hmax, by simp⟩, fun _ => ⟨rfl, rfl⟩⟩
    | @cons _ n hmin hle hrest' =>
      have hsize : (lrSize : ℤ) = 32 := rfl
      have hlt : lrp < e := by omega
      -- the later parse reads the same `lrc_reclen` and `lrc_seq`
      have hrec : lrcReclen h m₂ lrp = lrcReclen h m₁ lrp := by
        rw [lrcReclen, lrcReclen, lrcWord_congr h0 (by push_cast; omega) hm]
      have hseq : lrcSeq h m₂ lrp = lrcSeq h m₁ lrp := lrcWord_congr h0 (by push_cast; omega) hm
      simp only [zilParseRecords, if_pos hlt, if_neg (not_gt_uint64Max _)] at hx₁
      simp only [zilParseRecords, if_pos hlt, hrec, hseq]
      split at hx₁
      · -- the claiming parse's callback rejects the record and the parse ends: it is past `L`
        rename_i hret₁
        cases hx₁
        obtain ⟨hp, hLeq⟩ := hL [_] rfl
        rw [hrest rfl, List.append_nil, lastOk_cons, if_neg hret₁, lastOk_nil] at hLeq
        rw [hrest rfl, List.append_nil, List.map_cons, List.map_nil, List.pairwise_cons] at hp
        rw [if_pos (hLeq ▸ hp.1 _ List.mem_cons_self)]
        exact ⟨_, [_], [], rfl, rfl, by simp [RecordsExit.state], by simp [RecordsAgree],
          fun _ => ⟨by simp [hret₁], rfl⟩⟩
      rename_i hret₁
      have hret₁' : (parseLr₁ st₁.arg m₁ lrp).2 = 0 := not_not.1 hret₁
      rw [hret₁'] at hx₁
      obtain ⟨-, -, -, vs, hvs, -, -⟩ := zilParseRecords_visit hx₁
      simp only [ParseState.countLr_lrs, ParseState.handLr_lrs] at hvs
      have hvs' : x₁.state.lrs = st₁.lrs ++
          (⟨blk, lrp, lrcReclen h m₁ lrp, lrcSeq h m₁ lrp, e, 0⟩ :: vs) := by
        rw [hvs, List.append_assoc]
        rfl
      obtain ⟨hp, hLeq⟩ := hL _ hvs'
      have hle' : lrcSeq h m₁ lrp ≤ L := hLeq ▸ seq_le_lastOk hp List.mem_cons_self rfl
      rw [if_neg (UInt64.not_lt.2 hle')]
      split
      · -- the later parse's callback rejects it: it stops there
        rename_i hret₂
        refine ⟨_, _, [_], rfl, hvs', rfl, ?_, fun hok => ?_⟩
        · cases x₁ <;> simp [RecordsAgree, LrVisit.accept]
        · exact absurd (hok _ _ _) hret₂
      · -- both accept it and go on in step
        rename_i hret₂
        rw [not_not.1 hret₂]
        obtain ⟨x₂, vs₁, vs₂, hx₂, hvs₁, hvs₂, hagree, hexact⟩ := @ih n (lrp + lrcReclen h m₁ lrp) _
          ((st₂.handLr ⟨blk, lrp, lrcReclen h m₁ lrp, lrcSeq h m₁ lrp, e, 0⟩
            (parseLr₂ st₂.arg m₂ lrp).1).countLr (lrcSeq h m₁ lrp))
          hx₁ hrest' (by omega) rfl (fun vs₁ hvs₁ => by
            obtain ⟨hp, hLeq⟩ := hL _ (by
              rw [hvs₁, ParseState.countLr_lrs, ParseState.handLr_lrs, List.append_assoc])
            rw [ParseState.countLr_maxLrSeq, hLeq]
            exact ⟨(@lastOk_step _ _ LrVisit.ret _ _ _ hp).2, rfl⟩)
        refine ⟨x₂, _ :: vs₁, _ :: vs₂, hx₂,
          by rw [hvs₁, ParseState.countLr_lrs, ParseState.handLr_lrs, List.append_assoc]; rfl,
          by rw [hvs₂, ParseState.countLr_lrs, ParseState.handLr_lrs, List.append_assoc]; rfl,
          hagree.cons rfl, fun hok => ?_⟩
        obtain ⟨hvs, hnext⟩ := hexact hok
        exact ⟨by simp [hvs], hnext⟩

end Replay

/-! ## The two block loops -/

/-- What the later parse hands over, `bs₂` and `vs₂`, against what the
claiming parse handed over, `bs₁` and `vs₁`: each call it makes is one the
claiming parse's callbacks accepted, in the same order; and when `E` holds,
it makes all of them and its callbacks accept them. -/
structure Replays (E : Prop) (bs₁ bs₂ : List BlkVisit) (vs₁ vs₂ : List LrVisit) : Prop where
  blks_prefix : bs₂.map BlkVisit.accept <+: bs₁.filter (·.ret = 0)
  lrs_prefix : vs₂.map LrVisit.accept <+: vs₁.filter (·.ret = 0)
  exact : E → bs₂ = bs₁.filter (·.ret = 0) ∧ vs₂ = vs₁.filter (·.ret = 0)

/-- The later parse can read every block the claiming parse could read, and
its callbacks accept every call. -/
def ReplayExact {σ₂ : Type} (read₁ read₂ : ZilBlkptr → Except ℤ Buf)
    (parseBlk₂ : σ₂ → ZilBlkptr → σ₂ × ℤ) (parseLr₂ : σ₂ → Mem → ℤ → σ₂ × ℤ) : Prop :=
  (∀ b d, read₁ b = .ok d → read₂ b = .ok d) ∧ (∀ a b, (parseBlk₂ a b).2 = 0) ∧
    ∀ a m p, (parseLr₂ a m p).2 = 0

section Replays

variable {E : Prop} {b : BlkVisit} {bs₁ bs₂ : List BlkVisit} {vs vs₁ vs₂ : List LrVisit}

/-- A block pointer both parses accepted, and then the records of its block
both accepted, in front of what agrees. -/
theorem Replays.cons (hb : b.ret = 0) (hvs : ∀ v ∈ vs, v.ret = 0) (h : Replays E bs₁ bs₂ vs₁ vs₂) :
    Replays E (b :: bs₁) (b :: bs₂) (vs ++ vs₁) (vs ++ vs₂) := by
  obtain ⟨hbp, hlp, hex⟩ := h
  have hf : vs.filter (·.ret = 0) = vs := List.filter_eq_self.2 (by simpa using hvs)
  have hm : vs.map LrVisit.accept = vs := by
    rw [List.map_congr_left fun v hv => LrVisit.accept_of_ret (hvs v hv)]
    simp
  refine ⟨?_, ?_, fun hE => ?_⟩
  · simpa [hb, BlkVisit.accept_of_ret hb] using hbp
  · rw [List.map_append, hm, List.filter_append, hf]
    exact (List.prefix_append_right_inj vs).2 hlp
  · obtain ⟨h1, h2⟩ := hex hE
    simp [hb, h1, h2, hf]

/-- The later parse stops after its call for the block pointer `b`, which the
claiming parse accepted, having handed over `vs₂` of the records. -/
theorem Replays.single {r : ℤ} (hb : b.ret = 0) (hv : vs₂.map LrVisit.accept <+: vs₁.filter (·.ret = 0))
    (hE : E → r = 0 ∧ bs₁.filter (·.ret = 0) = [] ∧ vs₂ = vs₁.filter (·.ret = 0)) :
    Replays E (b :: bs₁) [{ b with ret := r }] vs₁ vs₂ := by
  cases b
  refine ⟨?_, hv, fun h => ?_⟩
  · simp_all [BlkVisit.accept]
  · obtain ⟨hr, hbs, hvs⟩ := hE h
    simp_all

end Replays

/-- A read that succeeds read the block. -/
theorem zilReadLogBlock_read {h : ByteOrder} {read : ZilBlkptr → Except ℤ Buf} {bp : ZilBlkptr}
    {m : Mem} {x : ZilBlkptr × Mem × ℕ} (hr : zilReadLogBlock h read bp m = .ok x) :
    ∃ d, read bp = .ok d := by
  unfold zilReadLogBlock at hr
  split at hr
  · cases hr
  · exact ⟨_, by assumption⟩

section BlockReplay

variable {σ₁ σ₂ : Type} {h : ByteOrder} {read₁ read₂ : ZilBlkptr → Except ℤ Buf}
  {parseBlk₁ : σ₁ → ZilBlkptr → σ₁ × ℤ} {parseBlk₂ : σ₂ → ZilBlkptr → σ₂ × ℤ}
  {parseLr₁ : σ₁ → Mem → ℤ → σ₁ × ℤ} {parseLr₂ : σ₂ → Mem → ℤ → σ₂ × ℤ} {B L : UInt64}
  {r₁ : ParseState σ₁}

/-- The block loops of the claiming parse (no bounds) and of a later one
(bounds `B` and `L`, where the claiming parse's counters end), from one block
pointer, over a disk that holds the same bytes wherever both can read, whose
blocks' records chain to their end, with sequence numbers that increase. The
later loop ends within the same fuel, and what the two hand over is as
`Replays` says. By induction over the claiming loop: the later one keeps in
step with it, and stops where it does or earlier. -/
theorem zilParseBlocks_replay {fuel : ℕ} {blk : ZilBlkptr} {m₁ m₂ : Mem} {st₁ : ParseState σ₁}
    {st₂ : ParseState σ₂}
    (hr₁ : zilParseBlocks h read₁ parseBlk₁ parseLr₁ uint64Max uint64Max fuel blk m₁ st₁ = some r₁)
    (hdisk : ∀ b d₁ d₂, read₁ b = .ok d₁ → read₂ b = .ok d₂ → d₁ = d₂)
    (hrecs : ∀ b m next m' e, zilReadLogBlock h read₁ b m = .ok (next, m', e) →
      ∃ n, RecordChain h m' e 0 n)
    (hB : B = r₁.maxBlkSeq) (hL : L = r₁.maxLrSeq) (hmax : st₂.maxLrSeq = st₁.maxLrSeq)
    (hpb : ∀ bs₁, r₁.blks = st₁.blks ++ bs₁ → (st₁.maxBlkSeq :: bs₁.map (·.bp.seq)).Pairwise (· < ·))
    (hpl : ∀ vs₁, r₁.lrs = st₁.lrs ++ vs₁ → (st₁.maxLrSeq :: vs₁.map (·.seq)).Pairwise (· < ·)) :
    ∃ r₂ bs₁ bs₂ vs₁ vs₂, zilParseBlocks h read₂ parseBlk₂ parseLr₂ B L fuel blk m₂ st₂ = some r₂ ∧
      r₁.blks = st₁.blks ++ bs₁ ∧ r₂.blks = st₂.blks ++ bs₂ ∧ r₁.lrs = st₁.lrs ++ vs₁ ∧
      r₂.lrs = st₂.lrs ++ vs₂ ∧ Replays (ReplayExact read₁ read₂ parseBlk₂ parseLr₂) bs₁ bs₂ vs₁ vs₂ := by
  induction fuel generalizing blk m₁ m₂ st₁ st₂ with
  | zero => cases hr₁
  | succ fuel ih =>
    by_cases hhole : blk.isHole = true
    · simp only [zilParseBlocks, if_pos hhole] at hr₁ ⊢
      cases hr₁
      exact ⟨st₂, [], [], [], [], rfl, by simp, by simp, by simp, by simp, ⟨by simp, by simp, by simp⟩⟩
    obtain ⟨bs, hbs⟩ :=
      zilParseBlocks_head hr₁ ⟨by simpa using hhole, UInt64.not_lt.1 (not_gt_uint64Max _)⟩
    obtain ⟨⟨bs₁, hbs₁, hmb, -⟩, vs₁, hvs₁, hml, -⟩ := zilParseBlocks_trace hr₁
    obtain rfl : bs₁ = _ := List.append_cancel_left (hbs₁.symm.trans hbs)
    have hp := hpb _ hbs
    have hq := hpl _ hvs₁
    simp only [zilParseBlocks, if_neg hhole, if_neg (not_gt_uint64Max _)] at hr₁
    simp only [zilParseBlocks, if_neg hhole]
    split at hr₁
    · -- the claim callback rejects `blk`: the counter stays below its
      -- sequence number, where the later parse stops
      rename_i hret₁
      cases hr₁
      have hlt : B < blk.seq := by
        rw [hB]
        exact List.rel_of_pairwise_cons hp List.mem_cons_self
      rw [if_pos hlt]
      exact ⟨st₂, [_], [], [], [], rfl, rfl, by simp, by simp, by simp,
        ⟨by simp, by simp, fun _ => by simp [hret₁]⟩⟩
    rename_i hret₁
    have hok₁ : (parseBlk₁ st₁.arg blk).2 = 0 := not_not.1 hret₁
    have hp' : (blk.seq :: bs.map (·.bp.seq)).Pairwise (· < ·) := by
      simpa [hok₁] using (@lastOk_step _ _ BlkVisit.ret _ _ _ hp).2
    have hmb' : r₁.maxBlkSeq = lastOk (·.bp.seq) BlkVisit.ret blk.seq bs := by
      simp [hmb, hok₁]
    have hle : blk.seq ≤ B := by
      rw [hB, hmb]
      exact seq_le_lastOk hp List.mem_cons_self hok₁
    rw [if_neg (UInt64.not_lt.2 hle)]
    split
    · rename_i hret₂
      exact ⟨_, _, [_], vs₁, [], rfl, hbs, rfl, hvs₁, by simp,
        Replays.single hok₁ (by simp) fun hE => absurd (hE.2.1 _ _) hret₂⟩
    rename_i hret₂
    have hok₂ : (parseBlk₂ st₂.arg blk).2 = 0 := not_not.1 hret₂
    simp only [ParseState.countBlk_maxLrSeq, ParseState.handBlk_maxLrSeq,
      ParseState.countBlk_maxBlkSeq] at hr₁ ⊢
    split
    · -- the later parse stops before reading `blk`: the claiming parse's
      -- counters end at `blk` and where they were, so it accepted nothing more
      rename_i hbrk
      have hbs0 : bs.filter (·.ret = 0) = [] :=
        filter_eq_nil_of_lastOk_eq hp' (by rw [← hmb', ← hB, hbrk.2])
      have hvs0 : vs₁.filter (·.ret = 0) = [] :=
        filter_eq_nil_of_lastOk_eq hq (by rw [← hml, ← hL, ← hbrk.1, hmax])
      exact ⟨_, _, [_], vs₁, [], rfl, hbs, rfl, hvs₁, by simp,
        Replays.single hok₁ (by simp) fun _ => ⟨hok₂, hbs0, by simp [hvs0]⟩⟩
    rename_i hnb
    -- where the claiming parse stops at `blk`, the later one breaks there
    have hstop : r₁.maxBlkSeq = blk.seq → r₁.maxLrSeq = st₁.maxLrSeq → False :=
      fun h1 h2 => hnb ⟨by rw [hL, h2, hmax], by rw [hB, h1]⟩
    split at hr₁
    · cases hr₁
      exact absurd (hstop rfl rfl) id
    split at hr₁
    · cases hr₁
      exact absurd (hstop rfl rfl) id
    rename_i next m₁' e hread₁
    obtain ⟨d, hd⟩ := zilReadLogBlock_read hread₁
    obtain ⟨n, hc⟩ := hrecs _ _ _ _ _ hread₁
    rcases @zilReadLogBlock_replay h read₁ read₂ blk next m₁ m₂ m₁' e (hdisk blk) hread₁ with
      ⟨err, herr, hread₂⟩ | ⟨m₂', hread₂, hm⟩
    · rw [hread₂]
      exact ⟨_, _, [_], vs₁, [], rfl, hbs, rfl, hvs₁, by simp,
        Replays.single hok₁ (by simp) fun hE => by simp [hE.1 _ _ hd] at herr⟩
    rw [hread₂]
    dsimp only
    split at hr₁
    · cases hr₁
    · -- the claiming record loop ends the parse in this block
      rename_i s₁ hrec₁
      cases hr₁
      obtain ⟨hblks₁, -, -, vs, hvs, -, -⟩ := zilParseRecords_visit hrec₁
      simp only [RecordsExit.state, ParseState.countBlk_blks, ParseState.handBlk_blks,
        ParseState.countBlk_lrs, ParseState.handBlk_lrs] at hblks₁ hvs
      obtain rfl : vs = vs₁ := List.append_cancel_left (hvs.symm.trans hvs₁)
      obtain ⟨x₂, vs₁', vs₂, hx₂, hvs₁', hvs₂, hagree, hexact⟩ :=
        @zilParseRecords_replay σ₁ σ₂ h parseLr₁ parseLr₂ blk m₁' m₂' e L fuel n 0 _
          ((st₂.handBlk blk (parseBlk₂ st₂.arg blk)).countBlk blk) _ [] hrec₁ hc le_rfl hm
          (by simp [hmax]) (fun _ => rfl) (fun vs' hvs' => by
            simp only [RecordsExit.state, ParseState.countBlk_lrs, ParseState.handBlk_lrs] at hvs'
            obtain rfl := List.append_cancel_left (hvs'.symm.trans hvs₁)
            rw [List.append_nil]
            exact ⟨hq, hL.trans hml⟩)
      simp only [RecordsExit.state, ParseState.countBlk_lrs, ParseState.handBlk_lrs] at hvs₁'
      obtain rfl : vs₁' = vs := List.append_cancel_left (hvs₁'.symm.trans hvs₁)
      cases x₂ with
      | next s₂ => exact absurd hagree id
      | done s₂ =>
        rw [hx₂]
        have hbs0 : bs = [] := by simpa using hbs.symm.trans hblks₁
        exact ⟨s₂, _, [_], vs₁', vs₂, rfl, hbs, (zilParseRecords_visit hx₂).1, hvs₁, hvs₂,
          Replays.single hok₁ hagree fun hE => ⟨hok₂, by simp [hbs0], (hexact hE.2.2).1⟩⟩
    · -- the claiming record loop goes on to `next`, after the records `vs`;
      -- the later parse's records `rest` are those of the blocks from `next`
      rename_i s₁ hrec₁
      obtain ⟨hblks₁, hmb₁, -, vs, hvs, hmaxv, -⟩ := zilParseRecords_visit hrec₁
      simp only [RecordsExit.state, ParseState.countBlk_blks, ParseState.handBlk_blks,
        ParseState.countBlk_lrs, ParseState.handBlk_lrs, ParseState.countBlk_maxBlkSeq,
        ParseState.countBlk_maxLrSeq, ParseState.handBlk_maxLrSeq] at hblks₁ hmb₁ hvs hmaxv
      obtain ⟨-, rest, hrest, -⟩ := zilParseBlocks_trace hr₁
      obtain rfl : vs₁ = vs ++ rest :=
        List.append_cancel_left (hvs₁.symm.trans (by rw [hrest, hvs, List.append_assoc]))
      obtain ⟨x₂, vs₁', vs₂, hx₂, hvs₁', hvs₂, hagree, hexact⟩ :=
        @zilParseRecords_replay σ₁ σ₂ h parseLr₁ parseLr₂ blk m₁' m₂' e L fuel n 0 _
          ((st₂.handBlk blk (parseBlk₂ st₂.arg blk)).countBlk blk) _ rest hrec₁ hc le_rfl hm
          (by simp [hmax]) (by simp [RecordsExit.isNext]) (fun vs' hvs' => by
            simp only [RecordsExit.state, ParseState.countBlk_lrs, ParseState.handBlk_lrs] at hvs'
            obtain rfl := List.append_cancel_left (hvs'.symm.trans hvs)
            exact ⟨hq, hL.trans hml⟩)
      simp only [RecordsExit.state, ParseState.countBlk_lrs, ParseState.handBlk_lrs] at hvs₁'
      obtain rfl : vs = vs₁' := List.append_cancel_left (hvs.symm.trans hvs₁')
      cases x₂ with
      | done s₂ =>
        -- the later record loop ends the parse: it made only calls that the
        -- claiming one accepted, and not all of them
        rw [hx₂]
        refine ⟨s₂, _, [_], _, vs₂, rfl, hbs, (zilParseRecords_visit hx₂).1, hvs₁, hvs₂,
          Replays.single hok₁ ?_ fun hE => absurd (hexact hE.2.2).2 (by simp [RecordsExit.isNext])⟩
        rw [List.filter_append]
        exact hagree.trans (List.prefix_append _ _)
      | next s₂ =>
        -- both go on to `next` in step
        obtain ⟨hvs₂', hmax₂, hall⟩ := hagree
        simp only [RecordsExit.state, ParseState.countBlk_lrs, ParseState.handBlk_lrs] at hvs₂
        rw [hx₂]
        have hpb' : ∀ bs₁, r₁.blks = s₁.blks ++ bs₁ →
            (s₁.maxBlkSeq :: bs₁.map (·.bp.seq)).Pairwise (· < ·) := fun bs₁ hbs₁ => by
          rw [hblks₁, List.append_assoc] at hbs₁
          obtain rfl : bs₁ = bs := by simpa using List.append_cancel_left (hbs₁.symm.trans hbs)
          rwa [hmb₁]
        have hpl' : ∀ vs₁, r₁.lrs = s₁.lrs ++ vs₁ →
            (s₁.maxLrSeq :: vs₁.map (·.seq)).Pairwise (· < ·) := fun vs₁ hvs₁ => by
          obtain rfl := List.append_cancel_left (hvs₁.symm.trans hrest)
          rw [hmaxv]
          exact pairwise_lastOk hq
        obtain ⟨r₂, cs₁, cs₂, ws₁, ws₂, hr₂, hc₁, hc₂, hw₁, hw₂, hrep⟩ :=
          @ih next m₁' m₂' s₁ s₂ hr₁ hmax₂ hpb' hpl'
        have hblks₂ := (zilParseRecords_visit hx₂).1
        simp only [RecordsExit.state, ParseState.countBlk_blks, ParseState.handBlk_blks] at hblks₂
        refine ⟨r₂, ⟨blk, 0⟩ :: cs₁, ⟨blk, 0⟩ :: cs₂, vs ++ ws₁, vs ++ ws₂, hr₂, ?_, ?_, ?_, ?_,
          hrep.cons rfl hall⟩
        · rw [hc₁, hblks₁, hok₁]
          simp
        · rw [hc₂, hblks₂, hok₂]
          simp
        · rw [hw₁, hvs, List.append_assoc]
        · rw [hw₂, hvs₂, hvs₂', List.append_assoc]

/-- `zil_claim` on an unclaimed log, and a later parse of the claimed log
(replay or destroy, on the same log after a reboot) with other callbacks and
a disk that holds the same bytes where both can read. The log is as the writer
lays it out: the records of each block the claim can read chain to its end,
and the block and record sequence numbers the claim sees increase from 1.
Then the later parse ends within the same fuel, each call it makes is one the
claim accepted, in order, all of them when it can read every block the claim
could and its callbacks accept every call; and it hands over no block pointer
past `zh_claim_blk_seq` and no record past `zh_claim_lr_seq`. -/
theorem zil_claim_replay_agree {zh : ZilHeader} {firstTxg : UInt64} {m₁ m₂ : Mem} {arg₁ : σ₁}
    {arg₂ : σ₂} {fuel : ℕ} (hz : zh.claimTxg = 0) (hlog : zh.log.isHole = false)
    (hft : firstTxg ≠ 0) (hr₁ : zilParse h read₁ parseBlk₁ parseLr₁ zh m₁ arg₁ fuel = some r₁)
    (hdisk : ∀ b d₁ d₂, read₁ b = .ok d₁ → read₂ b = .ok d₂ → d₁ = d₂)
    (hrecs : ∀ b m next m' e, zilReadLogBlock h read₁ b m = .ok (next, m', e) →
      ∃ n, RecordChain h m' e 0 n)
    (hpb : (0 :: r₁.blks.map (·.bp.seq)).Pairwise (· < ·))
    (hpl : (0 :: r₁.lrs.map (·.seq)).Pairwise (· < ·)) :
    zilClaim h read₁ parseBlk₁ parseLr₁ zh m₁ arg₁ firstTxg fuel =
        some (zilClaimHeader zh firstTxg r₁) ∧
      ∃ r₂, zilParse h read₂ parseBlk₂ parseLr₂ (zilClaimHeader zh firstTxg r₁) m₂ arg₂ fuel = some r₂ ∧
        Replays (ReplayExact read₁ read₂ parseBlk₂ parseLr₂) r₁.blks r₂.blks r₁.lrs r₂.lrs ∧
        (∀ b ∈ r₂.blks, b.bp.seq ≤ (zilClaimHeader zh firstTxg r₁).claimBlkSeq) ∧
        ∀ v ∈ r₂.lrs, v.seq ≤ (zilClaimHeader zh firstTxg r₁).claimLrSeq := by
  refine ⟨by simp [zilClaim, hz, hlog, hr₁], ?_⟩
  have hseqs : claimSeqs (zilClaimHeader zh firstTxg r₁) = (r₁.maxBlkSeq, r₁.maxLrSeq) :=
    claimSeqs_zilClaimHeader hft
  rw [zilParse, claimSeqs_unclaimed hz] at hr₁
  obtain ⟨r₂, bs₁, bs₂, vs₁, vs₂, hr₂, hb₁, hb₂, hv₁, hv₂, hrep⟩ :=
    @zilParseBlocks_replay σ₁ σ₂ h read₁ read₂ parseBlk₁ parseBlk₂ parseLr₁ parseLr₂ r₁.maxBlkSeq
      r₁.maxLrSeq r₁ fuel zh.log m₁ m₂ _ (.init arg₂) hr₁ hdisk hrecs rfl rfl rfl
      (fun bs hbs => by
        obtain rfl : r₁.blks = bs := by simpa [ParseState.init] using hbs
        exact hpb)
      (fun vs hvs => by
        obtain rfl : r₁.lrs = vs := by simpa [ParseState.init] using hvs
        exact hpl)
  have hr₂' : zilParse h read₂ parseBlk₂ parseLr₂ (zilClaimHeader zh firstTxg r₁) m₂ arg₂ fuel =
      some r₂ := by
    rw [zilParse, hseqs]
    exact hr₂
  obtain ⟨-, hbnd, hlnd⟩ := zilParse_trace hr₂'
  simp only [ParseState.init, List.nil_append] at hb₁ hb₂ hv₁ hv₂
  subst hb₁ hb₂ hv₁ hv₂
  refine ⟨r₂, hr₂', hrep, fun b hb => ?_, fun v hv => ?_⟩
  · have hle := hbnd b hb
    rw [hseqs] at hle
    exact hle
  · have hle := (hlnd v hv).2.1
    rw [hseqs] at hle
    exact hle

end BlockReplay

/-- The bytes of `escBlk` for the runs below: the chain header of `escData`
with `zc_nused` 248, so that two 32-byte records follow it, with `lrc_seq`
`s₁` and `s₂`. -/
def twoData (s₁ s₂ : UInt8) : Buf := fun i =>
  if i = 88 then 1 else if i = 128 then 2 else if i = 136 then 248 else
  if i = 192 ∨ i = 224 then 32 else if i = 208 then s₁ else if i = 240 then s₂ else 0

/-- Reading `escBlk` gives `twoData s₁ s₂`; every other block is unreadable. -/
def twoRead (s₁ s₂ : UInt8) (bp : ZilBlkptr) : Except ℤ Buf :=
  if bp = escBlk then .ok (twoData s₁ s₂) else .error ecksum

/-- The block pointer `twoData` names as the next block. -/
def twoNext : ZilBlkptr := ⟨[0, 0, 0, 0, 0, 0], 0, 1, ⟨0, 0, 0, 2⟩⟩

/-- The two records of `twoData 1 2` chain to the end of the block, whatever
`lrbuf` held before. -/
theorem twoRead_chain (b : ZilBlkptr) (m : Mem) {next : ZilBlkptr} {m' : Mem} {e : ℕ}
    (hr : zilReadLogBlock little (twoRead 1 2) b m = .ok (next, m', e)) :
    ∃ n, RecordChain little m' e 0 n := by
  by_cases hb : b = escBlk
  · subst hb
    have hread : zilReadLogBlock little (twoRead 1 2) escBlk m =
        .ok (blkptrAt little (twoData 1 2) 8, copyIn m (twoData 1 2) 184 64, 64) := rfl
    rw [hread] at hr
    cases hr
    -- the records read what `twoData` holds, whatever `m` was
    have hm : ∀ a : ℤ, 0 ≤ a → a < ((64 : ℕ) : ℤ) →
        copyIn m (twoData 1 2) 184 64 a = copyIn (fun _ => 0) (twoData 1 2) 184 64 a :=
      fun a h0 ha => copyIn_congr _ _ _ _ _ h0 ha
    have h0 : lrcReclen little (copyIn m (twoData 1 2) 184 64) 0 = 32 := by
      rw [lrcReclen, lrcWord_congr (by decide) (by decide) hm]
      decide
    have h32 : lrcReclen little (copyIn m (twoData 1 2) 184 64) 32 = 32 := by
      rw [lrcReclen, lrcWord_congr (by decide) (by decide) hm]
      decide
    refine ⟨2, .cons (by rw [h0]; decide) (by rw [h0]; decide) ?_⟩
    rw [h0, zero_add]
    refine .cons (by rw [h32]; decide) (by rw [h32]; decide) ?_
    rw [h32]
    exact .done
  · simp [zilReadLogBlock, twoRead, hb] at hr

/-- The claim of a log of `escBlk`, whose next block is unreadable, with
records 1 and 2 and callbacks that accept every call, and a later parse of
the same disk. -/
theorem zil_claim_replay_agree_two :
    let r₁ : ParseState Unit := ⟨(), ecksum, 2, 2, 2, 2, [⟨escBlk, 0⟩, ⟨twoNext, 0⟩],
      [⟨escBlk, 0, 32, 1, 64, 0⟩, ⟨escBlk, 32, 32, 2, 64, 0⟩]⟩
    zilClaim little (twoRead 1 2) (fun a _ => (a, 0)) (fun a _ _ => (a, 0)) ⟨0, escBlk, 0, 0, 0⟩
        (fun _ => 0) () 1 4 = some (zilClaimHeader ⟨0, escBlk, 0, 0, 0⟩ 1 r₁) ∧
      ∃ r₂, zilParse little (twoRead 1 2) (fun a _ => (a, 0)) (fun a _ _ => (a, 0))
          (zilClaimHeader ⟨0, escBlk, 0, 0, 0⟩ 1 r₁) (fun _ => 0) () 4 = some r₂ ∧
        Replays (ReplayExact (twoRead 1 2) (twoRead 1 2) (fun (a : Unit) _ => (a, 0))
          (fun a _ _ => (a, 0))) r₁.blks r₂.blks r₁.lrs r₂.lrs ∧
        (∀ b ∈ r₂.blks, b.bp.seq ≤ (zilClaimHeader ⟨0, escBlk, 0, 0, 0⟩ 1 r₁).claimBlkSeq) ∧
        ∀ v ∈ r₂.lrs, v.seq ≤ (zilClaimHeader ⟨0, escBlk, 0, 0, 0⟩ 1 r₁).claimLrSeq := by
  exact zil_claim_replay_agree rfl rfl (by decide) (by decide)
    (fun _ _ _ h₁ h₂ => Except.ok.inj (h₁.symm.trans h₂)) (fun b m _ _ _ => twoRead_chain b m)
    (by decide) (by decide)

/-- The same log with the records' `lrc_seq` 2 and then 1: the claim accepts
both and records the last, 1, as `zh_claim_lr_seq`. The later parse reads the
same disk with callbacks that accept every call, so `ReplayExact` holds; it
stops at the first record, whose `lrc_seq` is past 1, and hands over one block
pointer and no record, where the claim accepted two of each. -/
theorem zil_claim_replay_misorder :
    let r₁ : ParseState Unit := ⟨(), ecksum, 2, 1, 2, 2, [⟨escBlk, 0⟩, ⟨twoNext, 0⟩],
      [⟨escBlk, 0, 32, 2, 64, 0⟩, ⟨escBlk, 32, 32, 1, 64, 0⟩]⟩
    ReplayExact (twoRead 2 1) (twoRead 2 1) (fun (a : Unit) _ => (a, 0)) (fun a _ _ => (a, 0)) ∧
      zilParse little (twoRead 2 1) (fun a _ => (a, 0)) (fun a _ _ => (a, 0)) ⟨0, escBlk, 0, 0, 0⟩
        (fun _ => 0) () 4 = some r₁ ∧
      zilClaim little (twoRead 2 1) (fun a _ => (a, 0)) (fun a _ _ => (a, 0)) ⟨0, escBlk, 0, 0, 0⟩
        (fun _ => 0) () 1 4 = some (zilClaimHeader ⟨0, escBlk, 0, 0, 0⟩ 1 r₁) ∧
      zilParse little (twoRead 2 1) (fun a _ => (a, 0)) (fun a _ _ => (a, 0))
        (zilClaimHeader ⟨0, escBlk, 0, 0, 0⟩ 1 r₁) (fun _ => 0) () 4 =
          some ⟨(), 0, 1, 0, 1, 0, [⟨escBlk, 0⟩], []⟩ :=
  ⟨⟨fun _ _ h => h, fun _ _ => rfl, fun _ _ _ => rfl⟩, by decide, by decide, by decide⟩

end ZfsOsx.Zil
