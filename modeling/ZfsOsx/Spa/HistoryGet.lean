import Mathlib
import ZfsOsx.Spa.History
/-!
# Reading the pool history back (`spa_history_get`)

`spa_history_get` reads the history from the logical offset `*offp` into a
buffer of `*len` bytes: the `zpool create` record below
`sh_pool_create_len`, then the window of the ring from `sh_bof`, in two
`dmu_read`s where it crosses the end of the ring (`leftover`). An offset in
the ring that has since been overwritten starts again at `sh_bof`. The
caller passes back the offset it got, as `zpool history` does through
`ZFS_IOC_POOL_GET_HISTORY`, which refuses a buffer of size 0.

A reader stands at an offset of the create record or of the window
(`ReaderOff`), which is a position of `History.stream` (`streamPos`).

* `spaHistoryGetRange_of_le`, `spaHistoryGet_of_le`: from an offset of the
  window, a call reads the next `min len (sh_eof - off)` bytes of it.
* `spaHistoryGet_spec`: a call returns the next bytes of the stream and moves
  the reader past them.
* `spaHistoryGetAll_models`: calls with buffers of positive size read a
  prefix of the stream; with more calls than bytes, the whole stream, and
  the last call reads nothing.
-/
namespace ZfsOsx.Spa

/-- The bookkeeping of `spa_history_get` (spa_history.c:373-410): the offset
it reads from, `phys_read_off`, `read_len` and `leftover`. -/
def spaHistoryGetRange (shpp : SpaHistoryPhys) (offp len : ℕ) : ℕ × ℕ × ℕ × ℕ :=
  let physEof := spaHistoryLogToPhys shpp.shEof shpp
  if offp < shpp.shPoolCreateLen then
    -- just the `zpool create` record
    (offp, offp, min len (shpp.shPoolCreateLen - offp), 0)
  else
    -- an offset that has since been overwritten starts again at `sh_bof`
    let offp := max offp shpp.shBof
    let physReadOff := spaHistoryLogToPhys offp shpp
    if physReadOff ≤ physEof then (offp, physReadOff, min len (physEof - physReadOff), 0)
    else
      let readLen := min len (shpp.shPhysMaxOff - physReadOff)
      -- past the physical end, `leftover` bytes from the start of the ring
      (offp, physReadOff, readLen,
        if shpp.shPhysMaxOff < physReadOff + len then
          min (len - readLen) (physEof - shpp.shPoolCreateLen)
        else 0)

/-- `spa_history_get` (spa_history.c:336-421): the next offset `*offp`, the
length `*len` read, and the bytes read into `buf`. -/
def spaHistoryGet (obj : HistoryObj) (offp len : ℕ) : ℕ × ℕ × List UInt8 :=
  let (offp, physReadOff, readLen, leftover) := spaHistoryGetRange obj.sh offp len
  (offp + readLen + leftover, readLen + leftover,
    if readLen = 0 then []
    else Buffer.read obj.data physReadOff readLen ++
      if leftover ≠ 0 then Buffer.read obj.data obj.sh.shPoolCreateLen leftover else [])

/-- Calls of `spa_history_get` with buffers of the sizes `lens`, each from
the offset the call before returned: the bytes each call read. -/
def spaHistoryGetAll (obj : HistoryObj) : ℕ → List ℕ → List (List UInt8)
  | _, [] => []
  | offp, len :: lens =>
    (spaHistoryGet obj offp len).2.2 :: spaHistoryGetAll obj (spaHistoryGet obj offp len).1 lens

/-- The offsets a reader holds: in the create record, or in the window of
the ring. -/
def ReaderOff (shpp : SpaHistoryPhys) (off : ℕ) : Prop :=
  off ≤ shpp.shPoolCreateLen ∨ shpp.shBof ≤ off ∧ off ≤ shpp.shEof

/-- Where in `History.stream` a reader at offset `off` stands. -/
def streamPos (shpp : SpaHistoryPhys) (off : ℕ) : ℕ :=
  if off < shpp.shPoolCreateLen then off
  else shpp.shPoolCreateLen + (max off shpp.shBof - shpp.shBof)

/-- `zpool history` starts at offset 0, the start of the stream. -/
theorem streamPos_zero (shpp : SpaHistoryPhys) : streamPos shpp 0 = 0 := by
  unfold streamPos
  split_ifs with h
  · rfl
  · rw [Nat.zero_max, Nat.sub_self]
    omega

section Range

variable {shpp : SpaHistoryPhys} {off len : ℕ}

theorem spaHistoryGetRange_of_lt (hoff : off < shpp.shPoolCreateLen) :
    spaHistoryGetRange shpp off len = (off, off, min len (shpp.shPoolCreateLen - off), 0) := by
  simp only [spaHistoryGetRange, if_pos hoff]

/-- From an offset `o` of the window, `phys_read_off` is its slot `p`, and
`read_len` and `leftover` split the `min len (sh_eof - o)` bytes to read at
the end of the ring. -/
theorem spaHistoryGetRange_of_le {o p : ℕ} (ho : max off shpp.shBof = o)
    (hp : spaHistoryLogToPhys o shpp = p) (hc : shpp.shPoolCreateLen ≤ off)
    (hbof : shpp.shPoolCreateLen ≤ shpp.shBof) (heof : o ≤ shpp.shEof)
    (hwin : shpp.shEof - shpp.shBof < shpp.ringLen) :
    spaHistoryGetRange shpp off len =
      (o, p, min (min len (shpp.shEof - o)) (shpp.shPoolCreateLen + shpp.ringLen - p),
        min len (shpp.shEof - o) -
          min (min len (shpp.shEof - o)) (shpp.shPoolCreateLen + shpp.ringLen - p)) := by
  have hL : 0 < shpp.ringLen := by omega
  have hmax : shpp.shPoolCreateLen + shpp.ringLen = shpp.shPhysMaxOff := by
    unfold SpaHistoryPhys.ringLen at hL ⊢
    omega
  have hob : shpp.shPoolCreateLen ≤ o := ho ▸ le_trans hbof (le_max_right _ _)
  have hbo : shpp.shBof ≤ o := ho ▸ le_max_right _ _
  have hpl : p < shpp.shPoolCreateLen + shpp.ringLen := hp ▸ Ring.slot_lt hL
  have hpb : shpp.shPoolCreateLen ≤ p := hp ▸ Ring.le_slot
  -- `sh_eof` is `d < ring` bytes past `o`: its slot is `p + d`, or `p + d - ring` past the end
  have hq : (p + (shpp.shEof - o) < shpp.shPoolCreateLen + shpp.ringLen ∧
        spaHistoryLogToPhys shpp.shEof shpp = p + (shpp.shEof - o)) ∨
      (shpp.shPoolCreateLen + shpp.ringLen ≤ p + (shpp.shEof - o) ∧
        spaHistoryLogToPhys shpp.shEof shpp = p + (shpp.shEof - o) - shpp.ringLen) := by
    have heq : spaHistoryLogToPhys shpp.shEof shpp =
        Ring.slot shpp.shPoolCreateLen shpp.ringLen (o + (shpp.shEof - o)) := by
      rw [Nat.add_sub_cancel' heof]
      rfl
    rw [heq, ← hp, spaHistoryLogToPhys_eq_slot]
    by_cases hw : Ring.slot shpp.shPoolCreateLen shpp.ringLen o + (shpp.shEof - o) <
      shpp.shPoolCreateLen + shpp.ringLen
    · exact Or.inl ⟨hw, Ring.slot_add hob hw⟩
    · exact Or.inr ⟨by omega, Ring.slot_add_of_le hob hL (by omega) (by omega)⟩
  have hd : shpp.shEof - o < shpp.ringLen := by omega
  unfold spaHistoryGetRange
  rw [if_neg (Nat.not_lt.2 hc)]
  dsimp only
  rw [ho, hp, ← hmax]
  generalize spaHistoryLogToPhys shpp.shEof shpp = q at hq ⊢
  -- what is left is arithmetic on `p`, `q` and `sh_eof - o`
  clear ho hp hc hbof hwin hmax hob hbo
  split_ifs with h₁ h₂
  · -- the window from `o` does not cross the end of the ring
    simp only [Prod.mk.injEq, true_and]
    omega
  · -- it does, and the buffer reaches past the end
    simp only [Prod.mk.injEq, true_and]
    omega
  · -- it does, and the buffer ends before the end of the ring
    simp only [Prod.mk.injEq, true_and]
    omega

end Range

section Get

variable {obj : HistoryObj} {h : History} {off len : ℕ}

theorem spaHistoryGet_of_lt (hoff : off < obj.sh.shPoolCreateLen) :
    spaHistoryGet obj off len =
      (off + min len (obj.sh.shPoolCreateLen - off), min len (obj.sh.shPoolCreateLen - off),
        Buffer.read obj.data off (min len (obj.sh.shPoolCreateLen - off))) := by
  unfold spaHistoryGet
  rw [spaHistoryGetRange_of_lt hoff]
  dsimp only
  simp only [Nat.add_zero, ne_eq, not_true_eq_false, if_false, List.append_nil]
  split_ifs with h0
  · rw [h0, Buffer.read_zero]
  · rfl

/-- From an offset of the window, a call reads the next
`min len (sh_eof - off)` bytes of it. -/
theorem spaHistoryGet_of_le (hc : obj.sh.shPoolCreateLen ≤ off)
    (hbof : obj.sh.shPoolCreateLen ≤ obj.sh.shBof) (heof : max off obj.sh.shBof ≤ obj.sh.shEof)
    (hwin : obj.sh.shEof - obj.sh.shBof < obj.sh.ringLen) :
    spaHistoryGet obj off len =
      (max off obj.sh.shBof + min len (obj.sh.shEof - max off obj.sh.shBof),
        min len (obj.sh.shEof - max off obj.sh.shBof),
        Ring.read obj.data obj.sh.shPoolCreateLen obj.sh.ringLen (max off obj.sh.shBof)
          (min len (obj.sh.shEof - max off obj.sh.shBof))) := by
  have hL : 0 < obj.sh.ringLen := by omega
  have hob : obj.sh.shPoolCreateLen ≤ max off obj.sh.shBof := le_trans hbof (le_max_right _ _)
  have hpl : spaHistoryLogToPhys (max off obj.sh.shBof) obj.sh <
      obj.sh.shPoolCreateLen + obj.sh.ringLen := Ring.slot_lt hL
  unfold spaHistoryGet
  rw [spaHistoryGetRange_of_le rfl rfl hc hbof heof hwin]
  dsimp only
  rw [Ring.read_split hob hL (by omega), ← spaHistoryLogToPhys_eq_slot]
  -- `read_len` and `leftover` are the two parts of the split read
  generalize hn : min len (obj.sh.shEof - max off obj.sh.shBof) = n at *
  generalize ha : min n (obj.sh.shPoolCreateLen + obj.sh.ringLen -
    spaHistoryLogToPhys (max off obj.sh.shBof) obj.sh) = a
  simp only [Prod.mk.injEq]
  refine ⟨by omega, by omega, ?_⟩
  by_cases h0 : a = 0
  · rw [if_pos h0, h0, show n - 0 = 0 by omega, Buffer.read_zero, Buffer.read_zero, List.append_nil]
  · rw [if_neg h0]
    by_cases hb : n - a = 0
    · rw [hb, Buffer.read_zero]
      simp
    · rw [if_pos hb]

/-- The stream is the create record, then `sh_eof - sh_bof` bytes. -/
theorem Models.length_stream (hm : Models obj h) :
    h.stream.length = obj.sh.shPoolCreateLen + (obj.sh.shEof - obj.sh.shBof) := by
  have := hm.eof_eq
  simp only [List.append_nil] at this
  rw [History.stream, List.length_append, ← hm.createLen]
  omega

/-- A call returns the next `k` bytes of the stream from where the reader
stands, at least one while there are any and the buffer is not empty, and
moves the reader past them. -/
theorem spaHistoryGet_spec (hm : Models obj h) (hoff : ReaderOff obj.sh off) :
    ∃ k, (spaHistoryGet obj off len).2.1 = k ∧
      (spaHistoryGet obj off len).2.2 = (h.stream.drop (streamPos obj.sh off)).take k ∧
      streamPos obj.sh off + k ≤ h.stream.length ∧
      (0 < len → streamPos obj.sh off < h.stream.length → 0 < k) ∧
      ReaderOff obj.sh (spaHistoryGet obj off len).1 ∧
      streamPos obj.sh (spaHistoryGet obj off len).1 = streamPos obj.sh off + k := by
  have hlen := hm.length_stream
  have hbof := hm.bof_ge
  have hwin := hm.fits
  have heof := hm.eof_eq
  simp only [List.append_nil] at hwin heof
  by_cases hc : off < obj.sh.shPoolCreateLen
  · -- in the create record
    have hdata : Buffer.read obj.data off (min len (obj.sh.shPoolCreateLen - off)) =
        (h.create.drop off).take (min len (obj.sh.shPoolCreateLen - off)) := by
      have := Buffer.read_eq_take_drop (m := obj.data) (s := 0)
        (b := min len (obj.sh.shPoolCreateLen - off))
        (show off + _ ≤ obj.sh.shPoolCreateLen by omega)
      rwa [Nat.zero_add, hm.createData] at this
    rw [spaHistoryGet_of_lt hc]
    dsimp only
    refine ⟨_, rfl, ?_, ?_, ?_, ?_, ?_⟩
    · rw [hdata, streamPos, if_pos hc, History.stream,
        List.drop_append_of_le_length (by rw [← hm.createLen]; omega),
        List.take_append_of_le_length (by rw [List.length_drop, ← hm.createLen]; omega)]
    · rw [streamPos, if_pos hc]
      omega
    · rw [streamPos, if_pos hc]
      omega
    · exact Or.inl (by omega)
    · rw [streamPos, streamPos, if_pos hc]
      split_ifs
      · rfl
      · rw [max_eq_right (by omega)]
        omega
  · -- in the window, from `sh_bof` on where the reader's offset was overwritten
    have ho : obj.sh.shBof ≤ max off obj.sh.shBof ∧ max off obj.sh.shBof ≤ obj.sh.shEof := by
      rcases hoff with h' | h' <;> constructor <;> simp only [le_max_iff, max_le_iff] <;> omega
    have hdata : Ring.read obj.data obj.sh.shPoolCreateLen obj.sh.ringLen (max off obj.sh.shBof)
          (min len (obj.sh.shEof - max off obj.sh.shBof)) =
        ((recordBytes h.live).drop (max off obj.sh.shBof - obj.sh.shBof)).take
          (min len (obj.sh.shEof - max off obj.sh.shBof)) := by
      have hlive := hm.liveData
      rw [List.append_nil] at hlive
      have := @Ring.read_eq_take_drop _ obj.data obj.sh.shPoolCreateLen obj.sh.ringLen obj.sh.shBof
        (recordBytes h.live).length (max off obj.sh.shBof - obj.sh.shBof)
        (min len (obj.sh.shEof - max off obj.sh.shBof)) (by omega)
      rwa [Nat.add_sub_cancel' ho.1, hlive] at this
    rw [spaHistoryGet_of_le (Nat.not_lt.1 hc) hbof ho.2 (by omega)]
    dsimp only
    refine ⟨_, rfl, ?_, ?_, ?_, ?_, ?_⟩
    · rw [hdata, streamPos, if_neg hc, History.stream, hm.createLen, List.drop_append,
        List.drop_of_length_le (l := h.create) (by omega), List.nil_append, Nat.add_sub_cancel_left]
    · rw [streamPos, if_neg hc]
      omega
    · rw [streamPos, if_neg hc]
      omega
    · exact Or.inr ⟨by omega, by omega⟩
    · rw [streamPos, streamPos, if_neg hc, if_neg (by omega), max_eq_left (by omega)]
      omega


/-- Calls with buffers of positive sizes read a prefix of the stream from
where the reader stands; with more calls than bytes left, all of it, and
the last call reads nothing. -/
theorem spaHistoryGetAll_models (hm : Models obj h) {lens : List ℕ} (hlens : ∀ n ∈ lens, 0 < n)
    (hoff : ReaderOff obj.sh off) :
    (spaHistoryGetAll obj off lens).flatten <+: h.stream.drop (streamPos obj.sh off) ∧
      (h.stream.length - streamPos obj.sh off < lens.length →
        (spaHistoryGetAll obj off lens).flatten = h.stream.drop (streamPos obj.sh off) ∧
          (spaHistoryGetAll obj off lens).getLast? = some []) := by
  induction lens generalizing off with
  | nil => simp [spaHistoryGetAll]
  | cons len lens ih =>
    obtain ⟨k, hk, hbuf, hle, hpos, hoff', hpos'⟩ := @spaHistoryGet_spec obj h off len hm hoff
    obtain ⟨ihp, ihall⟩ := ih (fun n hn => hlens n (List.mem_cons_of_mem len hn)) hoff'
    rw [hpos', ← List.drop_drop] at ihp ihall
    -- the bytes of this call, then those of the others
    have hsplit := List.take_append_drop k (h.stream.drop (streamPos obj.sh off))
    simp only [spaHistoryGetAll, List.flatten_cons, hbuf]
    refine ⟨?_, fun hmore => ?_⟩
    · have := (List.prefix_append_right_inj ((h.stream.drop (streamPos obj.sh off)).take k)).2 ihp
      rwa [hsplit] at this
    · simp only [List.length_cons] at hmore
      rcases lens with _ | ⟨len', lens'⟩
      · -- the last call: the reader stood at the end already
        have hnil : h.stream.drop (streamPos obj.sh off) = [] := List.drop_of_length_le (by
          rw [List.length_nil] at hmore
          omega)
        simp [spaHistoryGetAll, hnil]
      · -- a call before the end reads at least one byte, so the others reach it too
        have hrest : h.stream.length - (streamPos obj.sh off + k) < (len' :: lens').length := by
          have hstep := hpos (hlens len List.mem_cons_self)
          simp only [List.length_cons] at hmore ⊢
          by_cases hend : streamPos obj.sh off < h.stream.length
          · have := hstep hend
            omega
          · omega
        obtain ⟨hflat, hlast⟩ := ihall hrest
        refine ⟨by rw [hflat, List.take_append_drop], ?_⟩
        rw [List.getLast?_cons, hlast]
        rfl

end Get

/-! ## Logging and reading back -/

/-- A pool's history: the `zpool create` record and then any records up to
the size of the ring after it. The ring from `sh_bof` to `sh_eof` holds the
newest records, whole, and fewer bytes than the ring; the create record
stays at the start of the object; `sh_records_lost` counts the others; and
`zpool history`, reading from offset 0 with buffers of any positive sizes,
gets the create record, then the live records, then nothing. -/
theorem spa_history_log_ring (dspace : ℕ) (c : List UInt8)
    (recs : List (HistoryLogType × List UInt8))
    (hc : (encodeRecord c).length < (spaHistoryCreateObj dspace).sh.shPhysMaxOff)
    (hrecs : ∀ r ∈ recs, r.1 ≠ .cmdPoolCreate ∧
      (encodeRecord r.2).length < (spaHistoryCreateObj dspace).sh.shPhysMaxOff - (encodeRecord c).length) :
    ∃ obj₁ obj, spaHistoryLogSync dspace none .cmdPoolCreate c = some obj₁ ∧
      spaHistoryLogAll dspace obj₁ recs = some obj ∧
      ∃ live, live <:+ recs.map Prod.snd ∧
        Ring.read obj.data obj.sh.shPoolCreateLen obj.sh.ringLen obj.sh.shBof
          (obj.sh.shEof - obj.sh.shBof) = recordBytes live ∧
        obj.sh.shBof ≤ obj.sh.shEof ∧ obj.sh.shEof - obj.sh.shBof < obj.sh.ringLen ∧
        Buffer.read obj.data 0 obj.sh.shPoolCreateLen = encodeRecord c ∧
        obj.sh.shRecordsLost + live.length = recs.length ∧
        ∀ lens : List ℕ, (∀ n ∈ lens, 0 < n) →
          (spaHistoryGetAll obj 0 lens).flatten <+: encodeRecord c ++ recordBytes live ∧
          ((encodeRecord c ++ recordBytes live).length < lens.length →
            (spaHistoryGetAll obj 0 lens).flatten = encodeRecord c ++ recordBytes live ∧
            (spaHistoryGetAll obj 0 lens).getLast? = some []) := by
  obtain ⟨obj₁, h₁, hmax₁, hm₁⟩ :=
    spaHistoryLogSync_create dspace (spaHistoryCreateObj_models dspace) rfl
      (by rwa [length_encodeRecord] at hc)
  -- the ring after the create record is the one the records are measured against
  have hring : obj₁.sh.ringLen =
      (spaHistoryCreateObj dspace).sh.shPhysMaxOff - (encodeRecord c).length := by
    unfold SpaHistoryPhys.ringLen
    rw [hmax₁, hm₁.createLen]
    rfl
  obtain ⟨obj, h₂, -, hm⟩ := spaHistoryLogAll_models dspace hm₁
    fun r hr => ⟨(hrecs r hr).1, by rw [hring, ← length_encodeRecord]; exact (hrecs r hr).2⟩
  set H := (recs.map Prod.snd).foldl (History.log obj₁.sh.ringLen) (History.created c) with hH
  have hcreate : H.create = encodeRecord c := History.foldl_log_create
  have hsuf : H.live <:+ [] ++ recs.map Prod.snd := History.foldl_log_live_suffix
  have hlost : H.lost + H.live.length = 0 + 0 + (recs.map Prod.snd).length :=
    History.foldl_log_lost_add_length
  have heof := hm.eof_eq
  have hfits := hm.fits
  have hlive := hm.liveData
  simp only [List.append_nil] at heof hfits hlive
  rw [List.nil_append] at hsuf
  rw [List.length_map, Nat.zero_add] at hlost
  have hstream : H.stream = encodeRecord c ++ recordBytes H.live := by
    rw [History.stream, hcreate]
  refine ⟨obj₁, obj, h₁, h₂, H.live, ?_, ?_, by omega, by omega, ?_, ?_, fun lens hlens => ?_⟩
  · exact hsuf
  · rw [show obj.sh.shEof - obj.sh.shBof = (recordBytes H.live).length by omega, hlive]
  · rw [hm.createData, hcreate]
  · rw [hm.recordsLost, hlost]
  · have hread := spaHistoryGetAll_models hm hlens
      (Or.inl (Nat.zero_le _) : ReaderOff obj.sh 0)
    rwa [streamPos_zero, List.drop_zero, hstream] at hread

/-- A new pool with an empty create record and one more record. -/
theorem spa_history_log_ring_one_record :
    (encodeRecord []).length < (spaHistoryCreateObj 0).sh.shPhysMaxOff ∧
    (∀ r ∈ [(HistoryLogType.cmdNormal, [7])], r.1 ≠ .cmdPoolCreate ∧
      (encodeRecord r.2).length < (spaHistoryCreateObj 0).sh.shPhysMaxOff - (encodeRecord []).length) ∧
    ∃ obj₁ obj, spaHistoryLogSync 0 none .cmdPoolCreate [] = some obj₁ ∧
      spaHistoryLogAll 0 obj₁ [(HistoryLogType.cmdNormal, [7])] = some obj ∧
      ∃ live, live <:+ [(HistoryLogType.cmdNormal, [7])].map Prod.snd ∧
        Ring.read obj.data obj.sh.shPoolCreateLen obj.sh.ringLen obj.sh.shBof
          (obj.sh.shEof - obj.sh.shBof) = recordBytes live ∧
        obj.sh.shBof ≤ obj.sh.shEof ∧ obj.sh.shEof - obj.sh.shBof < obj.sh.ringLen ∧
        Buffer.read obj.data 0 obj.sh.shPoolCreateLen = encodeRecord [] ∧
        obj.sh.shRecordsLost + live.length = [(HistoryLogType.cmdNormal, [7])].length ∧
        ∀ lens : List ℕ, (∀ n ∈ lens, 0 < n) →
          (spaHistoryGetAll obj 0 lens).flatten <+: encodeRecord [] ++ recordBytes live ∧
          ((encodeRecord [] ++ recordBytes live).length < lens.length →
            (spaHistoryGetAll obj 0 lens).flatten = encodeRecord [] ++ recordBytes live ∧
            (spaHistoryGetAll obj 0 lens).getLast? = some []) := by
  have hc : (encodeRecord []).length < (spaHistoryCreateObj 0).sh.shPhysMaxOff := by decide
  have hrecs : ∀ r ∈ [(HistoryLogType.cmdNormal, [(7 : UInt8)])], r.1 ≠ .cmdPoolCreate ∧
      (encodeRecord r.2).length < (spaHistoryCreateObj 0).sh.shPhysMaxOff - (encodeRecord []).length := by
    decide
  exact ⟨hc, hrecs, spa_history_log_ring 0 [] _ hc hrecs⟩

/-- With a buffer of size 0 a call reads nothing, before the create record
as anywhere else, so sizes of 0 would never read the history. -/
theorem spa_history_get_empty_buffer :
    ∃ obj, spaHistoryLogSync 0 none .cmdPoolCreate [] = some obj ∧ Models obj (History.created []) ∧
      (History.created []).stream ≠ [] ∧ spaHistoryGetAll obj 0 [0] = [[]] := by
  obtain ⟨obj, h₁, -, hm⟩ :=
    spaHistoryLogSync_create 0 (r := []) (spaHistoryCreateObj_models 0) rfl (by decide)
  have hc : 0 < obj.sh.shPoolCreateLen := by
    rw [hm.createLen]
    simp [History.created]
  refine ⟨obj, h₁, hm, fun h => by simpa [History.stream, History.created] using congrArg List.length h, ?_⟩
  simp [spaHistoryGetAll, spaHistoryGet_of_lt hc]

end ZfsOsx.Spa
