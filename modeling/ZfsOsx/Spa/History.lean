import Mathlib
import ZfsOsx.Lib.Endian
import ZfsOsx.Lib.Ring
/-!
# Pool command history (`spa_history.c`)

The history of a pool is a DMU object of `<length, record>` pairs, the length
an 8-byte little-endian word and the record a packed nvlist. The object is a
ring: the `zpool create` record sits in `[0, sh_pool_create_len)` for good,
and the other records follow in the `sh_phys_max_off - sh_pool_create_len`
bytes after it, at the physical offsets `spa_history_log_to_phys` gives the
logical offsets `[sh_bof, sh_eof)`. Writing a record that does not fit
drops the oldest ones (`spa_history_advance_bof`) and counts them in
`sh_records_lost`.

The object's bytes are a function `ℕ → UInt8`, a `dmu_write` a
`Buffer.copy` and a `dmu_read` a `Buffer.read`; DMU reads do not fail. The
packed nvlist of a record is its bytes, whatever they say. The offsets are
`uint64_t`; in every state reached below `sh_bof ≤ sh_eof` and
`sh_eof - sh_bof` is less than the ring, so no subtraction of the source
wraps, and they are modelled as `ℕ`.

What the history is for is `History`: the create record, the records still
in the ring, oldest first, and how many were dropped. `History.log` keeps
the newest records that fit with the new one (`makeRoom`, and
`length_le_makeRoom`: no longer run of the newest records would).

* `Layout`: the object holds a history, and possibly the start of the
  record being written.
* `spaHistoryAdvanceBof_layout`, `spaHistoryWriteLoop_layout`,
  `spaHistoryWrite_layout`: one dropped record, the loop that makes room,
  one `spa_history_write`.
* `spaHistoryLogSync_create`, `spaHistoryLogSync_models`: a record logged
  by `spa_history_log_sync` is the abstract `History.created` or
  `History.log`; `spaHistoryLogAll_models`: so is a whole run.
-/
namespace ZfsOsx.Spa

open Endian Endian.ByteOrder

/-! ## The history the log is meant to keep -/

/-- A history record as the log stores it: its length as an 8-byte
little-endian word, then the packed record. -/
@[grind] def encodeRecord (r : List UInt8) : List UInt8 :=
  Buffer.read (byte little 8 r.length) 0 8 ++ r

/-- The bytes of a run of records. -/
def recordBytes (rs : List (List UInt8)) : List UInt8 :=
  rs.flatMap encodeRecord

/-- The records left when the oldest ones are dropped until `need` more
bytes fit in a ring of `ringLen` bytes, and how many were dropped. -/
def makeRoom (ringLen need : ℕ) : List (List UInt8) → List (List UInt8) × ℕ
  | [] => ([], 0)
  | r :: rs =>
    if (recordBytes (r :: rs)).length + need < ringLen then (r :: rs, 0)
    else ((makeRoom ringLen need rs).1, (makeRoom ringLen need rs).2 + 1)

/-- What the pool history holds: the `zpool create` record, kept for good,
the records still in the ring, oldest first, and how many were dropped. -/
structure History where
  create : List UInt8
  live : List (List UInt8)
  lost : ℕ

namespace History

/-- The bytes a reader gets: the create record, then the live records. -/
@[grind] def stream (h : History) : List UInt8 := h.create ++ recordBytes h.live

/-- The history of a new pool. -/
def created (r : List UInt8) : History := ⟨encodeRecord r, [], 0⟩

/-- A record logged into a ring of `ringLen` bytes: the oldest records make
room for it. -/
def log (ringLen : ℕ) (h : History) (r : List UInt8) : History :=
  ⟨h.create, (makeRoom ringLen (encodeRecord r).length h.live).1 ++ [r],
    h.lost + (makeRoom ringLen (encodeRecord r).length h.live).2⟩

end History

section Records

variable {r : List UInt8} {rs rs' : List (List UInt8)}

@[simp] theorem length_encodeRecord : (encodeRecord r).length = 8 + r.length := by
  simp [encodeRecord]

@[simp] theorem recordBytes_nil : recordBytes [] = [] := rfl

@[simp] theorem recordBytes_cons : recordBytes (r :: rs) = encodeRecord r ++ recordBytes rs := rfl

@[simp] theorem recordBytes_append : recordBytes (rs ++ rs') = recordBytes rs ++ recordBytes rs' := by
  simp [recordBytes]

/-- Every record takes at least its 8-byte length. -/
theorem length_le_recordBytes : rs.length ≤ (recordBytes rs).length := by
  induction rs with
  | nil => simp
  | cons r rs ih =>
    simp only [recordBytes_cons, List.length_append, length_encodeRecord, List.length_cons]
    omega

end Records

section MakeRoom

variable {L need need' : ℕ} {r : List UInt8} {rs rs' : List (List UInt8)}

@[simp] theorem makeRoom_nil : makeRoom L need [] = ([], 0) := rfl

theorem makeRoom_cons_of_lt (h : (recordBytes (r :: rs)).length + need < L) :
    makeRoom L need (r :: rs) = (r :: rs, 0) := by
  simp only [makeRoom, if_pos h]

theorem makeRoom_cons_of_le (h : L ≤ (recordBytes (r :: rs)).length + need) :
    makeRoom L need (r :: rs) = ((makeRoom L need rs).1, (makeRoom L need rs).2 + 1) := by
  simp only [makeRoom, if_neg (Nat.not_lt.2 h)]

/-- The records kept are the newest ones. -/
theorem makeRoom_suffix : (makeRoom L need rs).1 <:+ rs := by
  induction rs with
  | nil => simp
  | cons r rs ih =>
    by_cases h : (recordBytes (r :: rs)).length + need < L
    · rw [makeRoom_cons_of_lt h]
    · rw [makeRoom_cons_of_le (by omega)]
      exact ih.trans (List.suffix_cons r rs)

/-- The records dropped are counted. -/
theorem length_makeRoom : (makeRoom L need rs).1.length + (makeRoom L need rs).2 = rs.length := by
  induction rs with
  | nil => simp
  | cons r rs ih =>
    by_cases h : (recordBytes (r :: rs)).length + need < L
    · simp [makeRoom_cons_of_lt h]
    · rw [makeRoom_cons_of_le (by omega), List.length_cons]
      dsimp only
      omega

/-- What is kept leaves room for `need` bytes. -/
theorem makeRoom_fits (h : need < L) : (recordBytes (makeRoom L need rs).1).length + need < L := by
  induction rs with
  | nil => simpa using h
  | cons r rs ih =>
    by_cases hf : (recordBytes (r :: rs)).length + need < L
    · rwa [makeRoom_cons_of_lt hf]
    · rwa [makeRoom_cons_of_le (by omega)]

/-- No longer run of the newest records leaves room for `need` bytes. -/
theorem length_le_makeRoom (hs : rs' <:+ rs) (hfit : (recordBytes rs').length + need < L) :
    rs'.length ≤ (makeRoom L need rs).1.length := by
  induction rs with
  | nil => simp [List.suffix_nil.1 hs]
  | cons r rs ih =>
    by_cases hf : (recordBytes (r :: rs)).length + need < L
    · rw [makeRoom_cons_of_lt hf]
      exact hs.length_le
    · rw [makeRoom_cons_of_le (by omega)]
      rcases List.suffix_cons_iff.1 hs with rfl | hs
      · exact absurd hfit hf
      · exact ih hs

/-- Making room for `need` bytes and then for `need' ≥ need` is making room
for `need'`. -/
theorem makeRoom_makeRoom (h : need ≤ need') :
    (makeRoom L need' (makeRoom L need rs).1).1 = (makeRoom L need' rs).1 ∧
      (makeRoom L need rs).2 + (makeRoom L need' (makeRoom L need rs).1).2 =
        (makeRoom L need' rs).2 := by
  induction rs with
  | nil => simp
  | cons r rs ih =>
    by_cases hf : (recordBytes (r :: rs)).length + need < L
    · rw [makeRoom_cons_of_lt hf, Nat.zero_add]
      exact ⟨rfl, rfl⟩
    · have hf' : L ≤ (recordBytes (r :: rs)).length + need' := by omega
      rw [makeRoom_cons_of_le (by omega), makeRoom_cons_of_le hf']
      dsimp only
      exact ⟨ih.1, by omega⟩

end MakeRoom

namespace History

variable {L : ℕ} {h : History} {rs : List (List UInt8)}

/-- The live records of a run are the newest of all the records logged. -/
theorem foldl_log_live_suffix : (rs.foldl (log L) h).live <:+ h.live ++ rs := by
  induction rs generalizing h with
  | nil => simp
  | cons r rs ih =>
    refine ih.trans ?_
    obtain ⟨t, ht⟩ : (makeRoom L (encodeRecord r).length h.live).1 <:+ h.live := makeRoom_suffix
    refine ⟨t, ?_⟩
    rw [← ht]
    simp [log]

/-- Every record logged is live or counted as lost. -/
theorem foldl_log_lost_add_length :
    (rs.foldl (log L) h).lost + (rs.foldl (log L) h).live.length =
      h.lost + h.live.length + rs.length := by
  induction rs generalizing h with
  | nil => simp
  | cons r rs ih =>
    have hm : (makeRoom L (encodeRecord r).length h.live).1.length +
        (makeRoom L (encodeRecord r).length h.live).2 = h.live.length := length_makeRoom
    rw [List.foldl_cons, ih]
    simp only [log, List.length_append, List.length_cons, List.length_nil]
    omega

@[simp] theorem foldl_log_create : (rs.foldl (log L) h).create = h.create := by
  induction rs generalizing h with
  | nil => rfl
  | cons r rs ih => exact ih

end History

/-! ## The history object -/

/-- `spa_history_phys_t` (spa_impl.h:51-58), the bonus buffer of the history
object. -/
structure SpaHistoryPhys where
  shPoolCreateLen : ℕ
  shPhysMaxOff : ℕ
  shBof : ℕ
  shEof : ℕ
  shRecordsLost : ℕ
  deriving DecidableEq, Repr

/-- The history object: its bonus buffer and its bytes. -/
structure HistoryObj where
  sh : SpaHistoryPhys
  data : ℕ → UInt8

/-- `history_log_type_t` (spa.h:637-641). -/
inductive HistoryLogType
  | cmdPoolCreate
  | cmdNormal
  | internal
  deriving DecidableEq, Repr

/-- The length of the ring, after the create record. -/
def SpaHistoryPhys.ringLen (shpp : SpaHistoryPhys) : ℕ :=
  shpp.shPhysMaxOff - shpp.shPoolCreateLen

/-- `spa_history_log_to_phys` (spa_history.c:70-79). -/
def spaHistoryLogToPhys (logOff : ℕ) (shpp : SpaHistoryPhys) : ℕ :=
  let physLen := shpp.shPhysMaxOff - shpp.shPoolCreateLen
  (logOff - shpp.shPoolCreateLen) % physLen + shpp.shPoolCreateLen

theorem spaHistoryLogToPhys_eq_slot (logOff : ℕ) (shpp : SpaHistoryPhys) :
    spaHistoryLogToPhys logOff shpp = Ring.slot shpp.shPoolCreateLen shpp.ringLen logOff := rfl

/-- `spa_history_create_obj` (spa_history.c:81-111): the ring takes 0.1% of
the pool's normal space `dspace`, at least 128K and at most 1G; the bonus
buffer of a new object is zeroed. -/
def spaHistoryCreateObj (dspace : ℕ) : HistoryObj :=
  ⟨⟨0, max (min (dspace / 1000) (1 <<< 30)) (128 <<< 10), 0, 0, 0⟩, fun _ => 0⟩

/-- The 8 bytes at `sh_bof` as `spa_history_advance_bof` reads them into
`buf` (spa_history.c:124-137): up to the end of the ring, the rest from its
start. -/
def spaHistoryBofBuf (obj : HistoryObj) : ℕ → UInt8 :=
  let shpp := obj.sh
  let physBof := spaHistoryLogToPhys shpp.shBof shpp
  let firstread := min 8 (shpp.shPhysMaxOff - physBof)
  let buf := Buffer.copy (fun _ => 0) obj.data 0 physBof firstread
  if firstread ≠ 8 then Buffer.copy buf obj.data firstread shpp.shPoolCreateLen (8 - firstread)
  else buf

/-- `spa_history_advance_bof` (spa_history.c:116-144): the length of the
record at `sh_bof` moves `sh_bof` past that record. -/
def spaHistoryAdvanceBof (obj : HistoryObj) : HistoryObj :=
  let shpp := obj.sh
  -- `LE_64` of the word read: its bytes are little-endian
  let reclen := load little (spaHistoryBofBuf obj) 0 8
  ⟨{ shpp with shBof := shpp.shBof + reclen + 8, shRecordsLost := shpp.shRecordsLost + 1 },
    obj.data⟩

/-- The loop of `spa_history_write` that drops records until `len` bytes
fit (spa_history_write.c:157-163). The C loop has no bound: `fuel` counts
its passes, and running out of it stands for a loop that does not stop. -/
def spaHistoryWriteLoop (len : ℕ) : ℕ → HistoryObj → Option HistoryObj
  | 0, _ => none
  | fuel + 1, obj =>
    if obj.sh.shPhysMaxOff - obj.sh.shPoolCreateLen - (obj.sh.shEof - obj.sh.shBof) ≤ len then
      spaHistoryWriteLoop len fuel (spaHistoryAdvanceBof obj)
    else some obj

/-- `spa_history_write` (spa_history.c:146-178). Each pass of the loop moves
`sh_bof` by at least 8 bytes, so `sh_eof - sh_bof + 1` passes take it past
`sh_eof`, which no history allows. -/
def spaHistoryWrite (buf : ℕ → UInt8) (len : ℕ) (obj : HistoryObj) : Option HistoryObj := do
  let obj ← spaHistoryWriteLoop len (obj.sh.shEof - obj.sh.shBof + 1) obj
  let shpp := obj.sh
  let physEof := spaHistoryLogToPhys shpp.shEof shpp
  let firstwrite := min len (shpp.shPhysMaxOff - physEof)
  let data := Buffer.copy obj.data buf physEof 0 firstwrite
  -- the rest at the beginning of the ring
  let data :=
    if 0 < len - firstwrite then Buffer.copy data buf shpp.shPoolCreateLen firstwrite (len - firstwrite)
    else data
  some ⟨{ shpp with shEof := shpp.shEof + len }, data⟩

/-- `spa_history_log_sync` (spa_history.c:196-300) for a record whose packed
nvlist is `record`: an older pool gets its history object first, and a
`zpool create` record becomes the part of the log that is never
overwritten. `none` is a failed `VERIFY` or a write that does not stop. -/
def spaHistoryLogSync (dspace : ℕ) (history : Option HistoryObj) (logType : HistoryLogType)
    (record : List UInt8) : Option HistoryObj := do
  let obj := history.getD (spaHistoryCreateObj dspace)
  let reclen := record.length
  if logType = .cmdPoolCreate ∧ obj.sh.shEof ≠ obj.sh.shPoolCreateLen then none
  else
    -- the packed length as little endian, then the record
    let obj ← spaHistoryWrite (byte little 8 reclen) 8 obj
    let obj ← spaHistoryWrite (fun i => record.getD i 0) reclen obj
    if logType = .cmdPoolCreate then
      let createLen := obj.sh.shPoolCreateLen + 8 + reclen
      some ⟨{ obj.sh with shPoolCreateLen := createLen, shBof := createLen }, obj.data⟩
    else some obj

/-- Records logged one after another into an existing history object. -/
def spaHistoryLogAll (dspace : ℕ) (obj : HistoryObj) :
    List (HistoryLogType × List UInt8) → Option HistoryObj
  | [] => some obj
  | r :: rs => (spaHistoryLogSync dspace (some obj) r.1 r.2).bind fun obj => spaHistoryLogAll dspace obj rs

section Fields

variable (obj : HistoryObj)

@[simp] theorem spaHistoryAdvanceBof_data : (spaHistoryAdvanceBof obj).data = obj.data := rfl

@[simp] theorem spaHistoryAdvanceBof_shPoolCreateLen :
    (spaHistoryAdvanceBof obj).sh.shPoolCreateLen = obj.sh.shPoolCreateLen := rfl

@[simp] theorem spaHistoryAdvanceBof_shPhysMaxOff :
    (spaHistoryAdvanceBof obj).sh.shPhysMaxOff = obj.sh.shPhysMaxOff := rfl

@[simp] theorem spaHistoryAdvanceBof_shEof : (spaHistoryAdvanceBof obj).sh.shEof = obj.sh.shEof := rfl

@[simp] theorem spaHistoryAdvanceBof_ringLen : (spaHistoryAdvanceBof obj).sh.ringLen = obj.sh.ringLen := rfl

@[simp] theorem spaHistoryAdvanceBof_shRecordsLost :
    (spaHistoryAdvanceBof obj).sh.shRecordsLost = obj.sh.shRecordsLost + 1 := rfl

end Fields

/-! ## The layout of the object -/

/-- The history object holds `create` in its first `sh_pool_create_len`
bytes and, in its ring from `sh_bof` to `sh_eof`, the records `recs`
followed by `tail`, the start of a record being written; `lost` records
were dropped. -/
structure Layout (obj : HistoryObj) (create : List UInt8) (recs : List (List UInt8))
    (tail : List UInt8) (lost : ℕ) : Prop where
  createLen : obj.sh.shPoolCreateLen = create.length
  maxOff_lt : obj.sh.shPhysMaxOff < 2 ^ 64
  bof_ge : obj.sh.shPoolCreateLen ≤ obj.sh.shBof
  eof_eq : obj.sh.shEof = obj.sh.shBof + (recordBytes recs ++ tail).length
  fits : (recordBytes recs ++ tail).length < obj.sh.ringLen
  createData : Buffer.read obj.data 0 obj.sh.shPoolCreateLen = create
  liveData : Ring.read obj.data obj.sh.shPoolCreateLen obj.sh.ringLen obj.sh.shBof
    (recordBytes recs ++ tail).length = recordBytes recs ++ tail
  recordsLost : obj.sh.shRecordsLost = lost

/-- The object holds the history `h`, with no record half written. -/
def Models (obj : HistoryObj) (h : History) : Prop :=
  Layout obj h.create h.live [] h.lost

section Layout

variable {obj : HistoryObj} {c r tail tail' : List UInt8} {recs recs' : List (List UInt8)}
  {lost n : ℕ}

/-- A layout depends on the bytes of the window only. -/
theorem Layout.of_bytes (hl : Layout obj c recs tail lost)
    (h : recordBytes recs ++ tail = recordBytes recs' ++ tail') : Layout obj c recs' tail' lost where
  createLen := hl.createLen
  maxOff_lt := hl.maxOff_lt
  bof_ge := hl.bof_ge
  eof_eq := h ▸ hl.eof_eq
  fits := h ▸ hl.fits
  createData := hl.createData
  liveData := h ▸ hl.liveData
  recordsLost := hl.recordsLost

theorem Layout.createLen_lt (hl : Layout obj c recs tail lost) :
    obj.sh.shPoolCreateLen < obj.sh.shPhysMaxOff := by
  have := hl.fits
  unfold SpaHistoryPhys.ringLen at this
  omega

/-- The ring ends at `sh_phys_max_off`. -/
theorem Layout.maxOff_eq (hl : Layout obj c recs tail lost) :
    obj.sh.shPoolCreateLen + obj.sh.ringLen = obj.sh.shPhysMaxOff := by
  have := hl.createLen_lt
  unfold SpaHistoryPhys.ringLen
  omega

theorem Layout.data_slot (hl : Layout obj c recs tail lost) {k : ℕ}
    (hk : k < (recordBytes recs ++ tail).length) :
    obj.data (Ring.slot obj.sh.shPoolCreateLen obj.sh.ringLen (obj.sh.shBof + k)) =
      (recordBytes recs ++ tail)[k] := by
  have h := List.getElem_of_eq hl.liveData (by simpa using hk)
  rwa [Ring.getElem_read] at h

/-- Two objects that hold one create record and end their rings at one
offset have one ring. -/
theorem Layout.ringLen_eq {obj' : HistoryObj} {recs'' : List (List UInt8)} {tail'' : List UInt8}
    {lost' : ℕ} (hl : Layout obj c recs tail lost) (hl' : Layout obj' c recs'' tail'' lost')
    (hmax : obj'.sh.shPhysMaxOff = obj.sh.shPhysMaxOff) : obj'.sh.ringLen = obj.sh.ringLen := by
  unfold SpaHistoryPhys.ringLen
  rw [hmax, hl.createLen, hl'.createLen]

end Layout

/-! ## Dropping the oldest record -/

section Advance

variable {obj : HistoryObj} {c r tail : List UInt8} {rs : List (List UInt8)} {lost : ℕ}

/-- `buf` holds the first 8 bytes of the window. -/
theorem spaHistoryBofBuf_apply (hl : Layout obj c (r :: rs) tail lost) {k : ℕ} (hk : k < 8) :
    spaHistoryBofBuf obj k =
      obj.data (Ring.slot obj.sh.shPoolCreateLen obj.sh.ringLen (obj.sh.shBof + k)) := by
  have hL : 8 < obj.sh.ringLen := by
    have := hl.fits
    simp only [recordBytes_cons, List.length_append, length_encodeRecord] at this
    omega
  have hp : Ring.slot obj.sh.shPoolCreateLen obj.sh.ringLen obj.sh.shBof <
      obj.sh.shPoolCreateLen + obj.sh.ringLen := Ring.slot_lt (by omega)
  have hb : obj.sh.shPoolCreateLen ≤ Ring.slot obj.sh.shPoolCreateLen obj.sh.ringLen obj.sh.shBof :=
    Ring.le_slot
  have hmax := hl.maxOff_eq
  unfold spaHistoryBofBuf
  rw [spaHistoryLogToPhys_eq_slot]
  by_cases hw : Ring.slot obj.sh.shPoolCreateLen obj.sh.ringLen obj.sh.shBof + k <
    obj.sh.shPoolCreateLen + obj.sh.ringLen
  · -- before the end of the ring: the first read
    rw [Ring.slot_add hl.bof_ge hw]
    split_ifs
    · simp only [Buffer.copy]
      rw [if_neg (by omega), if_pos ⟨Nat.zero_le _, by omega⟩, Nat.sub_zero]
    · simp only [Buffer.copy]
      rw [if_pos ⟨Nat.zero_le _, by omega⟩, Nat.sub_zero]
  · -- past the end: the second read, from the start of the ring
    rw [Ring.slot_add_of_le hl.bof_ge (by omega) (by omega) (by omega), if_pos (by omega)]
    simp only [Buffer.copy]
    rw [if_pos ⟨by omega, by omega⟩]
    congr 1
    omega

/-- The length `spa_history_advance_bof` reads is that of the oldest record. -/
theorem spaHistoryAdvanceBof_reclen (hl : Layout obj c (r :: rs) tail lost) :
    load little (spaHistoryBofBuf obj) 0 8 = r.length := by
  have hlen : r.length < 256 ^ 8 := by
    have hfits := hl.fits
    have hmax := hl.maxOff_lt
    simp only [recordBytes_cons, List.length_append, length_encodeRecord] at hfits
    unfold SpaHistoryPhys.ringLen at hfits
    norm_num
    omega
  rw [load_of_byte (v := r.length), Nat.mod_eq_of_lt hlen]
  intro k hk
  have hw : recordBytes (r :: rs) ++ tail = encodeRecord r ++ (recordBytes rs ++ tail) := by simp
  rw [Nat.zero_add, spaHistoryBofBuf_apply hl hk, hl.data_slot (by simp; omega)]
  simp only [hw, encodeRecord, List.append_assoc]
  rw [List.getElem_append_left (by simp; omega), Buffer.getElem_read, Nat.zero_add]

theorem spaHistoryAdvanceBof_shBof (hl : Layout obj c (r :: rs) tail lost) :
    (spaHistoryAdvanceBof obj).sh.shBof = obj.sh.shBof + (encodeRecord r).length := by
  simp only [spaHistoryAdvanceBof, spaHistoryAdvanceBof_reclen hl, length_encodeRecord]
  omega

/-- Dropping the oldest record keeps the layout of the others. -/
theorem spaHistoryAdvanceBof_layout (hl : Layout obj c (r :: rs) tail lost) :
    Layout (spaHistoryAdvanceBof obj) c rs tail (lost + 1) := by
  have hbof := spaHistoryAdvanceBof_shBof hl
  have hw : recordBytes (r :: rs) ++ tail = encodeRecord r ++ (recordBytes rs ++ tail) := by simp
  -- the window from the new `sh_bof` is the old one without its first record
  have hsplit := hl.liveData
  rw [hw, List.length_append, Ring.read_add] at hsplit
  obtain ⟨-, hrest⟩ := List.append_inj hsplit (by simp)
  have hfits := hl.fits
  have heof := hl.eof_eq
  rw [hw, List.length_append] at hfits heof
  exact {
    createLen := hl.createLen
    maxOff_lt := hl.maxOff_lt
    bof_ge := by
      rw [hbof]
      have := hl.bof_ge
      simp only [spaHistoryAdvanceBof_shPoolCreateLen]
      omega
    eof_eq := by
      rw [hbof, spaHistoryAdvanceBof_shEof, heof]
      omega
    fits := by
      rw [spaHistoryAdvanceBof_ringLen]
      omega
    createData := hl.createData
    liveData := by
      rw [hbof]
      exact hrest
    recordsLost := by
      rw [spaHistoryAdvanceBof_shRecordsLost, hl.recordsLost] }

end Advance

/-! ## Writing -/

section Write

variable {obj : HistoryObj} {c tail : List UInt8} {recs : List (List UInt8)} {lost n : ℕ}

/-- The test of the loop: the window and `len` more bytes fill the ring. -/
theorem loop_test_iff (hl : Layout obj c recs tail lost) :
    obj.sh.shPhysMaxOff - obj.sh.shPoolCreateLen - (obj.sh.shEof - obj.sh.shBof) ≤ n ↔
      obj.sh.ringLen ≤ (recordBytes recs ++ tail).length + n := by
  have := hl.eof_eq
  unfold SpaHistoryPhys.ringLen
  omega

/-- The loop of `spa_history_write` drops the oldest records until `n` bytes
fit behind `tail`, within one pass a record. -/
theorem spaHistoryWriteLoop_layout (hl : Layout obj c recs tail lost)
    (hn : tail.length + n < obj.sh.ringLen) {fuel : ℕ} (hfuel : recs.length < fuel) :
    ∃ obj', spaHistoryWriteLoop n fuel obj = some obj' ∧ obj'.data = obj.data ∧
      obj'.sh.shPhysMaxOff = obj.sh.shPhysMaxOff ∧ obj'.sh.shEof = obj.sh.shEof ∧
      Layout obj' c (makeRoom obj.sh.ringLen (tail.length + n) recs).1 tail
        (lost + (makeRoom obj.sh.ringLen (tail.length + n) recs).2) := by
  obtain ⟨fuel, rfl⟩ : ∃ f, fuel = f + 1 := ⟨fuel - 1, by omega⟩
  induction recs generalizing obj fuel lost with
  | nil =>
    have hstop := mt (loop_test_iff (n := n) hl).1 (by simpa using hn.not_ge)
    refine ⟨obj, by rw [spaHistoryWriteLoop, if_neg hstop], rfl, rfl, rfl, ?_⟩
    simpa using hl
  | cons r rs ih =>
    by_cases hf : (recordBytes (r :: rs)).length + (tail.length + n) < obj.sh.ringLen
    · -- room already: the loop stops at once
      have hstop := mt (loop_test_iff (n := n) hl).1 (by rw [List.length_append]; omega)
      refine ⟨obj, by rw [spaHistoryWriteLoop, if_neg hstop], rfl, rfl, rfl, ?_⟩
      rw [makeRoom_cons_of_lt hf]
      simpa using hl
    · -- the oldest record goes, and the loop goes on
      have hgo := (loop_test_iff (n := n) hl).2 (by rw [List.length_append]; omega)
      obtain ⟨fuel, rfl⟩ : ∃ f, fuel = f + 1 := ⟨fuel - 1, by simp at hfuel; omega⟩
      obtain ⟨obj', hrun, hdata, hmax, heof, hl'⟩ :=
        ih (spaHistoryAdvanceBof_layout hl) (by simpa using hn) fuel (by simp at hfuel; omega)
      refine ⟨obj', by rw [spaHistoryWriteLoop, if_pos hgo, hrun], hdata, hmax, heof, ?_⟩
      rw [makeRoom_cons_of_le (by omega)]
      rw [spaHistoryAdvanceBof_ringLen] at hl'
      dsimp only
      convert hl' using 1
      omega

/-- After its loop, `spa_history_write` is a `Ring.write` of the `n` bytes at
`sh_eof`, which then moves past them. -/
theorem spaHistoryWrite_spec (buf : ℕ → UInt8) {obj₁ : HistoryObj}
    (h : spaHistoryWriteLoop n (obj.sh.shEof - obj.sh.shBof + 1) obj = some obj₁)
    (hc : obj₁.sh.shPoolCreateLen ≤ obj₁.sh.shPhysMaxOff) :
    ∃ obj', spaHistoryWrite buf n obj = some obj' ∧
      obj'.sh.shPoolCreateLen = obj₁.sh.shPoolCreateLen ∧
      obj'.sh.shPhysMaxOff = obj₁.sh.shPhysMaxOff ∧ obj'.sh.shBof = obj₁.sh.shBof ∧
      obj'.sh.shEof = obj₁.sh.shEof + n ∧ obj'.sh.shRecordsLost = obj₁.sh.shRecordsLost ∧
      obj'.data = Ring.write obj₁.data buf obj₁.sh.shPoolCreateLen obj₁.sh.ringLen obj₁.sh.shEof 0 n := by
  refine ⟨⟨{ obj₁.sh with shEof := obj₁.sh.shEof + n },
    Ring.write obj₁.data buf obj₁.sh.shPoolCreateLen obj₁.sh.ringLen obj₁.sh.shEof 0 n⟩,
    ?_, rfl, rfl, rfl, rfl, rfl, rfl⟩
  have hmax : obj₁.sh.shPoolCreateLen + obj₁.sh.ringLen = obj₁.sh.shPhysMaxOff := by
    unfold SpaHistoryPhys.ringLen
    omega
  rw [spaHistoryWrite, h]
  show some _ = some _
  congr 2
  simp only [Ring.write]
  rw [hmax, Nat.zero_add, spaHistoryLogToPhys_eq_slot]
  split_ifs with hr
  · rfl
  · rw [Nat.eq_zero_of_not_pos hr, Buffer.copy_zero]

/-- `spa_history_write` appends the `n` bytes of `buf` behind `tail`, once
the oldest records that leave no room for them are dropped. -/
theorem spaHistoryWrite_layout (buf : ℕ → UInt8) (hl : Layout obj c recs tail lost)
    (hn : tail.length + n < obj.sh.ringLen) :
    ∃ obj', spaHistoryWrite buf n obj = some obj' ∧ obj'.sh.shPhysMaxOff = obj.sh.shPhysMaxOff ∧
      obj'.sh.shEof = obj.sh.shEof + n ∧
      Layout obj' c (makeRoom obj.sh.ringLen (tail.length + n) recs).1 (tail ++ Buffer.read buf 0 n)
        (lost + (makeRoom obj.sh.ringLen (tail.length + n) recs).2) := by
  have hfuel : recs.length < obj.sh.shEof - obj.sh.shBof + 1 := by
    have hrecs : recs.length ≤ (recordBytes recs).length := length_le_recordBytes
    have := hl.eof_eq
    rw [List.length_append] at this
    omega
  obtain ⟨obj₁, hloop, -, hmax₁, heof₁, hl₁⟩ := spaHistoryWriteLoop_layout hl hn hfuel
  obtain ⟨obj', hw, hc', hmax', hbof', heof', hlost', hdata'⟩ :=
    spaHistoryWrite_spec buf hloop hl₁.createLen_lt.le
  have hring₁ : obj₁.sh.ringLen = obj.sh.ringLen := hl.ringLen_eq hl₁ hmax₁
  have hring' : obj'.sh.ringLen = obj₁.sh.ringLen := by
    unfold SpaHistoryPhys.ringLen
    rw [hc', hmax']
  refine ⟨obj', hw, hmax'.trans hmax₁, by rw [heof', heof₁], ?_⟩
  rw [← hring₁] at hn hl₁ ⊢
  -- the window before the write, then the bytes written
  have hfit : (recordBytes (makeRoom obj₁.sh.ringLen (tail.length + n) recs).1).length +
      (tail.length + n) < obj₁.sh.ringLen := makeRoom_fits hn
  have hwin := hl₁.eof_eq
  rw [List.length_append] at hwin
  have hlen : (recordBytes (makeRoom obj₁.sh.ringLen (tail.length + n) recs).1 ++
      (tail ++ Buffer.read buf 0 n)).length = obj₁.sh.shEof - obj₁.sh.shBof + n := by
    simp only [List.length_append, Buffer.length_read]
    omega
  exact {
    createLen := hc'.trans hl₁.createLen
    maxOff_lt := hmax' ▸ hl₁.maxOff_lt
    bof_ge := hc' ▸ hbof' ▸ hl₁.bof_ge
    eof_eq := by
      rw [hlen, heof', hbof']
      omega
    fits := by
      rw [hlen, hring']
      omega
    createData := by
      rw [hdata', hc', Ring.block_write_of_le (by omega)]
      exact hl₁.createData
    liveData := by
      rw [hlen, hdata', hc', hring', hbof',
        Ring.read_write_append hl₁.bof_ge (by omega) (by omega) (by omega),
        show obj₁.sh.shEof - obj₁.sh.shBof = (recordBytes
          (makeRoom obj₁.sh.ringLen (tail.length + n) recs).1 ++ tail).length by
          rw [List.length_append]; omega,
        hl₁.liveData, List.append_assoc]
    recordsLost := hlost'.trans hl₁.recordsLost }

end Write

/-! ## Logging records -/

section LogSync

variable {obj : HistoryObj} {h : History} {c r : List UInt8} {recs : List (List UInt8)} {lost : ℕ}

/-- The two writes of `spa_history_log_sync`, the length and then the
record, append the record whole. -/
theorem spaHistoryLogSync_writes (hl : Layout obj c recs [] lost) (hr : 8 + r.length < obj.sh.ringLen) :
    ∃ obj₁ obj₂, spaHistoryWrite (byte little 8 r.length) 8 obj = some obj₁ ∧
      spaHistoryWrite (fun i => r.getD i 0) r.length obj₁ = some obj₂ ∧
      obj₂.sh.shPhysMaxOff = obj.sh.shPhysMaxOff ∧
      obj₂.sh.shEof = obj.sh.shEof + (encodeRecord r).length ∧
      Layout obj₂ c ((makeRoom obj.sh.ringLen (encodeRecord r).length recs).1 ++ [r]) []
        (lost + (makeRoom obj.sh.ringLen (encodeRecord r).length recs).2) := by
  have hn₁ : ([] : List UInt8).length + 8 < obj.sh.ringLen := by
    simp only [List.length_nil]
    omega
  obtain ⟨obj₁, h₁, hmax₁, heof₁, hl₁⟩ := spaHistoryWrite_layout (byte little 8 r.length) hl hn₁
  have hring₁ := hl.ringLen_eq hl₁ hmax₁
  have hn₂ : ([] ++ Buffer.read (byte little 8 r.length) 0 8).length + r.length < obj₁.sh.ringLen := by
    simp only [List.length_append, List.length_nil, Buffer.length_read, hring₁]
    omega
  obtain ⟨obj₂, h₂, hmax₂, heof₂, hl₂⟩ := spaHistoryWrite_layout (fun i => r.getD i 0) hl₁ hn₂
  refine ⟨obj₁, obj₂, h₁, h₂, hmax₂.trans hmax₁, by rw [heof₂, heof₁, length_encodeRecord]; omega, ?_⟩
  -- making room for the length and then for the record is making room for both
  have hmm : (makeRoom obj.sh.ringLen (8 + r.length) (makeRoom obj.sh.ringLen 8 recs).1).1 =
        (makeRoom obj.sh.ringLen (8 + r.length) recs).1 ∧
      (makeRoom obj.sh.ringLen 8 recs).2 +
          (makeRoom obj.sh.ringLen (8 + r.length) (makeRoom obj.sh.ringLen 8 recs).1).2 =
        (makeRoom obj.sh.ringLen (8 + r.length) recs).2 :=
    makeRoom_makeRoom (by omega)
  simp only [List.nil_append, List.length_nil, Nat.zero_add, Buffer.length_read, hring₁,
    Buffer.read_getD] at hl₂
  rw [hmm.1, Nat.add_assoc, hmm.2] at hl₂
  rw [length_encodeRecord]
  exact hl₂.of_bytes (by simp [encodeRecord])

/-- A record other than the create record is logged as `History.log`. -/
theorem spaHistoryLogSync_models (dspace : ℕ) {logType : HistoryLogType} (hm : Models obj h)
    (ht : logType ≠ .cmdPoolCreate) (hr : 8 + r.length < obj.sh.ringLen) :
    ∃ obj', spaHistoryLogSync dspace (some obj) logType r = some obj' ∧
      obj'.sh.shPhysMaxOff = obj.sh.shPhysMaxOff ∧ Models obj' (h.log obj.sh.ringLen r) := by
  obtain ⟨obj₁, obj₂, h₁, h₂, hmax, -, hl⟩ := spaHistoryLogSync_writes hm hr
  refine ⟨obj₂, ?_, hmax, hl⟩
  simp only [spaHistoryLogSync, Option.getD_some, ht, false_and, if_false, h₁, h₂,
    Option.bind_eq_bind, Option.bind_some]

/-- A new history object holds the empty history. -/
theorem spaHistoryCreateObj_models (dspace : ℕ) : Models (spaHistoryCreateObj dspace) ⟨[], [], 0⟩ where
  createLen := rfl
  maxOff_lt := by
    simp only [spaHistoryCreateObj, Nat.shiftLeft_eq]
    omega
  bof_ge := le_refl 0
  eof_eq := rfl
  fits := by
    simp only [spaHistoryCreateObj, SpaHistoryPhys.ringLen, Nat.shiftLeft_eq, recordBytes_nil,
      List.append_nil, List.length_nil]
    omega
  createData := rfl
  liveData := rfl
  recordsLost := rfl

/-- The `zpool create` record of a new history becomes its fixed part. -/
theorem spaHistoryLogSync_create (dspace : ℕ) (hm : Models obj ⟨[], [], 0⟩)
    (heof : obj.sh.shEof = obj.sh.shPoolCreateLen) (hr : 8 + r.length < obj.sh.shPhysMaxOff) :
    ∃ obj', spaHistoryLogSync dspace (some obj) .cmdPoolCreate r = some obj' ∧
      obj'.sh.shPhysMaxOff = obj.sh.shPhysMaxOff ∧ Models obj' (History.created r) := by
  have hc : obj.sh.shPoolCreateLen = 0 := hm.createLen
  obtain ⟨obj₁, obj₂, h₁, h₂, hmax, heof₂, hl⟩ :=
    spaHistoryLogSync_writes (r := r) hm (by unfold SpaHistoryPhys.ringLen; omega)
  simp only [makeRoom_nil, List.nil_append, Nat.add_zero] at hl
  -- the record is the whole window, at the start of the object
  have hc₂ : obj₂.sh.shPoolCreateLen = 0 := hl.createLen
  have hwin := hl.eof_eq
  simp only [recordBytes_cons, recordBytes_nil, List.append_nil] at hwin
  have hbof : obj₂.sh.shBof = 0 := by omega
  have hring : obj₂.sh.ringLen = obj₂.sh.shPhysMaxOff := by
    unfold SpaHistoryPhys.ringLen
    omega
  have hdata : Buffer.read obj₂.data 0 (encodeRecord r).length = encodeRecord r := by
    have hlive := hl.liveData
    simp only [recordBytes_cons, recordBytes_nil, List.append_nil, hc₂, hbof, hring] at hlive
    rwa [Ring.read_eq_block le_rfl (by simp [Ring.slot]; omega), show Ring.slot 0 _ 0 = 0 by
      simp [Ring.slot]] at hlive
  refine ⟨⟨{ obj₂.sh with
      shPoolCreateLen := obj₂.sh.shPoolCreateLen + 8 + r.length
      shBof := obj₂.sh.shPoolCreateLen + 8 + r.length }, obj₂.data⟩, ?_, hmax, ?_⟩
  · simp only [spaHistoryLogSync, Option.getD_some, heof, ne_eq, not_true_eq_false, and_false,
      if_false, h₁, h₂, Option.bind_eq_bind, Option.bind_some, if_true]
  · exact {
      createLen := by
        show obj₂.sh.shPoolCreateLen + 8 + r.length = (encodeRecord r).length
        rw [hc₂, length_encodeRecord, Nat.zero_add]
      maxOff_lt := hl.maxOff_lt
      bof_ge := le_refl _
      eof_eq := by
        show obj₂.sh.shEof = obj₂.sh.shPoolCreateLen + 8 + r.length + (recordBytes [] ++ []).length
        rw [hc₂, heof₂, heof, hc, length_encodeRecord]
        simp
      fits := by
        simp only [History.created, recordBytes_nil, List.append_nil, List.length_nil,
          SpaHistoryPhys.ringLen]
        rw [hc₂, hmax]
        omega
      createData := by
        show Buffer.read obj₂.data 0 (obj₂.sh.shPoolCreateLen + 8 + r.length) = encodeRecord r
        rw [hc₂, show 0 + 8 + r.length = (encodeRecord r).length by simp]
        exact hdata
      liveData := rfl
      recordsLost := hl.recordsLost }

/-- A run of records other than create records is logged as `History.log`,
one record after the other. -/
theorem spaHistoryLogAll_models (dspace : ℕ) {recs : List (HistoryLogType × List UInt8)}
    (hm : Models obj h)
    (hrecs : ∀ r ∈ recs, r.1 ≠ .cmdPoolCreate ∧ 8 + r.2.length < obj.sh.ringLen) :
    ∃ obj', spaHistoryLogAll dspace obj recs = some obj' ∧
      obj'.sh.shPhysMaxOff = obj.sh.shPhysMaxOff ∧
      Models obj' ((recs.map Prod.snd).foldl (History.log obj.sh.ringLen) h) := by
  induction recs generalizing obj h with
  | nil => exact ⟨obj, rfl, rfl, hm⟩
  | cons r rs ih =>
    obtain ⟨hr₁, hr₂⟩ := hrecs r List.mem_cons_self
    obtain ⟨obj₁, h₁, hmax₁, hm₁⟩ := spaHistoryLogSync_models dspace hm hr₁ hr₂
    have hring : obj₁.sh.ringLen = obj.sh.ringLen := hm.ringLen_eq hm₁ hmax₁
    obtain ⟨obj₂, h₂, hmax₂, hm₂⟩ :=
      ih hm₁ fun r' hr' => hring ▸ hrecs r' (List.mem_cons_of_mem r hr')
    refine ⟨obj₂, ?_, hmax₂.trans hmax₁, ?_⟩
    · simp [spaHistoryLogAll, h₁, h₂]
    · rw [hring] at hm₂
      exact hm₂

end LogSync

end ZfsOsx.Spa
