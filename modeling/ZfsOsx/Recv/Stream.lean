import ZfsOsx.Checksum.Zio
import ZfsOsx.Sa.Layout

/-!
# Receiving a send stream (`module/zfs/dmu_send.c`)

`dmu_recv_stream` reads the records that follow a stream's `DRR_BEGIN` off a
vnode with `restore_read`, which stores what it reads at the start of a
1 MiB buffer, `ra.buf`. Each record is a 312-byte `dmu_replay_record_t`
whose fields are in the stream's byte order (`backup_byteswap`); its handler
(`restore_object`, `restore_write`, `restore_spill`, ...) checks some of
them, reads the record's payload with `restore_read` into the same buffer,
and copies it into the object set. A `DRR_END` record ends the stream, and
its checksum is compared with the running checksum of everything before it.

The object set is an oracle: every DMU call a handler makes is answered,
error code and value, by a function of a state of any type. `ra.buf` is the
memory from the buffer's address on, so that an address at or past
`restoreBufsize` is outside the allocation. The run keeps a trace of what
matters here: each `restore_read` with the length it was asked for and the
64-bit value that length came from, and each copy into the object set with
the region it copies from.

Results:
* `restoreRead_eq`: `restore_read` stores the next `len` stream bytes at the
  buffer's start, or fails with `EINVAL` when the stream has fewer; a length
  `≤ 0` reads nothing. `restoreRead_buf_of_ne`: it stores nothing at or past
  `len`.
* `RestoreArg.Extends`: what a handler may do to `ra`; every handler, and
  every round of the record loop, keeps to it (`recvRecord_extends`).
* `dmuRecvStream_isSome`, `dmuRecvStream_exit`: the record loop ends for
  every stream, each round consuming a header, and it ends with
  `ra.err ≠ 0` or on a `DRR_END` record.
* `dmuRecvStream_guarded`, `dmuRecvStream_confined`: every read and copy of a
  run passed the check the source makes before it, so each is confined to
  the buffer (or to its dbuf) but for a `DRR_WRITE` read, a `DRR_SPILL` read
  that is not a multiple of 8, a copy longer than the buffer, and a write by
  reference longer than its dbuf.
* `dmuRecvStream_buf_frame`: only a `DRR_WRITE` payload read can store past
  the buffer; `recv_write_overflow` is a stream where one does.
-/

namespace ZfsOsx.Recv

open Endian ZfsOsx.Checksum
open ZfsOsx.Compress (Buf p2roundup spaMinblocksize einval)
open ZfsOsx.Sa (dnMaxBonuslen spaMaxblocksize)

/-! ## Constants -/

/-- `sizeof (dmu_replay_record_t)`: `drr_type`, `drr_payloadlen` and the
largest member of the union, `drr_begin`.
mirrors include/sys/zfs_ioctl.h:92-211 -/
@[grind] def drrRecordSize : ℕ := 312

/-- `ra.bufsize`, the size of `ra.buf`.
mirrors module/zfs/dmu_send.c:1393 -/
def restoreBufsize : ℕ := 1 <<< 20

def enoent : ℤ := 2

/-- `DMU_BACKUP_MAGIC` (include/sys/zfs_ioctl.h:105) -/
def dmuBackupMagic : ℕ := 0x2F5bacbac

/-- `DMU_NEW_OBJECT`, the object a transaction holds for an object that is
not yet allocated (include/sys/dmu.h). -/
def dmuNewObject : ℕ := 2 ^ 64 - 1

/-- `DMU_OT_NUMTYPES`: the legacy object types are `0 .. 53`. -/
def dmuOtNumtypes : ℕ := 54

/-- `DMU_BSWAP_NUMFUNCS` -/
def dmuBswapNumfuncs : ℕ := 10

def dmuOtNewtype : ℕ := 0x80

def dmuOtByteswapMask : ℕ := 0x3f

/-- `DMU_OT_IS_VALID(ot)`.
mirrors include/sys/dmu.h:112-114 -/
def dmuOtIsValid (ot : ℕ) : Bool :=
  if ot &&& dmuOtNewtype ≠ 0 then ot &&& dmuOtByteswapMask < dmuBswapNumfuncs
  else ot < dmuOtNumtypes

/-- `ZIO_CHECKSUM_FUNCTIONS` (include/sys/zio.h:83) -/
def zioChecksumFunctions : ℕ := 10

/-- `ZIO_COMPRESS_FUNCTIONS` (include/sys/zio.h:111) -/
def zioCompressFunctions : ℕ := 15

/-- A 64-bit length passed as `restore_read`'s `int len`: its low 32 bits,
in two's complement. -/
def toCInt (x : ℕ) : ℤ := Int.bmod x (2 ^ 32)

/-! ## Records -/

/-- `drr_type`.
mirrors include/sys/zfs_ioctl.h:94-97 -/
inductive DrrType
  | begin
  | object
  | freeobjects
  | write
  | free
  | end_
  | writeByref
  | spill
  deriving DecidableEq, Repr

/-- The record type a `drr_type` value names, if any. -/
def DrrType.decode : ℕ → Option DrrType
  | 0 => some .begin
  | 1 => some .object
  | 2 => some .freeobjects
  | 3 => some .write
  | 4 => some .free
  | 5 => some .end_
  | 6 => some .writeByref
  | 7 => some .spill
  | _ => none

/-- The order a record's fields are read in. `backup_byteswap` swaps every
field a handler reads when the stream's order is not the host's, and a field
loaded in the host's order and swapped is the field loaded in the other order
(`load_swap`).
mirrors module/zfs/dmu_send.c:991-1069 -/
def recordOrder (h : ByteOrder) (byteswap : Bool) : ByteOrder :=
  if byteswap then h.swap else h

/-- The fields of `struct drr_object` that `restore_object` reads.
mirrors include/sys/zfs_ioctl.h:143-154 -/
structure DrrObject where
  object : ℕ
  type : ℕ
  bonustype : ℕ
  blksz : ℕ
  bonuslen : ℕ
  checksumtype : ℕ
  compress : ℕ
  deriving DecidableEq, Repr

/-- `drr->drr_u.drr_object`, out of the record at the start of `m`. -/
def DrrObject.ofRecord (o : ByteOrder) (m : Buf) : DrrObject :=
  ⟨load o m 8 8, load o m 16 4, load o m 20 4, load o m 24 4, load o m 28 4, load o m 32 1,
    load o m 33 1⟩

/-- `struct drr_freeobjects`.
mirrors include/sys/zfs_ioctl.h:155-159 -/
structure DrrFreeobjects where
  firstobj : ℕ
  numobjs : ℕ
  deriving DecidableEq, Repr

def DrrFreeobjects.ofRecord (o : ByteOrder) (m : Buf) : DrrFreeobjects :=
  ⟨load o m 8 8, load o m 16 8⟩

/-- The fields of `struct drr_write` that `restore_write` reads.
mirrors include/sys/zfs_ioctl.h:160-171 -/
structure DrrWrite where
  object : ℕ
  type : ℕ
  offset : ℕ
  length : ℕ
  deriving DecidableEq, Repr

def DrrWrite.ofRecord (o : ByteOrder) (m : Buf) : DrrWrite :=
  ⟨load o m 8 8, load o m 16 4, load o m 24 8, load o m 32 8⟩

/-- `struct drr_free`.
mirrors include/sys/zfs_ioctl.h:172-177 -/
structure DrrFree where
  object : ℕ
  offset : ℕ
  length : ℕ
  deriving DecidableEq, Repr

def DrrFree.ofRecord (o : ByteOrder) (m : Buf) : DrrFree :=
  ⟨load o m 8 8, load o m 16 8, load o m 24 8⟩

/-- The fields of `struct drr_write_byref` that `restore_write_byref` reads.
mirrors include/sys/zfs_ioctl.h:178-193 -/
structure DrrWriteByref where
  object : ℕ
  offset : ℕ
  length : ℕ
  toguid : ℕ
  refguid : ℕ
  refobject : ℕ
  refoffset : ℕ
  deriving DecidableEq, Repr

def DrrWriteByref.ofRecord (o : ByteOrder) (m : Buf) : DrrWriteByref :=
  ⟨load o m 8 8, load o m 16 8, load o m 24 8, load o m 32 8, load o m 40 8, load o m 48 8,
    load o m 56 8⟩

/-- The fields of `struct drr_spill` that `restore_spill` reads.
mirrors include/sys/zfs_ioctl.h:194-200 -/
structure DrrSpill where
  object : ℕ
  length : ℕ
  deriving DecidableEq, Repr

def DrrSpill.ofRecord (o : ByteOrder) (m : Buf) : DrrSpill :=
  ⟨load o m 8 8, load o m 16 8⟩

/-! ## The object set -/

/-- The DMU calls the handlers make, with the arguments that name them. -/
inductive DmuCall
  /-- `dmu_object_info(os, object, NULL)` -/
  | objectInfo (object : ℕ)
  /-- `dmu_tx_assign(tx, TXG_WAIT)` for a transaction that holds `object` -/
  | txAssign (object : ℕ)
  /-- `dmu_object_claim` -/
  | objectClaim (drro : DrrObject)
  /-- `dmu_object_reclaim` -/
  | objectReclaim (drro : DrrObject)
  /-- `dmu_object_set_checksum` and `dmu_object_set_compress` -/
  | objectSet (object checksum compress : ℕ)
  /-- the `bcopy` of the bonus data into the held bonus buffer -/
  | bonusWrite (object length : ℕ)
  /-- `dmu_free_object` -/
  | freeObject (object : ℕ)
  /-- `dmu_object_next(os, &obj, FALSE, 0)`: the value is the next object -/
  | objectNext (object : ℕ)
  /-- `dmu_write` -/
  | write (object offset length : ℕ)
  /-- `avl_find` in `guid_to_ds_map` and `dmu_objset_from_ds` -/
  | objsetOfGuid (guid : ℕ)
  /-- `dmu_buf_hold` in the dataset `guid`: the value is the dbuf's `db_size` -/
  | bufHold (guid object offset : ℕ)
  /-- `dmu_spill_hold_by_bonus` -/
  | spillHold (object : ℕ)
  /-- `dbuf_spill_set_blksz` when needed, and the `bcopy` into the spill block -/
  | spillWrite (object length : ℕ)
  /-- `dmu_free_long_range` -/
  | freeLongRange (object offset length : ℕ)

/-- The answer to a DMU call: its error code and, for `objectNext` and
`bufHold`, its value. -/
structure DmuReply where
  err : ℤ
  val : ℕ

/-! ## The stream and the buffer -/

/-- The vnode the stream is read from. -/
structure Vnode where
  data : Buf
  size : ℕ

/-- `vn_rdwr(UIO_READ, vp, base, len, off, ...)` into the memory `m`: the
file's bytes from `off` on, as many as it has up to `len`, stored from `base`
on; the second component is `resid`, what was asked for and not read. The
model has no I/O errors: the call returns 0. -/
@[grind] def vnRdwr (vp : Vnode) (m : Buf) (base len off : ℕ) : Buf × ℕ :=
  let n := min len (vp.size - off)
  (Buffer.copy m vp.data base off n, len - n)

/-- Who asked `restore_read` for bytes: the record loop for a header, or a
handler for a payload. -/
inductive ReadSite
  | header
  | object
  | write
  | spill
  deriving DecidableEq, Repr

/-- Where a copy into the object set takes its bytes: from `ra.buf`, of which
the last `restore_read` stored `filled` bytes, or from the `db_data` of a held
dbuf of `db_size` `size`. -/
inductive CopySrc
  | buf (filled : ℕ)
  | dbuf (size : ℕ)
  deriving DecidableEq, Repr

/-- A read from the stream or a copy into the object set. -/
inductive RecvEvent
  /-- `restore_read(ra, len)` from `site`, `len` having come from the 64-bit
  value `field` -/
  | read (site : ReadSite) (len : ℤ) (field : ℕ)
  /-- a copy of `len` bytes from `src` -/
  | copy (len : ℕ) (src : CopySrc)
  deriving DecidableEq, Repr

/-- `struct restorearg` as the record loop uses it. `buf` is the memory from
`ra.buf` on. `trace` is not in the source: it lists the run's reads and
copies. -/
structure RestoreArg where
  err : ℤ
  byteswap : Bool
  voff : ℕ
  buf : Buf
  cksum : ZioCksum
  trace : List RecvEvent

/-- `ra` after a copy of `len` bytes from `src` into the object set. -/
def RestoreArg.copyOut (ra : RestoreArg) (len : ℕ) (src : CopySrc) : RestoreArg :=
  { ra with trace := ra.trace ++ [.copy len src] }

/-- The loop of `restore_read`, for `fuel` rounds, with `done` bytes read;
the Boolean is whether it returns the buffer.
mirrors module/zfs/dmu_send.c:965-979 -/
@[grind] def restoreReadLoop (vp : Vnode) (len : ℤ) : ℕ → ℤ → RestoreArg → RestoreArg × Bool
  | 0, _, ra => (ra, true)
  | fuel + 1, done, ra =>
    if done < len then
      let r := vnRdwr vp ra.buf done.toNat (len - done).toNat ra.voff
      let err := if r.2 = (len - done).toNat then einval else 0
      let ra := { ra with err := err, buf := r.1, voff := ra.voff + ((len - done).toNat - r.2) }
      if err ≠ 0 then (ra, false) else restoreReadLoop vp len fuel (len - r.2) ra
    else (ra, true)

/-- `fletcher_4_incremental_byteswap(rv, len, &ra->cksum)` or its native
twin on the buffer, `len` taken as a `size_t`.
mirrors module/zfs/dmu_send.c:982-985 -/
def RestoreArg.foldCksum (h : ByteOrder) (len : ℤ) (ra : RestoreArg) : RestoreArg :=
  let size := (len % 2 ^ 64).toNat
  { ra with
    cksum := if ra.byteswap then fletcher4IncrementalByteswap h ra.buf size ra.cksum
      else fletcher4IncrementalNative h ra.buf size ra.cksum }

/-- `restore_read(ra, len)` on a host of order `h`, asked from `site` for the
64-bit value `field`: the loop, with a round for every byte (each round that
does not fail reads one at least), then the checksum of the bytes read.
mirrors module/zfs/dmu_send.c:957-989 -/
def restoreRead (h : ByteOrder) (vp : Vnode) (site : ReadSite) (len : ℤ) (field : ℕ)
    (ra : RestoreArg) : RestoreArg × Bool :=
  let r := restoreReadLoop vp len (len.toNat + 1) 0
    { ra with trace := ra.trace ++ [RecvEvent.read site len field] }
  if r.2 then (r.1.foldCksum h len, true) else r

/-! ## `restore_read` -/

section Read

variable (h : ByteOrder) (vp : Vnode) (site : ReadSite) {len : ℤ} (field : ℕ)

theorem einval_ne_zero : einval ≠ 0 := by decide

@[simp] theorem foldCksum_err (ra : RestoreArg) : (ra.foldCksum h len).err = ra.err := rfl
@[simp] theorem foldCksum_byteswap (ra : RestoreArg) :
    (ra.foldCksum h len).byteswap = ra.byteswap := rfl
@[simp] theorem foldCksum_voff (ra : RestoreArg) : (ra.foldCksum h len).voff = ra.voff := rfl
@[simp] theorem foldCksum_buf (ra : RestoreArg) : (ra.foldCksum h len).buf = ra.buf := rfl
@[simp] theorem foldCksum_trace (ra : RestoreArg) : (ra.foldCksum h len).trace = ra.trace := rfl

theorem restoreReadLoop_of_nonpos (hlen : len ≤ 0) (fuel : ℕ) (ra : RestoreArg) :
    restoreReadLoop vp len (fuel + 1) 0 ra = (ra, true) := by
  rw [restoreReadLoop, if_neg (by omega)]

/-- A first round that finds the whole length in the file reads it, and the
second round finds nothing left to do. -/
theorem restoreReadLoop_of_le (hpos : 0 < len) (ra : RestoreArg)
    (hle : len.toNat ≤ vp.size - ra.voff) (fuel : ℕ) :
    restoreReadLoop vp len (fuel + 2) 0 ra =
      ({ ra with
          err := 0
          buf := Buffer.copy ra.buf vp.data 0 ra.voff len.toNat
          voff := ra.voff + len.toNat }, true) := by
  have hmin : min len.toNat (vp.size - ra.voff) = len.toNat := min_eq_left hle
  have hne : (0 : ℕ) ≠ len.toNat := by omega
  rw [restoreReadLoop, if_pos hpos]
  simp only [vnRdwr, sub_zero, Int.toNat_zero, hmin, Nat.sub_self, if_neg hne, Nat.cast_zero,
    Nat.sub_zero, ne_eq, not_true_eq_false, if_false]
  rw [restoreReadLoop, if_neg (lt_irrefl _)]

/-- A round at the end of the file reads nothing and fails. -/
theorem restoreReadLoop_eof {done : ℤ} (hd : done < len) (ra : RestoreArg)
    (hend : vp.size ≤ ra.voff) (fuel : ℕ) :
    restoreReadLoop vp len (fuel + 1) done ra = ({ ra with err := einval }, false) := by
  have h0 : vp.size - ra.voff = 0 := by omega
  rw [restoreReadLoop, if_pos hd]
  simp only [vnRdwr, h0, Nat.min_zero, Nat.sub_zero, if_true, Buffer.copy_zero, Nat.sub_self,
    Nat.add_zero, ne_eq, einval_ne_zero, not_false_eq_true, if_true]

/-- A file shorter than the length: the first round reads what there is,
and the next one, at the end of the file, fails. -/
theorem restoreReadLoop_of_lt (hpos : 0 < len) (ra : RestoreArg)
    (hlt : vp.size - ra.voff < len.toNat) (fuel : ℕ) :
    restoreReadLoop vp len (fuel + 2) 0 ra =
      ({ ra with
          err := einval
          buf := Buffer.copy ra.buf vp.data 0 ra.voff (vp.size - ra.voff)
          voff := ra.voff + (vp.size - ra.voff) }, false) := by
  by_cases h0 : vp.size - ra.voff = 0
  · rw [restoreReadLoop_eof vp hpos ra (by omega), h0, Buffer.copy_zero, Nat.add_zero]
  · have hmin : min len.toNat (vp.size - ra.voff) = vp.size - ra.voff := min_eq_right hlt.le
    have hne : len.toNat - (vp.size - ra.voff) ≠ len.toNat := by omega
    have hdone : len - ((len.toNat - (vp.size - ra.voff) : ℕ) : ℤ) =
        ((vp.size - ra.voff : ℕ) : ℤ) := by
      omega
    rw [restoreReadLoop, if_pos hpos]
    simp only [vnRdwr, sub_zero, Int.toNat_zero, hmin, if_neg hne, ne_eq, not_true_eq_false,
      if_false, hdone]
    have hread : len.toNat - (len.toNat - (vp.size - ra.voff)) = vp.size - ra.voff := by omega
    rw [restoreReadLoop_eof vp (by omega) _ (by dsimp only; omega)]
    simp [hread]

/-- `restore_read` in one equation: a length `≤ 0` reads nothing; a length
the file still holds is read whole to the buffer's start; a longer one
stores what there is and fails with `EINVAL`. -/
theorem restoreRead_eq (ra : RestoreArg) :
    restoreRead h vp site len field ra =
      if len ≤ 0 then
        ({ ra with trace := ra.trace ++ [RecvEvent.read site len field] }.foldCksum h len, true)
      else if len.toNat ≤ vp.size - ra.voff then
        ({ ra with
            trace := ra.trace ++ [RecvEvent.read site len field]
            err := 0
            buf := Buffer.copy ra.buf vp.data 0 ra.voff len.toNat
            voff := ra.voff + len.toNat }.foldCksum h len, true)
      else
        ({ ra with
            trace := ra.trace ++ [RecvEvent.read site len field]
            err := einval
            buf := Buffer.copy ra.buf vp.data 0 ra.voff (vp.size - ra.voff)
            voff := ra.voff + (vp.size - ra.voff) }, false) := by
  have hfuel : 0 < len → len.toNat + 1 = (len.toNat - 1) + 2 := by omega
  let ra₁ := { ra with trace := ra.trace ++ [RecvEvent.read site len field] }
  split_ifs with hlen hle
  · rw [restoreRead, restoreReadLoop_of_nonpos vp hlen]
    rfl
  · rw [restoreRead, hfuel (by omega), restoreReadLoop_of_le vp (by omega) ra₁ hle]
    rfl
  · rw [restoreRead, hfuel (by omega), restoreReadLoop_of_lt vp (by omega) ra₁ (Nat.lt_of_not_le hle)]
    rfl

variable (ra : RestoreArg)

@[simp] theorem restoreRead_byteswap :
    (restoreRead h vp site len field ra).1.byteswap = ra.byteswap := by
  rw [restoreRead_eq]
  split_ifs <;> rfl

@[simp] theorem restoreRead_trace :
    (restoreRead h vp site len field ra).1.trace = ra.trace ++ [RecvEvent.read site len field] := by
  rw [restoreRead_eq]
  split_ifs <;> rfl

theorem restoreRead_voff_le : ra.voff ≤ (restoreRead h vp site len field ra).1.voff := by
  rw [restoreRead_eq]
  split_ifs <;> simp

/-- A read that returns the buffer has consumed `len` bytes of the file. -/
theorem restoreRead_voff_of_ok (hpos : 0 < len) (hok : (restoreRead h vp site len field ra).2) :
    (restoreRead h vp site len field ra).1.voff = ra.voff + len.toNat ∧
      ra.voff + len.toNat ≤ vp.size := by
  rw [restoreRead_eq] at hok ⊢
  split_ifs at hok ⊢ with hlen hle
  · omega
  · exact ⟨rfl, by omega⟩

theorem restoreRead_err_of_fail (hfail : (restoreRead h vp site len field ra).2 = false) :
    (restoreRead h vp site len field ra).1.err = einval := by
  rw [restoreRead_eq] at hfail ⊢
  split_ifs at hfail ⊢
  rfl

/-- `restore_read` stores into the buffer only below the length it was
asked for. -/
theorem restoreRead_buf_of_ne (i : ℕ) (hi : (restoreRead h vp site len field ra).1.buf i ≠ ra.buf i) :
    (i : ℤ) < len := by
  by_contra hge
  apply hi
  rw [restoreRead_eq]
  split_ifs with hlen hle
  · rfl
  · exact Buffer.copy_apply_of_le (by omega)
  · exact Buffer.copy_apply_of_le (by omega)

end Read

/-! ## Reads and copies -/

theorem restoreBufsize_eq : restoreBufsize = 1048576 := rfl

theorem dnMaxBonuslen_eq : dnMaxBonuslen = 320 := rfl

theorem spaMaxblocksize_eq : spaMaxblocksize = 131072 := rfl

/-- `toCInt` keeps a length below `2 ^ 31`. -/
theorem toCInt_of_lt {x : ℕ} (hx : x < 2 ^ 31) : toCInt x = x :=
  Int.bmod_eq_of_le (by omega) (by omega)

/-- What the source checks before each read and copy, as a property of the
event. A header is 312 bytes. A bonus read is `P2ROUNDUP(drr_bonuslen, 8)`
for a bonus length in `1 .. DN_MAX_BONUSLEN`, and the bonus copy takes
`drr_bonuslen` bytes of it. A `DRR_SPILL` length is in `SPA_MINBLOCKSIZE ..
SPA_MAXBLOCKSIZE`. A `DRR_WRITE` length is only cast to `int`; a write or
spill copy takes the record's length from a buffer filled with the `int`'s
worth; a write by reference copies from a dbuf of any size. -/
def RecvEvent.Guarded : RecvEvent → Prop
  | .read .header len field => len = drrRecordSize ∧ field = drrRecordSize
  | .read .object len field => len = field ∧ 0 < field ∧ field ≤ dnMaxBonuslen ∧ field % 8 = 0
  | .read .write len field => len = toCInt field
  | .read .spill len field =>
    len = toCInt field ∧ spaMinblocksize ≤ field ∧ field ≤ spaMaxblocksize
  | .copy len (.buf filled) =>
    (0 < len ∧ len ≤ filled ∧ filled ≤ dnMaxBonuslen) ∨ filled = (toCInt len).toNat
  | .copy _ (.dbuf _) => True

/-- Confinement of one event: a read is a multiple of 8 within the buffer and
equal to the 64-bit value it came from; a copy from the buffer takes no more
than the last read stored, inside the buffer, and a copy from a dbuf no more
than its `db_size`. -/
def RecvEvent.Confined : RecvEvent → Prop
  | .read _ len field => 0 ≤ len ∧ len ≤ restoreBufsize ∧ len % 8 = 0 ∧ len = field
  | .copy len (.buf filled) => len ≤ filled ∧ filled ≤ restoreBufsize
  | .copy len (.dbuf size) => len ≤ size

/-- The checks confine every read and copy but four kinds: a `DRR_WRITE`
read, of any length the cast gives; a `DRR_SPILL` read of a length that is
not a multiple of 8; a write or spill copy longer than the buffer; and a
write by reference longer than the dbuf it copies from. -/
theorem RecvEvent.Guarded.confined {e : RecvEvent} (hg : e.Guarded) :
    e.Confined ∨ (∃ len field, e = .read .write len field) ∨
      (∃ len field, e = .read .spill len field ∧ len % 8 ≠ 0) ∨
      (∃ len, e = .copy len (.buf (toCInt len).toNat) ∧ restoreBufsize < len) ∨
      (∃ len size, e = .copy len (.dbuf size) ∧ size < len) := by
  cases e with
  | read site len field =>
    cases site with
    | header =>
      obtain ⟨rfl, rfl⟩ := hg
      left
      simp [RecvEvent.Confined, drrRecordSize, restoreBufsize]
    | object =>
      obtain ⟨rfl, hpos, hle, hmod⟩ := hg
      rw [dnMaxBonuslen_eq] at hle
      left
      refine ⟨by omega, by rw [restoreBufsize_eq]; omega, by omega, rfl⟩
    | write => exact .inr (.inl ⟨len, field, rfl⟩)
    | spill =>
      obtain ⟨hlen, hlo, hhi⟩ := hg
      rw [spaMaxblocksize_eq] at hhi
      rw [toCInt_of_lt (by omega)] at hlen
      by_cases hmod : len % 8 = 0
      · left
        exact ⟨by omega, by rw [restoreBufsize_eq]; omega, hmod, hlen⟩
      · exact .inr (.inr (.inl ⟨len, field, rfl, hmod⟩))
  | copy len src =>
    cases src with
    | buf filled =>
      rcases hg with ⟨hpos, hle, hmax⟩ | hfilled
      · rw [dnMaxBonuslen_eq] at hmax
        left
        exact ⟨hle, by rw [restoreBufsize_eq]; omega⟩
      · by_cases hlen : len ≤ restoreBufsize
        · left
          rw [toCInt_of_lt (by rw [restoreBufsize_eq] at hlen; omega), Int.toNat_natCast] at hfilled
          exact ⟨hfilled.ge, hfilled ▸ hlen⟩
        · exact .inr (.inr (.inr (.inl ⟨len, by rw [hfilled], by omega⟩)))
    | dbuf size =>
      by_cases hlen : len ≤ size
      · exact .inl hlen
      · exact .inr (.inr (.inr (.inr ⟨len, size, rfl, by omega⟩)))

/-- What a handler may do to `ra`: keep the stream's byte order, move `voff`
forward, append reads and copies that passed their checks, and store into
`ra.buf` only below the length of a read in the trace. -/
structure RestoreArg.Extends (ra ra' : RestoreArg) : Prop where
  byteswap_eq : ra'.byteswap = ra.byteswap
  voff_le : ra.voff ≤ ra'.voff
  trace_eq : ∃ new, ra'.trace = ra.trace ++ new ∧ ∀ e ∈ new, e.Guarded
  buf_eq : ∀ i, ra'.buf i ≠ ra.buf i →
    ∃ site len field, RecvEvent.read site len field ∈ ra'.trace ∧ (i : ℤ) < len

namespace RestoreArg.Extends

variable {ra ra' ra'' : RestoreArg}

@[refl] theorem refl (ra : RestoreArg) : ra.Extends ra where
  byteswap_eq := rfl
  voff_le := le_rfl
  trace_eq := ⟨[], by simp, by simp⟩
  buf_eq _ hi := absurd rfl hi

theorem trans (h₁ : ra.Extends ra') (h₂ : ra'.Extends ra'') : ra.Extends ra'' where
  byteswap_eq := h₂.byteswap_eq.trans h₁.byteswap_eq
  voff_le := h₁.voff_le.trans h₂.voff_le
  trace_eq := by
    obtain ⟨n₁, e₁, g₁⟩ := h₁.trace_eq
    obtain ⟨n₂, e₂, g₂⟩ := h₂.trace_eq
    refine ⟨n₁ ++ n₂, by rw [e₂, e₁, List.append_assoc], fun e he => ?_⟩
    rcases List.mem_append.mp he with he | he
    · exact g₁ e he
    · exact g₂ e he
  buf_eq i hi := by
    by_cases h' : ra''.buf i = ra'.buf i
    · obtain ⟨site, len, field, hm, hl⟩ := h₁.buf_eq i (h' ▸ hi)
      obtain ⟨n₂, e₂, -⟩ := h₂.trace_eq
      exact ⟨site, len, field, by rw [e₂]; exact List.mem_append_left _ hm, hl⟩
    · exact h₂.buf_eq i h'

/-- The loop stores a handler's error in `ra.err`, which the relation does
not constrain. -/
theorem setErr (hr : ra.Extends ra') (e : ℤ) : ra.Extends { ra' with err := e } :=
  ⟨hr.byteswap_eq, hr.voff_le, hr.trace_eq, hr.buf_eq⟩

theorem copyOut (hr : ra.Extends ra') {len : ℕ} {src : CopySrc}
    (hg : (RecvEvent.copy len src).Guarded) : ra.Extends (ra'.copyOut len src) where
  byteswap_eq := hr.byteswap_eq
  voff_le := hr.voff_le
  trace_eq := by
    obtain ⟨n, e, g⟩ := hr.trace_eq
    refine ⟨n ++ [.copy len src], by simp [RestoreArg.copyOut, e], fun x hx => ?_⟩
    rcases List.mem_append.mp hx with hx | hx
    · exact g x hx
    · rw [List.mem_singleton.mp hx]
      exact hg
  buf_eq i hi := by
    obtain ⟨site, len', field, hm, hl⟩ := hr.buf_eq i hi
    exact ⟨site, len', field, List.mem_append_left _ hm, hl⟩

end RestoreArg.Extends

theorem restoreRead_extends (h : ByteOrder) (vp : Vnode) (site : ReadSite) {len : ℤ} {field : ℕ}
    (hg : (RecvEvent.read site len field).Guarded) (ra : RestoreArg) :
    ra.Extends (restoreRead h vp site len field ra).1 where
  byteswap_eq := restoreRead_byteswap h vp site field ra
  voff_le := restoreRead_voff_le h vp site field ra
  trace_eq := ⟨[.read site len field], restoreRead_trace h vp site field ra, by simpa using hg⟩
  buf_eq i hi := ⟨site, len, field, by simp, restoreRead_buf_of_ne h vp site field ra i hi⟩

/-- The bonus read of `restore_object` passes its check. -/
theorem bonus_read_guarded {b : ℕ} (hb0 : b ≠ 0) (hb : b ≤ dnMaxBonuslen) :
    (RecvEvent.read .object (p2roundup b 8) (p2roundup b 8)).Guarded := by
  rw [dnMaxBonuslen_eq] at hb
  refine ⟨rfl, ?_, ?_, ZfsOsx.Sa.p2roundup_eight_mod b⟩
  · exact Nat.lt_of_lt_of_le (Nat.pos_of_ne_zero hb0) (ZfsOsx.Sa.le_p2roundup_eight b)
  · rw [dnMaxBonuslen_eq]
    unfold p2roundup
    omega

/-- The bonus copy of `restore_object` passes its check. -/
theorem bonus_copy_guarded {b : ℕ} (hb0 : 0 < b) (hb : b ≤ dnMaxBonuslen) :
    (RecvEvent.copy b (.buf (p2roundup b 8))).Guarded := by
  refine .inl ⟨hb0, ZfsOsx.Sa.le_p2roundup_eight b, ?_⟩
  rw [dnMaxBonuslen_eq] at hb ⊢
  unfold p2roundup
  omega

/-! ## The record handlers -/

section Handlers

variable {σ : Type} (h : ByteOrder) (vp : Vnode) (dmu : σ → DmuCall → DmuReply × σ)

/-- The checks `restore_object` makes of a record before it looks at the
object set.
mirrors module/zfs/dmu_send.c:1080-1090 -/
def DrrObject.invalid (drro : DrrObject) : Bool :=
  drro.type == 0 || !dmuOtIsValid drro.type || !dmuOtIsValid drro.bonustype ||
    decide (zioChecksumFunctions ≤ drro.checksumtype) ||
    decide (zioCompressFunctions ≤ drro.compress) || drro.blksz % spaMinblocksize != 0 ||
    decide (drro.blksz < spaMinblocksize) || decide (spaMaxblocksize < drro.blksz) ||
    decide (dnMaxBonuslen < drro.bonuslen)

theorem bonuslen_le_of_valid {drro : DrrObject} (h : ¬drro.invalid = true) :
    drro.bonuslen ≤ dnMaxBonuslen := by
  simp only [DrrObject.invalid, Bool.or_eq_true, decide_eq_true_eq, not_or] at h
  exact Nat.le_of_not_lt h.2

/-- `restore_object` once the object is claimed or reclaimed with error
`err`: the transaction for its bonus buffer, and the copy of the bonus data,
`bonuslen` bytes of the buffer `restore_read` filled.
mirrors module/zfs/dmu_send.c:1122-1155 -/
def restoreObjectBonus (drro : DrrObject) (err : ℤ) (ra : RestoreArg) (s : σ) :
    ℤ × RestoreArg × σ :=
  if err ≠ 0 then (einval, ra, s) else
  let tx := dmu s (.txAssign drro.object)
  if tx.1.err ≠ 0 then (tx.1.err, ra, tx.2) else
  let st := dmu tx.2 (.objectSet drro.object drro.checksumtype drro.compress)
  if drro.bonuslen ≠ 0 then
    (0, ra.copyOut drro.bonuslen (.buf (p2roundup drro.bonuslen 8)),
      (dmu st.2 (.bonusWrite drro.object drro.bonuslen)).2)
  else (0, ra, st.2)

theorem restoreObjectBonus_extends (drro : DrrObject) (hb : drro.bonuslen ≤ dnMaxBonuslen)
    (err : ℤ) (ra : RestoreArg) (s : σ) :
    ra.Extends (restoreObjectBonus dmu drro err ra s).2.1 := by
  unfold restoreObjectBonus
  dsimp only
  split_ifs with herr htx hbon
  · rfl
  · rfl
  · exact (RestoreArg.Extends.refl ra).copyOut (bonus_copy_guarded (Nat.pos_of_ne_zero hbon) hb)
  · rfl

/-- `restore_object` from the claim on, `err` being what `dmu_object_info`
returned: a free object is claimed in a transaction of its own, an
allocated one reclaimed.
mirrors module/zfs/dmu_send.c:1103-1125 -/
def restoreObjectClaim (drro : DrrObject) (err : ℤ) (ra : RestoreArg) (s : σ) :
    ℤ × RestoreArg × σ :=
  if err = enoent then
    let tx := dmu s (.txAssign dmuNewObject)
    if tx.1.err ≠ 0 then (tx.1.err, ra, tx.2) else
    let c := dmu tx.2 (.objectClaim drro)
    restoreObjectBonus dmu drro c.1.err ra c.2
  else
    let c := dmu s (.objectReclaim drro)
    restoreObjectBonus dmu drro c.1.err ra c.2

theorem restoreObjectClaim_extends (drro : DrrObject) (hb : drro.bonuslen ≤ dnMaxBonuslen)
    (err : ℤ) (ra : RestoreArg) (s : σ) :
    ra.Extends (restoreObjectClaim dmu drro err ra s).2.1 := by
  unfold restoreObjectClaim
  dsimp only
  split_ifs
  · rfl
  · exact restoreObjectBonus_extends dmu drro hb _ ra _
  · exact restoreObjectBonus_extends dmu drro hb _ ra _

/-- `restore_object`: the bonus data, `P2ROUNDUP(drr_bonuslen, 8)` bytes, is
read before the object is claimed.
mirrors module/zfs/dmu_send.c:1073-1156 -/
def restoreObject (drro : DrrObject) (ra : RestoreArg) (s : σ) : ℤ × RestoreArg × σ :=
  if drro.invalid then (einval, ra, s) else
  let info := dmu s (.objectInfo drro.object)
  if info.1.err ≠ 0 ∧ info.1.err ≠ enoent then (einval, ra, info.2) else
  if drro.bonuslen ≠ 0 then
    let rd := restoreRead h vp .object (p2roundup drro.bonuslen 8) (p2roundup drro.bonuslen 8) ra
    if rd.1.err ≠ 0 then (rd.1.err, rd.1, info.2)
    else restoreObjectClaim dmu drro info.1.err rd.1 info.2
  else restoreObjectClaim dmu drro info.1.err ra info.2

theorem restoreObject_extends (drro : DrrObject) (ra : RestoreArg) (s : σ) :
    ra.Extends (restoreObject h vp dmu drro ra s).2.1 := by
  unfold restoreObject
  dsimp only
  split_ifs with hinv hinfo hbon hrd
  · rfl
  · rfl
  · exact restoreRead_extends h vp .object (bonus_read_guarded hbon (bonuslen_le_of_valid hinv)) ra
  · exact (restoreRead_extends h vp .object
      (bonus_read_guarded hbon (bonuslen_le_of_valid hinv)) ra).trans
      (restoreObjectClaim_extends dmu drro (bonuslen_le_of_valid hinv) _ _ _)
  · exact restoreObjectClaim_extends dmu drro (bonuslen_le_of_valid hinv) _ ra _

/-- The loop of `restore_freeobjects` over the objects below `last`, from
`obj`. It is cut after `fuel` rounds: the handler gives it one per object of
the range, which is exact when `dmu_object_next` moves forward.
mirrors module/zfs/dmu_send.c:1168-1178 -/
def restoreFreeobjectsLoop (last : ℕ) : ℕ → ℕ → σ → ℤ × σ
  | 0, _, s => (0, s)
  | fuel + 1, obj, s =>
    if obj < last then
      let info := dmu s (.objectInfo obj)
      if info.1.err ≠ 0 then
        let nx := dmu info.2 (.objectNext obj)
        restoreFreeobjectsLoop last fuel nx.1.val nx.2
      else
        let fr := dmu info.2 (.freeObject obj)
        if fr.1.err ≠ 0 then (fr.1.err, fr.2) else
        let nx := dmu fr.2 (.objectNext obj)
        restoreFreeobjectsLoop last fuel nx.1.val nx.2
    else (0, s)

/-- `restore_freeobjects`.
mirrors module/zfs/dmu_send.c:1158-1180 -/
def restoreFreeobjects (drrfo : DrrFreeobjects) (ra : RestoreArg) (s : σ) :
    ℤ × RestoreArg × σ :=
  if 2 ^ 64 ≤ drrfo.firstobj + drrfo.numobjs then (einval, ra, s) else
  let r := restoreFreeobjectsLoop dmu (drrfo.firstobj + drrfo.numobjs) drrfo.numobjs
    drrfo.firstobj s
  (r.1, ra, r.2)

theorem restoreFreeobjects_ra (drrfo : DrrFreeobjects) (ra : RestoreArg) (s : σ) :
    (restoreFreeobjects dmu drrfo ra s).2.1 = ra := by
  unfold restoreFreeobjects
  split <;> rfl

/-- `restore_write` once `restore_read` returned `rd`: `ra`, and whether
`data` is not `NULL`. `drr_length` bytes of the buffer are written.
mirrors module/zfs/dmu_send.c:1194-1216 -/
def restoreWriteData (drrw : DrrWrite) (rd : RestoreArg × Bool) (s : σ) : ℤ × RestoreArg × σ :=
  if !rd.2 then (rd.1.err, rd.1, s) else
  let info := dmu s (.objectInfo drrw.object)
  if info.1.err ≠ 0 then (einval, rd.1, info.2) else
  let tx := dmu info.2 (.txAssign drrw.object)
  if tx.1.err ≠ 0 then (tx.1.err, rd.1, tx.2) else
  (0, rd.1.copyOut drrw.length (.buf (toCInt drrw.length).toNat),
    (dmu tx.2 (.write drrw.object drrw.offset drrw.length)).2)

theorem restoreWriteData_extends (drrw : DrrWrite) {ra : RestoreArg} {rd : RestoreArg × Bool}
    (hrd : ra.Extends rd.1) (s : σ) : ra.Extends (restoreWriteData dmu drrw rd s).2.1 := by
  unfold restoreWriteData
  dsimp only
  split_ifs
  · exact hrd
  · exact hrd
  · exact hrd
  · exact hrd.copyOut (.inr rfl)

/-- `restore_write`: the payload is read into the buffer with the record's
64-bit length passed as `int`.
mirrors module/zfs/dmu_send.c:1183-1217 -/
def restoreWrite (drrw : DrrWrite) (ra : RestoreArg) (s : σ) : ℤ × RestoreArg × σ :=
  if 2 ^ 64 ≤ drrw.offset + drrw.length ∨ !dmuOtIsValid drrw.type then (einval, ra, s)
  else restoreWriteData dmu drrw (restoreRead h vp .write (toCInt drrw.length) drrw.length ra) s

theorem restoreWrite_extends (drrw : DrrWrite) (ra : RestoreArg) (s : σ) :
    ra.Extends (restoreWrite h vp dmu drrw ra s).2.1 := by
  unfold restoreWrite
  split
  · rfl
  · exact restoreWriteData_extends dmu drrw (restoreRead_extends h vp .write rfl ra) s

/-- `restore_write_byref`: `drr_length` bytes are written from the `db_data`
of whatever block `dmu_buf_hold` returned.
mirrors module/zfs/dmu_send.c:1226-1276 -/
def restoreWriteByref (drrwbr : DrrWriteByref) (ra : RestoreArg) (s : σ) :
    ℤ × RestoreArg × σ :=
  if 2 ^ 64 ≤ drrwbr.offset + drrwbr.length then (einval, ra, s) else
  let ref := if drrwbr.toguid ≠ drrwbr.refguid then dmu s (.objsetOfGuid drrwbr.refguid)
    else (⟨0, 0⟩, s)
  if ref.1.err ≠ 0 then (einval, ra, ref.2) else
  let db := dmu ref.2 (.bufHold drrwbr.refguid drrwbr.refobject drrwbr.refoffset)
  if db.1.err ≠ 0 then (db.1.err, ra, db.2) else
  let tx := dmu db.2 (.txAssign drrwbr.object)
  if tx.1.err ≠ 0 then (tx.1.err, ra, tx.2) else
  (0, ra.copyOut drrwbr.length (.dbuf db.1.val),
    (dmu tx.2 (.write drrwbr.object drrwbr.offset drrwbr.length)).2)

theorem restoreWriteByref_extends (drrwbr : DrrWriteByref) (ra : RestoreArg) (s : σ) :
    ra.Extends (restoreWriteByref dmu drrwbr ra s).2.1 := by
  unfold restoreWriteByref
  dsimp only
  -- every branch leaves `ra` as it is but the last, which appends the copy
  split_ifs <;>
    first
    | rfl
    | exact (RestoreArg.Extends.refl ra).copyOut trivial

/-- `restore_spill` once `restore_read` returned `rd`: the spill block is
held, grown to `drr_length` if smaller, and `drr_length` bytes of the buffer
are copied into it.
mirrors module/zfs/dmu_send.c:1289-1328 -/
def restoreSpillData (drrs : DrrSpill) (rd : RestoreArg × Bool) (s : σ) : ℤ × RestoreArg × σ :=
  if !rd.2 then (rd.1.err, rd.1, s) else
  let info := dmu s (.objectInfo drrs.object)
  if info.1.err ≠ 0 then (einval, rd.1, info.2) else
  let sp := dmu info.2 (.spillHold drrs.object)
  if sp.1.err ≠ 0 then (sp.1.err, rd.1, sp.2) else
  let tx := dmu sp.2 (.txAssign drrs.object)
  if tx.1.err ≠ 0 then (tx.1.err, rd.1, tx.2) else
  (0, rd.1.copyOut drrs.length (.buf (toCInt drrs.length).toNat),
    (dmu tx.2 (.spillWrite drrs.object drrs.length)).2)

theorem restoreSpillData_extends (drrs : DrrSpill) {ra : RestoreArg} {rd : RestoreArg × Bool}
    (hrd : ra.Extends rd.1) (s : σ) : ra.Extends (restoreSpillData dmu drrs rd s).2.1 := by
  unfold restoreSpillData
  dsimp only
  split_ifs
  · exact hrd
  · exact hrd
  · exact hrd
  · exact hrd
  · exact hrd.copyOut (.inr rfl)

/-- `restore_spill`.
mirrors module/zfs/dmu_send.c:1278-1329 -/
def restoreSpill (drrs : DrrSpill) (ra : RestoreArg) (s : σ) : ℤ × RestoreArg × σ :=
  if drrs.length < spaMinblocksize ∨ spaMaxblocksize < drrs.length then (einval, ra, s)
  else restoreSpillData dmu drrs (restoreRead h vp .spill (toCInt drrs.length) drrs.length ra) s

theorem restoreSpill_extends (drrs : DrrSpill) (ra : RestoreArg) (s : σ) :
    ra.Extends (restoreSpill h vp dmu drrs ra s).2.1 := by
  unfold restoreSpill
  split
  · rfl
  · rename_i hlen
    exact restoreSpillData_extends dmu drrs (restoreRead_extends h vp .spill
      ⟨rfl, Nat.le_of_not_lt (not_or.mp hlen).1, Nat.le_of_not_lt (not_or.mp hlen).2⟩ ra) s

/-- `restore_free`.
mirrors module/zfs/dmu_send.c:1331-1349 -/
def restoreFree (drrf : DrrFree) (ra : RestoreArg) (s : σ) : ℤ × RestoreArg × σ :=
  if drrf.length ≠ 2 ^ 64 - 1 ∧ 2 ^ 64 ≤ drrf.offset + drrf.length then (einval, ra, s) else
  let info := dmu s (.objectInfo drrf.object)
  if info.1.err ≠ 0 then (einval, ra, info.2) else
  let fr := dmu info.2 (.freeLongRange drrf.object drrf.offset drrf.length)
  (fr.1.err, ra, fr.2)

theorem restoreFree_ra (drrf : DrrFree) (ra : RestoreArg) (s : σ) :
    (restoreFree dmu drrf ra s).2.1 = ra := by
  unfold restoreFree
  dsimp only
  split_ifs <;> rfl

/-- The `switch` of the record loop for a record whose handler runs: the
handler, on the record's fields copied out of the buffer in the order `o`.
`DRR_BEGIN` and `DRR_END` have none.
mirrors module/zfs/dmu_send.c:1471-1527 -/
def restoreRecord (o : ByteOrder) : DrrType → RestoreArg → σ → Option (ℤ × RestoreArg × σ)
  | .object, ra, s => some (restoreObject h vp dmu (DrrObject.ofRecord o ra.buf) ra s)
  | .freeobjects, ra, s => some (restoreFreeobjects dmu (DrrFreeobjects.ofRecord o ra.buf) ra s)
  | .write, ra, s => some (restoreWrite h vp dmu (DrrWrite.ofRecord o ra.buf) ra s)
  | .writeByref, ra, s => some (restoreWriteByref dmu (DrrWriteByref.ofRecord o ra.buf) ra s)
  | .free, ra, s => some (restoreFree dmu (DrrFree.ofRecord o ra.buf) ra s)
  | .spill, ra, s => some (restoreSpill h vp dmu (DrrSpill.ofRecord o ra.buf) ra s)
  | .begin, _, _ => none
  | .end_, _, _ => none

theorem restoreRecord_extends (o : ByteOrder) (t : DrrType) (ra : RestoreArg) (s : σ)
    {r : ℤ × RestoreArg × σ} (hr : restoreRecord h vp dmu o t ra s = some r) : ra.Extends r.2.1 := by
  cases t <;> simp only [restoreRecord, Option.some.injEq, reduceCtorEq] at hr <;> rw [← hr]
  · exact restoreObject_extends h vp dmu _ ra s
  · rw [restoreFreeobjects_ra]
  · exact restoreWrite_extends h vp dmu _ ra s
  · rw [restoreFree_ra]
  · exact restoreWriteByref_extends dmu _ ra s
  · exact restoreSpill_extends h vp dmu _ ra s

/-- A round of the record loop once the header is in the buffer: the
`switch` on `drr_type`. `inl` goes on to the next round, `inr` leaves the
loop (`DRR_END`, and the default case).
mirrors module/zfs/dmu_send.c:1465-1530 -/
def recvRecord (pcksum : ZioCksum) (ra : RestoreArg) (s : σ) :
    (RestoreArg × σ) ⊕ (RestoreArg × σ) :=
  let o := recordOrder h ra.byteswap
  match DrrType.decode (load o ra.buf 0 4) with
  | some .end_ =>
    .inr (if loadCksum o ra.buf 8 = pcksum then ra else { ra with err := ecksum }, s)
  | some t =>
    match restoreRecord h vp dmu o t ra s with
    | some r => .inl ({ r.2.1 with err := r.1 }, r.2.2)
    | none => .inr ({ ra with err := einval }, s)
  | none => .inr ({ ra with err := einval }, s)

theorem recvRecord_extends (pcksum : ZioCksum) (ra : RestoreArg) (s : σ) :
    ra.Extends ((recvRecord h vp dmu pcksum ra s).elim Prod.fst Prod.fst) := by
  unfold recvRecord
  dsimp only
  split
  · split
    · rfl
    · exact (RestoreArg.Extends.refl ra).setErr ecksum
  · split
    · rename_i r hr
      exact (restoreRecord_extends h vp dmu _ _ ra s hr).setErr _
    · exact (RestoreArg.Extends.refl ra).setErr einval
  · exact (RestoreArg.Extends.refl ra).setErr einval

/-- A round leaves the loop with an error, or on a `DRR_END` record. -/
theorem recvRecord_exit (pcksum : ZioCksum) (ra : RestoreArg) (s : σ) {r : RestoreArg × σ}
    (hr : recvRecord h vp dmu pcksum ra s = .inr r) :
    r.1.err ≠ 0 ∨ DrrType.decode (load (recordOrder h r.1.byteswap) r.1.buf 0 4) = some .end_ := by
  unfold recvRecord at hr
  dsimp only at hr
  split at hr
  · rename_i hend
    right
    simp only [Sum.inr.injEq] at hr
    rw [← hr]
    split <;> exact hend
  · split at hr
    · cases hr
    · simp only [Sum.inr.injEq] at hr
      rw [← hr]
      exact .inl einval_ne_zero
  · simp only [Sum.inr.injEq] at hr
    rw [← hr]
    exact .inl einval_ne_zero

/-- The record loop of `dmu_recv_stream`, for `fuel` rounds, with `pcksum`
the checksum of everything before the current record: `none` when the fuel
runs out.
mirrors module/zfs/dmu_send.c:1455-1531 -/
@[grind] def dmuRecvStreamLoop : ℕ → ZioCksum → RestoreArg → σ → Option (RestoreArg × σ)
  | 0, _, _, _ => none
  | fuel + 1, pcksum, ra, s =>
    if ra.err ≠ 0 then some (ra, s) else
    match restoreRead h vp .header drrRecordSize drrRecordSize ra with
    | (ra, false) => some (ra, s)
    | (ra, true) =>
      match recvRecord h vp dmu pcksum ra s with
      | .inl r => dmuRecvStreamLoop fuel r.1.cksum r.1 r.2
      | .inr r => some r

/-- Every round keeps to `RestoreArg.Extends`, so the whole loop does. -/
theorem dmuRecvStreamLoop_extends {fuel : ℕ} {pcksum : ZioCksum} {ra : RestoreArg} {s : σ}
    {r : RestoreArg × σ} (hrun : dmuRecvStreamLoop h vp dmu fuel pcksum ra s = some r) :
    ra.Extends r.1 := by
  induction fuel generalizing pcksum ra s with
  | zero => cases hrun
  | succ fuel ih =>
    rw [dmuRecvStreamLoop] at hrun
    split_ifs at hrun with herr
    · cases hrun
      rfl
    · have hrd : ra.Extends (restoreRead h vp .header drrRecordSize drrRecordSize ra).1 :=
        restoreRead_extends h vp .header ⟨rfl, rfl⟩ ra
      generalize restoreRead h vp .header drrRecordSize drrRecordSize ra = rd at hrd hrun
      obtain ⟨ra₁, ok⟩ := rd
      cases ok
      · cases hrun
        exact hrd
      · have hrec := recvRecord_extends h vp dmu pcksum ra₁ s
        dsimp only at hrun
        split at hrun
        · rename_i r' hr'
          rw [hr'] at hrec
          exact hrd.trans (hrec.trans (ih hrun))
        · rename_i r' hr'
          cases hrun
          rw [hr'] at hrec
          exact hrd.trans hrec

/-- The loop ends before its fuel runs out: a round that does not leave it
has read a 312-byte header, and the handlers only move `voff` forward, so
the file holds fewer headers after each round. -/
theorem dmuRecvStreamLoop_isSome {fuel : ℕ} (pcksum : ZioCksum) (ra : RestoreArg) (s : σ)
    (hf : (vp.size - ra.voff) / drrRecordSize < fuel) :
    (dmuRecvStreamLoop h vp dmu fuel pcksum ra s).isSome := by
  induction fuel generalizing pcksum ra s with
  | zero => exact absurd hf (Nat.not_lt_zero _)
  | succ fuel ih =>
    rw [dmuRecvStreamLoop]
    split_ifs with herr
    · rfl
    · have hok := @restoreRead_voff_of_ok h vp .header drrRecordSize drrRecordSize ra (by decide)
      generalize restoreRead h vp .header drrRecordSize drrRecordSize ra = rd at hok
      obtain ⟨ra₁, ok⟩ := rd
      cases ok
      · rfl
      · obtain ⟨hv, hle⟩ := hok rfl
        have hrec := recvRecord_extends h vp dmu pcksum ra₁ s
        dsimp only
        split
        · rename_i r hr
          rw [hr] at hrec
          apply ih
          have hmono : ra₁.voff ≤ r.1.voff := hrec.voff_le
          simp only [Int.toNat_natCast, drrRecordSize] at hv hle hf ⊢
          omega
        · rfl

/-- The loop leaves with `ra.err ≠ 0` or on a `DRR_END` record, whose
header is still at the buffer's start. -/
theorem dmuRecvStreamLoop_exit {fuel : ℕ} {pcksum : ZioCksum} {ra : RestoreArg} {s : σ}
    {r : RestoreArg × σ} (hrun : dmuRecvStreamLoop h vp dmu fuel pcksum ra s = some r) :
    r.1.err ≠ 0 ∨ DrrType.decode (load (recordOrder h r.1.byteswap) r.1.buf 0 4) = some .end_ := by
  induction fuel generalizing pcksum ra s with
  | zero => cases hrun
  | succ fuel ih =>
    rw [dmuRecvStreamLoop] at hrun
    split_ifs at hrun with herr
    · cases hrun
      exact .inl herr
    · have hfail := @restoreRead_err_of_fail h vp .header drrRecordSize drrRecordSize ra
      generalize restoreRead h vp .header drrRecordSize drrRecordSize ra = rd at hfail hrun
      obtain ⟨ra₁, ok⟩ := rd
      cases ok
      · cases hrun
        exact .inl (by rw [hfail rfl]; exact einval_ne_zero)
      · dsimp only at hrun
        split at hrun
        · exact ih hrun
        · rename_i r' hr'
          cases hrun
          exact recvRecord_exit h vp dmu pcksum ra₁ s hr'

/-- `dmu_recv_stream` after `dmu_recv_begin` accepted the `DRR_BEGIN` record
`drrb` (the record as read, `drr_type` first) and left the stream at `voff`:
the byte order from the magic, the checksum of `drrb`, and the record loop,
with a round for every header the stream can hold and one more. `mem` is
what the buffer's memory holds before. The setup of the dedup map is not
modelled.
mirrors module/zfs/dmu_send.c:1353-1547 -/
def dmuRecvStream (drrb : Buf) (voff : ℕ) (mem : Buf) (s : σ) : Option (RestoreArg × σ) :=
  let byteswap := decide (load h drrb 8 8 = reverse 8 dmuBackupMagic)
  let cksum := if byteswap then fletcher4IncrementalByteswap h drrb drrRecordSize ⟨0, 0, 0, 0⟩
    else fletcher4IncrementalNative h drrb drrRecordSize ⟨0, 0, 0, 0⟩
  dmuRecvStreamLoop h vp dmu ((vp.size - voff) / drrRecordSize + 1) cksum
    ⟨0, byteswap, voff, mem, cksum, []⟩ s

/-! ## Whole runs -/

variable {drrb mem : Buf} {voff : ℕ} {s : σ} {r : RestoreArg × σ}

/-- `dmu_recv_stream` returns for every stream and every object set. -/
theorem dmuRecvStream_isSome (drrb : Buf) (voff : ℕ) (mem : Buf) (s : σ) :
    (dmuRecvStream h vp dmu drrb voff mem s).isSome :=
  dmuRecvStreamLoop_isSome h vp dmu _ _ s (Nat.lt_succ_self _)

/-- It returns an error, or success on a `DRR_END` record. -/
theorem dmuRecvStream_exit (hrun : dmuRecvStream h vp dmu drrb voff mem s = some r) :
    r.1.err ≠ 0 ∨ DrrType.decode (load (recordOrder h r.1.byteswap) r.1.buf 0 4) = some .end_ :=
  dmuRecvStreamLoop_exit h vp dmu hrun

/-- Every read and copy of a run passed the check the source makes before
it. -/
theorem dmuRecvStream_guarded (hrun : dmuRecvStream h vp dmu drrb voff mem s = some r) :
    ∀ e ∈ r.1.trace, e.Guarded := by
  obtain ⟨new, htr, hg⟩ := (dmuRecvStreamLoop_extends h vp dmu hrun).trace_eq
  rw [htr]
  simpa using hg

/-- So every read and copy of a run is confined but for the four kinds of
`RecvEvent.Guarded.confined`. -/
theorem dmuRecvStream_confined (hrun : dmuRecvStream h vp dmu drrb voff mem s = some r) :
    ∀ e ∈ r.1.trace, e.Confined ∨ (∃ len field, e = .read .write len field) ∨
      (∃ len field, e = .read .spill len field ∧ len % 8 ≠ 0) ∨
      (∃ len, e = .copy len (.buf (toCInt len).toNat) ∧ restoreBufsize < len) ∨
      (∃ len size, e = .copy len (.dbuf size) ∧ size < len) :=
  fun e he => (dmuRecvStream_guarded h vp dmu hrun e he).confined

/-- A run stores past the end of `ra.buf` only through a `DRR_WRITE` payload
read longer than the buffer: headers, bonus buffers and spill blocks are
checked to fit. -/
theorem dmuRecvStream_buf_frame (hrun : dmuRecvStream h vp dmu drrb voff mem s = some r)
    (i : ℕ) (hi : restoreBufsize ≤ i) (hne : r.1.buf i ≠ mem i) :
    ∃ len field, RecvEvent.read .write len field ∈ r.1.trace ∧ (i : ℤ) < len := by
  obtain ⟨site, len, field, hm, hl⟩ := (dmuRecvStreamLoop_extends h vp dmu hrun).buf_eq i hne
  have hg := dmuRecvStream_guarded h vp dmu hrun _ hm
  rw [restoreBufsize_eq] at hi
  cases site with
  | header =>
    obtain ⟨rfl, -⟩ := hg
    simp only [drrRecordSize] at hl
    omega
  | object =>
    obtain ⟨rfl, -, hle, -⟩ := hg
    rw [dnMaxBonuslen_eq] at hle
    omega
  | write => exact ⟨len, field, hm, hl⟩
  | spill =>
    obtain ⟨hlen, -, hhi⟩ := hg
    rw [spaMaxblocksize_eq] at hhi
    rw [hlen, toCInt_of_lt (by omega)] at hl
    omega

end Handlers

/-- A stream of one `DRR_WRITE` record of 2 MiB, its payload bytes all
`0xAA`: `drr_type` 3 at offset 0, `drr_length` `0x200000` at offset 32,
little-endian. -/
def writeStream : Vnode where
  data i := if i = 0 then 3 else if i = 34 then 0x20 else if 312 ≤ i then 0xAA else 0
  size := 312 + 2 ^ 21

/-- An object set that accepts every call. -/
def acceptAll : Unit → DmuCall → DmuReply × Unit := fun s _ => (⟨0, 0⟩, s)

/-- On a little-endian host, `restore_write` passes the 2 MiB length to
`restore_read`, which reads the whole payload into the 1 MiB buffer: the
stream's byte at `312 + 2^20` lands at `ra.buf + ra.bufsize`. -/
theorem recv_write_overflow :
    ∃ r, dmuRecvStream .little writeStream acceptAll (fun _ => 0) 0 (fun _ => 0) () = some r ∧
      RecvEvent.read .write (2 ^ 21) (2 ^ 21) ∈ r.1.trace ∧
      r.1.buf restoreBufsize = writeStream.data (drrRecordSize + restoreBufsize) ∧
      restoreBufsize < 2 ^ 21 := by
  refine ⟨_, rfl, ?_, ?_, by decide⟩
  · decide
  · decide

end ZfsOsx.Recv
