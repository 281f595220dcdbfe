import ZfsOsx.Checksum.Fletcher
import ZfsOsx.Checksum.Sha256

/-!
# Generating and verifying block checksums (`module/zfs/zio_checksum.c`)

`zio_checksum_compute` is the write side. A checksum of the table without an
embedded trailer goes into the block pointer. An embedded one (`ci_eck`) goes
into the `zio_eck_t` at the end of the block, or at `zc_eck` of a log block's
`zil_chain_t` for `zilog2`: the trailer's checksum field first holds a
verifier (the gang block's identity, the label's offset, or for log blocks the
chain checksum already there, which is copied to the block pointer), the
magic is stored, and the checksum of the whole buffer replaces the verifier.

`zio_checksum_error` is the read side. It finds the trailer, rebuilds the
verifier, byte-swaps it when the trailer's magic shows the block was written
in the other byte order, splices it in, recomputes with the routine for that
order, and puts the stored checksum back.

Every memory access goes through the host's byte order (`Checksum.Word`), so
writer and reader are the same definitions run with two byte orders. The
results are in `Checksum.RoundTrip`.
-/
namespace ZfsOsx.Checksum

open Endian ByteOrder
open ZfsOsx.Compress (Buf p2roundup spaMinblocksize einval)

/-- `enum zio_checksum`.
mirrors include/sys/zio.h:72-84 -/
inductive ZioChecksum
  | inherit | on | off | label | gangHeader | zilog | fletcher2 | fletcher4 | sha256 | zilog2
  deriving DecidableEq, Repr

/-- The enum's value. -/
def ZioChecksum.toNat : ZioChecksum → ℕ
  | inherit => 0 | on => 1 | off => 2 | label => 3 | gangHeader => 4
  | zilog => 5 | fletcher2 => 6 | fletcher4 => 7 | sha256 => 8 | zilog2 => 9

/-- The enum value below `ZIO_CHECKSUM_FUNCTIONS` that a number is, if any. -/
def ZioChecksum.decode : ℕ → Option ZioChecksum
  | 0 => some inherit | 1 => some on | 2 => some off | 3 => some label | 4 => some gangHeader
  | 5 => some zilog | 6 => some fletcher2 | 7 => some fletcher4 | 8 => some sha256
  | 9 => some zilog2 | _ => none

theorem ZioChecksum.decode_toNat (c : ZioChecksum) : decode c.toNat = some c := by
  cases c <;> rfl

/-- `zio_checksum_t`: a checksum routine run on a host of byte order `h` over
the first `size` bytes of a buffer. -/
abbrev ZioChecksumFunc := ByteOrder → Buf → ℕ → ZioCksum

/-- `zio_checksum_off`.
mirrors module/zfs/zio_checksum.c:62-67 -/
def zioChecksumOff : ZioChecksumFunc := fun _ _ _ => ⟨0, 0, 0, 0⟩

/-- `zio_checksum_SHA256` as a table entry: it reads bytes, so the host's order
does not enter. -/
def zioChecksumSHA256Func : ZioChecksumFunc := fun _ buf size => zioChecksumSHA256 buf size

/-- `zio_checksum_info_t` with the fields the checksum code reads: `ci_func`,
`none` where the table holds `NULL`, `ci_eck` and `ci_name`.
mirrors include/sys/zio_checksum.h:42-48 -/
structure ZioChecksumInfo where
  func : Option (ZioChecksumFunc × ZioChecksumFunc)
  eck : Bool
  name : String

/-- `zio_checksum_table`.
mirrors module/zfs/zio_checksum.c:69-80 -/
def zioChecksumTable : ZioChecksum → ZioChecksumInfo
  | .inherit => ⟨none, false, "inherit"⟩
  | .on => ⟨none, false, "on"⟩
  | .off => ⟨some (zioChecksumOff, zioChecksumOff), false, "off"⟩
  | .label => ⟨some (zioChecksumSHA256Func, zioChecksumSHA256Func), true, "label"⟩
  | .gangHeader => ⟨some (zioChecksumSHA256Func, zioChecksumSHA256Func), true, "gang_header"⟩
  | .zilog => ⟨some (fletcher2Native, fletcher2Byteswap), true, "zilog"⟩
  | .fletcher2 => ⟨some (fletcher2Native, fletcher2Byteswap), false, "fletcher2"⟩
  | .fletcher4 => ⟨some (fletcher4Native, fletcher4Byteswap), false, "fletcher4"⟩
  | .sha256 => ⟨some (zioChecksumSHA256Func, zioChecksumSHA256Func), false, "sha256"⟩
  | .zilog2 => ⟨some (fletcher4Native, fletcher4Byteswap), true, "zilog2"⟩

/-- The fields of `blkptr_t` the checksum code reads, as the macros of
`sys/spa.h` decode them: `DVA_GET_VDEV`, `DVA_GET_OFFSET` and `DVA_GET_GANG`
of `blk_dva[0]` (`BP_IDENTITY`), `blk_phys_birth`, `blk_birth`,
`BP_GET_CHECKSUM` (eight bits, so possibly no table index),
`BP_GET_PSIZE`, `BP_GET_BYTEORDER` and `blk_cksum`.
mirrors include/sys/spa.h:188-252 -/
structure Blkptr where
  vdev : UInt64
  offset : UInt64
  gang : Bool
  physBirth : UInt64
  birth : UInt64
  checksum : ℕ
  psize : ℕ
  byteorder : ByteOrder
  cksum : ZioCksum
  deriving DecidableEq, Repr

/-- `BP_PHYSICAL_BIRTH(bp)`.
mirrors include/sys/spa.h:251-252 -/
def Blkptr.physicalBirth (bp : Blkptr) : UInt64 :=
  if bp.physBirth ≠ 0 then bp.physBirth else bp.birth

/-- The fields of `zio_t` the checksum code reads: `io_bp` (`none` for
`NULL`), `io_prop.zp_checksum`, `io_size`, `io_offset`, `io_data` and
`io_error`. -/
structure Zio where
  bp : Option Blkptr
  propChecksum : ZioChecksum
  size : ℕ
  offset : UInt64
  data : Buf
  error : ℤ

/-- `zio_bad_cksum_t`.
mirrors include/sys/zio_checksum.h:50-57 -/
structure ZioBadCksum where
  expected : ZioCksum
  actual : ZioCksum
  checksumName : String
  byteswapped : Bool
  injected : Bool
  hasCksum : Bool

/-- `ZEC_MAGIC`.
mirrors include/sys/zio.h:47 -/
def zecMagic : UInt64 := 0x210da7ab10c7a11

/-- `sizeof (zio_eck_t)`: the magic and four checksum words. -/
def zioEckSize : ℕ := 40

/-- `offsetof (zil_chain_t, zc_nused)`, after `zc_pad` and the 128-byte
`zc_next_blk`.
mirrors include/sys/zil.h:85-90 -/
def zilChainNused : ℕ := 136

/-- `offsetof (zil_chain_t, zc_eck)`. -/
def zilChainEck : ℕ := 144

/-- `sizeof (zil_chain_t)`. -/
def zilChainSize : ℕ := 184

/-- `ZIL_MIN_BLKSZ`.
mirrors include/sys/zil.h:92 -/
def zilMinBlksz : ℕ := 4096

/-- `SPA_GANGBLOCKSIZE`.
mirrors include/sys/zio.h:58 -/
def spaGangblocksize : ℕ := spaMinblocksize

/-- `ECKSUM`, that is `EBADE`, which `sys/zfs_context.h` defines as
`EBADMACHO`, 88 on Darwin.
mirrors include/sys/zio.h:234 -/
def ecksum : ℤ := 88

/-- `P2ROUNDUP_TYPED(x, align, uint64_t)`: the rounding up in 64-bit
arithmetic, which wraps to 0 past the last multiple of `align`. -/
def p2roundupTyped64 (x align : ℕ) : ℕ := p2roundup x align % 2 ^ 64

/-- `zio_checksum_gang_verifier(zcp, bp)`: `<vdev, offset, txg>` of the gang
block; `none` when `ASSERT(BP_IS_GANG(bp))` fails.
mirrors module/zfs/zio_checksum.c:121-134 -/
def zioChecksumGangVerifier (bp : Blkptr) : Option ZioCksum :=
  if bp.gang then some ⟨bp.vdev, bp.offset, bp.physicalBirth, 0⟩ else none

/-- `zio_checksum_label_verifier(zcp, offset)`.
mirrors module/zfs/zio_checksum.c:136-145 -/
def zioChecksumLabelVerifier (offset : UInt64) : ZioCksum := ⟨offset, 0, 0, 0⟩

/-- The end of the embedded branch of `zio_checksum_compute`, once the
verifier is in the trailer at `eck`: store the magic, checksum `size` bytes and
store the checksum over the verifier.
mirrors module/zfs/zio_checksum.c:180-182 -/
@[grind] def zioEckSeal (h : ByteOrder) (f0 : ZioChecksumFunc) (data : Buf) (eck size : ℕ) : Buf :=
  let data := store64 h data eck zecMagic
  storeCksum h data (eck + 8) (f0 h data size)

/-- Where `zio_checksum_compute` puts the trailer of a block of `size` bytes
and how many bytes it checksums: the last 40 bytes and the whole block, or for
`zilog2` the chain's trailer and `zc_nused` rounded up to `ZIL_MIN_BLKSZ`.
mirrors module/zfs/zio_checksum.c:165-173 -/
def zioEckPlace (h : ByteOrder) (checksum : ZioChecksum) (data : Buf) (size : ℕ) : ℕ × ℕ :=
  if checksum = .zilog2 then
    (zilChainEck, p2roundupTyped64 (load64 h data zilChainNused).toNat zilMinBlksz)
  else (size - zioEckSize, size)

/-- `zio_checksum_compute(zio, checksum, data, size)` on a host of order `h`:
the buffer and the block pointer after it. `none` is a failed `ASSERT` or a
`NULL` block pointer that the branch dereferences.
mirrors module/zfs/zio_checksum.c:147-186 -/
def zioChecksumCompute (h : ByteOrder) (zio : Zio) (checksum : ZioChecksum) (data : Buf) (size : ℕ) :
    Option (Buf × Option Blkptr) :=
  let ci := zioChecksumTable checksum
  match ci.func with
  | none => none
  | some (f0, _) =>
    if ci.eck then
      let eck := (zioEckPlace h checksum data size).1
      let size := (zioEckPlace h checksum data size).2
      match checksum, zio.bp with
      | .gangHeader, some bp => (zioChecksumGangVerifier bp).map fun v =>
          (zioEckSeal h f0 (storeCksum h data (eck + 8) v) eck size, some bp)
      | .gangHeader, none => none
      | .label, bp => some (zioEckSeal h f0 (storeCksum h data (eck + 8)
          (zioChecksumLabelVerifier zio.offset)) eck size, bp)
      | _, some bp =>
        some (zioEckSeal h f0 data eck size, some { bp with cksum := loadCksum h data (eck + 8) })
      | _, none => none
    else
      zio.bp.map fun bp => (data, some { bp with cksum := f0 h data size })

/-- Where `zio_checksum_error` finds the trailer of a block of `size` bytes and
how many bytes it checksums. For `zilog2` it reads `zc_nused` in the order the
magic shows; `none` is its `ECKSUM` return for a trailer with neither magic or
a `zc_nused` past the block.
mirrors module/zfs/zio_checksum.c:206-227 -/
def zioEckLocate (h : ByteOrder) (checksum : ZioChecksum) (data : Buf) (size : ℕ) : Option (ℕ × ℕ) :=
  if checksum = .zilog2 then
    let magic := load64 h data zilChainEck
    let nused :=
      if magic = zecMagic then some (load64 h data zilChainNused)
      else if magic = bswap64 zecMagic then some (bswap64 (load64 h data zilChainNused))
      else none
    match nused with
    | none => none
    | some nused =>
      if nused.toNat > size then none else some (zilChainEck, p2roundupTyped64 nused.toNat zilMinBlksz)
  else some (size - zioEckSize, size)

/-- The verifier `zio_checksum_error` rebuilds; `none` where it dereferences a
`NULL` block pointer or `ASSERT(BP_IS_GANG(bp))` fails.
mirrors module/zfs/zio_checksum.c:229-234 -/
def zioVerifier (checksum : ZioChecksum) (zio : Zio) : Option ZioCksum :=
  match checksum with
  | .gangHeader => zio.bp.bind zioChecksumGangVerifier
  | .label => some (zioChecksumLabelVerifier zio.offset)
  | _ => zio.bp.map (·.cksum)

/-- The embedded branch of `zio_checksum_error` once the trailer and the
verifier are known: whether the block is byte-swapped, the expected and the
actual checksum, and the buffer after the stored checksum is put back.
mirrors module/zfs/zio_checksum.c:236-248 -/
def zioEckVerify (h : ByteOrder) (f0 f1 : ZioChecksumFunc) (data : Buf) (eck size : ℕ)
    (verifier : ZioCksum) : Bool × ZioCksum × ZioCksum × Buf :=
  let byteswap := load64 h data eck == bswap64 zecMagic
  let verifier := if byteswap then byteswapCksum verifier else verifier
  let expected := loadCksum h data (eck + 8)
  let data := storeCksum h data (eck + 8) verifier
  let actual := (if byteswap then f1 else f0) h data size
  let data := storeCksum h data (eck + 8) expected
  (byteswap, if byteswap then byteswapCksum expected else expected, actual, data)

/-- The end of `zio_checksum_error`: fill `info`, compare, and let fault
injection turn a match into an error. `inject` is what
`zio_handle_fault_injection(zio, ECKSUM)` returns when `zio_injection_enabled`
is set, `none` when it is not.
mirrors module/zfs/zio_checksum.c:256-274 -/
def zioChecksumReport (inject : Option ℤ) (ioError : ℤ) (name : String) (byteswap : Bool)
    (expected actual : ZioCksum) (data : Buf) : ℤ × Buf × Option ZioBadCksum :=
  let info : ZioBadCksum := ⟨expected, actual, name, byteswap, false, true⟩
  if !zioChecksumEqual actual expected then (ecksum, data, some info)
  else match inject with
    | some error => if ioError = 0 ∧ error ≠ 0 then (error, data, some { info with injected := true })
      else (0, data, some info)
    | none => (0, data, some info)

/-- `zio_checksum_error(zio, info)` on a host of order `h`: the error, the
buffer after the call, and `info` when the call fills it. `none` is a failed
`ASSERT` or a `NULL` block pointer that a branch dereferences.
mirrors module/zfs/zio_checksum.c:188-275 -/
def zioChecksumError (h : ByteOrder) (inject : Option ℤ) (zio : Zio) :
    Option (ℤ × Buf × Option ZioBadCksum) :=
  let checksum := match zio.bp with
    | none => zio.propChecksum.toNat
    | some bp => if bp.gang then ZioChecksum.gangHeader.toNat else bp.checksum
  let size := match zio.bp with
    | none => zio.size
    | some bp => if bp.gang then spaGangblocksize else bp.psize
  match ZioChecksum.decode checksum with
  | none => some (einval, zio.data, none)
  | some c =>
    let ci := zioChecksumTable c
    match ci.func with
    | none => some (einval, zio.data, none)
    | some (f0, f1) =>
      if ci.eck then
        match zioEckLocate h c zio.data size with
        | none => some (ecksum, zio.data, none)
        | some (eck, size) => (zioVerifier c zio).map fun verifier =>
            let r := zioEckVerify h f0 f1 zio.data eck size verifier
            zioChecksumReport inject zio.error ci.name r.1 r.2.1 r.2.2.1 r.2.2.2
      else
        match zio.bp with
        | none => none
        | some bp =>
          if bp.gang then none
          else
            let byteswap := bp.byteorder != h
            zioChecksumReport inject zio.error ci.name byteswap bp.cksum
              ((if byteswap then f1 else f0) h zio.data size) zio.data

end ZfsOsx.Checksum
