import Mathlib
import ZfsOsx.Lib.Buffer
import ZfsOsx.Lib.Endian

/-!
# Reading a GPT label (`lib/libefi/rdwr_efi.c`)

`efi_read` finds the GUID partition table of a disk. It reads the header at
LBA 1, or a backup header near the end of the disk, into a buffer whose size
it derives from the caller's partition count. It then reads the partition
entries behind the header and converts every entry the header announces into
the caller's `dk_gpt`. `efi_alloc_and_read` calls it with room for 128
entries, and once more with the count the header asked for.

The buffer is a `Label`: a length and its bytes, with `dki_data` an offset
into it. Every load and store through a `Label` is checked against the length;
one that falls outside ends the run with the `Fault` `readPast` or `writePast`
at the first offset outside, and a store past the entries of the caller's
`dk_gpt` with `partPast`. "The code stays inside its buffers" is then "no run
ends in a `Fault`". zlib's `crc32` is a parameter.

Before the buffer exists, `efi_read` asks `read_disk_info` for the capacity
and the block size, and in this port that function is a stub that returns
-1. The model takes its answer as an argument (`efiReadWith`), so that the
label code behind it can be studied as well; `efiRead` is the repository's
instance.

Results:
* `efi_read_confined`: with the repository's `read_disk_info`, `efi_read`
  and `efi_alloc_and_read` return a negative code on every disk and for
  every caller's count, without touching a buffer.
* `efiIoctlGet_frame`, `efiIoctlGet_writePast`: the Linux `DKIOCGETEFI` read
  stores only into `[data, data + n)`, and faults exactly when that block
  leaves the buffer.
* `partsLoop_readPast`, `partsLoop_ok`: the assembly loop faults exactly
  when an entry it converts lies past the buffer.
* `efiReadWith_readPast`: were `read_disk_info` to answer, a valid primary
  label on 4 KiB blocks announcing more than 128 entries would make the
  second `efi_read` of `efi_alloc_and_read` read past its buffer: the buffer
  keeps the 16 KiB array of `NBLOCKS < 34`, while the loop runs to the
  header's count.
-/
namespace ZfsOsx.Efi

open Endian ByteOrder

/-- sizeof (efi_gpe_t), one entry of the partition array. -/
def gpeSize : ℕ := 128

/-- EFI_MIN_ARRAY_SIZE: the partition array takes at least 16 KiB. -/
def efiMinArraySize : ℕ := 16 * 1024

/-- DEV_BSIZE, the block size assumed when the disk reports none. -/
def devBsize : ℕ := 512

/-- sizeof (efi_gpt_t): the header, padded to EFI_LABEL_SIZE. -/
def gptSize : ℕ := 512

/-- EFI_SIGNATURE, "EFI PART" read as a little-endian word. -/
def efiSignature : ℕ := 0x5452415020494645

/-- EFI_GPT_PRIMARY_CORRUPT, the flag set when the backup label was used. -/
def efiGptPrimaryCorrupt : ℕ := 1

/-- VT_ERROR, VT_EIO and VT_EINVAL of sys/vtoc.h. -/
def vtError : ℤ := -2
def vtEio : ℤ := -3
def vtEinval : ℤ := -4

/-- The errno values the label code tells apart. -/
inductive Errno
  | eio
  | einval
  | other
  deriving DecidableEq, Repr

/-- What DKIOCINFO reports about a device: the fields of struct dk_cinfo that
efi_read reads. -/
structure Cinfo where
  cname : String
  dname : String
  partition : ℕ

/-- A device as the label code sees it through its descriptor. -/
structure Disk where
  /-- DKIOCINFO's answer, or the errno it fails with -/
  info : Except Errno Cinfo
  /-- the device's bytes, and how many of them read(2) can return -/
  bytes : ℕ → UInt8
  size : ℕ

/-- What read_disk_info reports: the capacity in blocks and the logical block
size. -/
structure DiskInfo where
  capacity : ℕ
  lbsize : ℕ

/-- mirrors read_disk_info (rdwr_efi.c:128-144): the BLKSSZGET and
BLKGETSIZE64 ioctls are commented out, and it returns -1 before it stores
anything. -/
def readDiskInfo (_ : Disk) : Option DiskInfo := none

/-- mirrors efi_get_info (rdwr_efi.c:146-256) off Linux: DKIOCINFO, with its
errno turned into a VT_ code. -/
def efiGetInfo (d : Disk) : Except ℤ Cinfo :=
  match d.info with
  | .ok c => .ok c
  | .error .eio => .error vtEio
  | .error .einval => .error vtEinval
  | .error .other => .error vtError

/-- A load or a store outside the buffer it goes through: the label buffer
(at the first offset outside it), or vtoc->efi_parts[i] past the entries the
caller allocated. -/
inductive Fault
  | readPast (off : ℕ)
  | writePast (off : ℕ)
  | partPast (i : ℕ)
  deriving DecidableEq, Repr

/-- A buffer from posix_memalign: its length and its bytes. -/
structure Label where
  len : ℕ
  mem : ℕ → UInt8

namespace Label

/-- The block `[off, off + n)` read out of the buffer, checked. -/
@[grind] def read (b : Label) (off n : ℕ) : Except Fault (List UInt8) :=
  if off + n ≤ b.len then .ok (Buffer.read b.mem off n) else .error (.readPast (max off b.len))

/-- A little-endian field of `n` bytes at `off`, checked; LE_32 and LE_64
are the identity on the little-endian hosts this port runs on. -/
@[grind] def load (b : Label) (off n : ℕ) : Except Fault ℕ :=
  if off + n ≤ b.len then .ok (Endian.load little b.mem off n) else .error (.readPast (max off b.len))

/-- The buffer after `n` bytes of `src` from `s` on were stored at `off`,
checked. -/
@[grind] def copy (b : Label) (src : ℕ → UInt8) (off s n : ℕ) : Except Fault Label :=
  if off + n ≤ b.len then .ok { b with mem := Buffer.copy b.mem src off s n }
  else .error (.writePast (max off b.len))

variable {b : Label} {off n : ℕ}

theorem read_of_le (h : off + n ≤ b.len) : b.read off n = .ok (Buffer.read b.mem off n) := if_pos h

theorem read_of_lt (h : b.len < off + n) : b.read off n = .error (.readPast (max off b.len)) :=
  if_neg (by omega)

theorem copy_of_le {src : ℕ → UInt8} {s : ℕ} (h : off + n ≤ b.len) :
    b.copy src off s n = .ok { b with mem := Buffer.copy b.mem src off s n } := if_pos h

theorem copy_of_lt {src : ℕ → UInt8} {s : ℕ} (h : b.len < off + n) :
    b.copy src off s n = .error (.writePast (max off b.len)) := if_neg (by omega)

end Label

/-- mirrors efi_ioctl's DKIOCGETEFI case (rdwr_efi.c:385-431, the Linux
branch): read_disk_info again, lseek to dki_lba * lbsize, and read(2) of
dki_length bytes into dki_data. The result is the buffer after the call and,
when efi_ioctl returned -1, the errno it left. -/
def efiIoctlGet (rdi : Option DiskInfo) (d : Disk) (b : Label) (data lba length : ℕ) :
    Except Fault (Label × Option Errno) :=
  match rdi with
  | none => pure (b, some .eio)
  | some di =>
    let lbsize := if di.lbsize = 0 then devBsize else di.lbsize
    -- lseek takes the 64-bit product as an off_t: from 2^63 on it is negative
    let pos := lba * lbsize % 2 ^ 64
    if 2 ^ 63 ≤ pos then pure (b, some .einval)
    else
      -- read(2) stores what the device holds, up to dki_length bytes, and a
      -- short read is reported after the bytes were stored
      let n := min length (d.size - pos)
      (fun b' => (b', if n = length then none else some .eio)) <$> b.copy d.bytes data pos n

section Ioctl

variable {rdi : Option DiskInfo} {d : Disk} {b b' : Label} {data lba length : ℕ} {e : Option Errno}

/-- What a read(2) into the buffer leaves, seen through the result efi_ioctl
builds from it. -/
theorem Label.map_copy_ok {α : Type} {g : Label → α} {src : ℕ → UInt8} {off s n : ℕ} {r : α}
    (h : g <$> b.copy src off s n = .ok r) :
    off + n ≤ b.len ∧ r = g { b with mem := Buffer.copy b.mem src off s n } := by
  by_cases hfit : off + n ≤ b.len
  · rw [Label.copy_of_le hfit] at h
    cases h
    exact ⟨hfit, rfl⟩
  · rw [Label.copy_of_lt (by omega)] at h
    cases h

theorem Label.map_copy_error {α : Type} {g : Label → α} {src : ℕ → UInt8} {off s n : ℕ} {f : Fault}
    (h : g <$> b.copy src off s n = .error f) : b.len < off + n ∧ f = .writePast (max off b.len) := by
  by_cases hfit : off + n ≤ b.len
  · rw [Label.copy_of_le hfit] at h
    cases h
  · rw [Label.copy_of_lt (by omega)] at h
    cases h
    exact ⟨by omega, rfl⟩

/-- A DKIOCGETEFI read either stores nothing, or stores `n ≤ dki_length`
bytes of the device at `data`, and they fit in the buffer. -/
theorem efiIoctlGet_ok (h : efiIoctlGet rdi d b data lba length = .ok (b', e)) :
    b' = b ∨ ∃ pos n, n ≤ length ∧ data + n ≤ b.len ∧
      b' = { b with mem := Buffer.copy b.mem d.bytes data pos n } := by
  cases rdi with
  | none =>
    cases h
    exact .inl rfl
  | some di =>
    simp only [efiIoctlGet] at h
    generalize lba * (if di.lbsize = 0 then devBsize else di.lbsize) % 2 ^ 64 = pos at h
    by_cases hneg : 2 ^ 63 ≤ pos
    · rw [if_pos hneg] at h
      cases h
      exact .inl rfl
    · rw [if_neg hneg] at h
      obtain ⟨hfit, hr⟩ := Label.map_copy_ok h
      cases hr
      exact .inr ⟨pos, _, min_le_left _ _, hfit, rfl⟩

/-- A DKIOCGETEFI read keeps the buffer's length and stores only into
`[data, data + dki_length)`. -/
theorem efiIoctlGet_frame (h : efiIoctlGet rdi d b data lba length = .ok (b', e)) :
    b'.len = b.len ∧ ∀ k, k < data ∨ data + length ≤ k → b'.mem k = b.mem k := by
  rcases efiIoctlGet_ok h with rfl | ⟨pos, n, hn, -, rfl⟩
  · exact ⟨rfl, fun _ _ => rfl⟩
  · refine ⟨rfl, fun k hk => ?_⟩
    rcases hk with hk | hk
    · exact Buffer.copy_apply_of_lt hk
    · exact Buffer.copy_apply_of_le (by omega)

/-- A DKIOCGETEFI read faults only by storing past the buffer, with a block
that does not fit; one whose `dki_length` fits never faults. -/
theorem efiIoctlGet_writePast {f : Fault} (h : efiIoctlGet rdi d b data lba length = .error f) :
    f = .writePast (max data b.len) ∧ b.len < data + length := by
  cases rdi with
  | none => cases h
  | some di =>
    simp only [efiIoctlGet] at h
    generalize lba * (if di.lbsize = 0 then devBsize else di.lbsize) % 2 ^ 64 = pos at h
    by_cases hneg : 2 ^ 63 ≤ pos
    · rw [if_pos hneg] at h
      cases h
    · rw [if_neg hneg] at h
      obtain ⟨hout, rfl⟩ := Label.map_copy_error h
      exact ⟨rfl, by omega⟩

end Ioctl

/-- What check_label found: a label, none (VT_EINVAL), or a failed read with
its errno. -/
inductive Check
  | valid
  | invalid
  | failed (e : Errno)
  deriving DecidableEq, Repr

/-- The code check_label returns for each outcome. -/
def Check.code : Check → ℤ
  | .valid => 0
  | .invalid => vtEinval
  | .failed .eio => vtEio
  | .failed _ => vtError

section Read

variable (crc32 : List UInt8 → UInt32) (rdi : Option DiskInfo) (d : Disk)

/-- mirrors check_label (rdwr_efi.c:521-570): read the header, compare the
signature, then the CRC over HeaderSize bytes with the CRC field zeroed. A
HeaderSize outside [EFI_MIN_LABEL_SIZE, EFI_LABEL_SIZE] is only reported
under efi_debug; one larger than dki_length fails the check. -/
def checkLabel (b : Label) (data lba length : ℕ) : Except Fault (Check × Label) := do
  let (b, e) ← efiIoctlGet rdi d b data lba length
  match e with
  | some e => return (.failed e, b)
  | none =>
    let sig ← b.load data 8
    if sig ≠ efiSignature then return (.invalid, b)
    let crc ← b.load (data + 16) 4
    let b ← b.copy (fun _ => 0) (data + 16) 0 4
    let headerSize ← b.load (data + 12) 4
    if length < headerSize then return (.invalid, b)
    let covered ← b.read data headerSize
    if crc ≠ (crc32 covered).toNat then return (.invalid, b)
    return (.valid, b)

/-- The fields of struct dk_gpt that efi_read fills. `alloc` is the number
of efi_parts[] entries the caller allocated, and each converted entry is
kept as the 128 bytes it was converted from. -/
structure DkGpt where
  version : ℕ
  nparts : ℕ
  partSize : ℕ
  lbasize : ℕ
  lastLba : ℕ
  firstULba : ℕ
  lastULba : ℕ
  alternLba : ℕ
  diskGuid : ℕ
  flags : ℕ
  alloc : ℕ
  parts : ℕ → List UInt8

/-- mirrors NBLOCKS (rdwr_efi.c:261): the blocks a label of `p` entries
takes, in the 32-bit unsigned arithmetic of its uint_t operands. -/
def nblocks (p l : ℕ) : ℕ :=
  (1 + (p * gpeSize % 2 ^ 32 + (l - 1)) % 2 ^ 32 / l) % 2 ^ 32

/-- mirrors the label_len computation of efi_read (rdwr_efi.c:641-651): the
16 KiB array when NBLOCKS is under 34, else the caller's entries padded to
whole blocks, as the 32-bit pattern the int holds. -/
def labelLen (nparts lbsize : ℕ) : ℕ :=
  if nblocks nparts lbsize < 34 then (efiMinArraySize + lbsize) % 2 ^ 32
  else
    let len := (nparts * gpeSize + lbsize) % 2 ^ 32
    if len % lbsize ≠ 0 then (len + lbsize) % 2 ^ 32 &&& (2 ^ 32 - 1 - (lbsize - 1))
    else len

/-- posix_memalign followed by the memset: it fails unless the alignment is
a power of two and a multiple of sizeof (void *), or when the int length is
negative. -/
def posixMemalign (align len : ℕ) : Option Label :=
  if 8 ≤ align ∧ align &&& (align - 1) = 0 ∧ len < 2 ^ 31 then some ⟨len, fun _ => 0⟩ else none

/-- mirrors the assembly loop of efi_read (rdwr_efi.c:786-828), from entry
`i` on with `k` entries left: each entry is loaded from the array behind the
header and stored into vtoc->efi_parts[i]. -/
def partsLoop (b : Label) (lbsize : ℕ) : ℕ → ℕ → DkGpt → Except Fault DkGpt
  | _, 0, vtoc => pure vtoc
  | i, k + 1, vtoc => do
    let entry ← b.read (lbsize + gpeSize * i) gpeSize
    if i < vtoc.alloc then
      partsLoop b lbsize (i + 1) k { vtoc with parts := Function.update vtoc.parts i entry }
    else throw (.partPast i)

/-- mirrors the header conversion of efi_read (rdwr_efi.c:762-775): the
fields of the header at the start of the buffer. -/
def assemble (b : Label) (di : DiskInfo) (lbsize : ℕ) (vtoc : DkGpt) : Except Fault DkGpt := do
  let version ← b.load 8 4
  let nparts ← b.load 80 4
  let partSize ← b.load 84 4
  let firstULba ← b.load 40 8
  let lastULba ← b.load 48 8
  let alternLba ← b.load 32 8
  let diskGuid ← b.load 56 16
  return { vtoc with
    version, nparts, partSize, lbasize := lbsize
    lastLba := (di.capacity + 2 ^ 64 - 1) % 2 ^ 64
    firstULba, lastULba, alternLba, diskGuid }

/-- mirrors the backup-label path of efi_read (rdwr_efi.c:675-736): the
legacy header on the next to last block, else the one on the last block,
then the entries from PartitionEntryLBA up to the header, if they fit in
label_len less a header. -/
def backupLabel (di : DiskInfo) (lbsize len : ℕ) (b : Label) (vtoc : DkGpt) :
    Except Fault (ℤ × Label × DkGpt) := do
  let (c, b) ← checkLabel crc32 rdi d b 0 ((di.capacity + 2 ^ 64 - 2) % 2 ^ 64) lbsize
  let (c, lastBlock, b) ← match c with
    | .invalid => do
      let (c, b) ← checkLabel crc32 rdi d b 0 ((di.capacity + 2 ^ 64 - 1) % 2 ^ 64) lbsize
      pure (c, c == .valid, b)
    | c => pure (c, false, b)
  if c ≠ .valid then return (c.code, b, vtoc)
  let lba ← b.load 72 8
  let nparts ← b.load 80 4
  let vtoc := { vtoc with flags := vtoc.flags ||| efiGptPrimaryCorrupt, nparts := nparts }
  -- the entries end where the header was found; both differences are unsigned
  let blocks := (di.capacity + 2 ^ 64 - (if lastBlock then 1 else 2) + 2 ^ 64 - lba) % 2 ^ 64
  let length := blocks * lbsize % 2 ^ 64
  if (len + 2 ^ 64 - gptSize) % 2 ^ 64 < length then return (vtEinval, b, vtoc)
  let (b, e) ← efiIoctlGet rdi d b lbsize lba length
  return (if e = none then 0 else -1, b, vtoc)

/-- mirrors efi_read (rdwr_efi.c:573-831), with `rdi` what read_disk_info
answers. The result is the return value and the caller's dk_gpt, which
efi_read changes also on the way to an error. -/
def efiReadWith (vtoc : DkGpt) : Except Fault (ℤ × DkGpt) :=
  match efiGetInfo d with
  | .error c => pure (c, vtoc)
  | .ok info => do
  let mdFlag := info.cname = "pseudo" ∧ info.dname = "md"
  let vdcFlag := info.cname = "vdc" ∧ info.dname = "vdc"
  let some di := rdi | return (vtEinval, vtoc)
  let lbsize := if di.lbsize = 0 then devBsize else di.lbsize
  let len := labelLen vtoc.nparts lbsize
  let some b := posixMemalign lbsize len | return (vtError, vtoc)
  let userLength := vtoc.nparts
  let (rval, b, vtoc) ← if mdFlag then do
      let (b, e) ← efiIoctlGet rdi d b 0 1 len
      -- a failed read returns VT_EIO or VT_ERROR at once, as the check below does
      pure (match e with | none => 0 | some e => (Check.failed e).code, b, vtoc)
    else do
      let (c, b) ← checkLabel crc32 rdi d b 0 1 lbsize
      match c with
      | .invalid => backupLabel crc32 rdi d di lbsize len b vtoc
      | .valid =>
        let lba ← b.load 72 8
        let (b, e) ← efiIoctlGet rdi d b lbsize lba ((len + 2 ^ 32 - lbsize) % 2 ^ 32)
        pure (if e = none then 0 else -1, b, vtoc)
      | .failed e =>
        -- an LDoms disk served by an old backend wants header and entries in one read
        if vdcFlag ∧ e = .einval then do
          let (c, b) ← checkLabel crc32 rdi d b 0 1 len
          pure (c.code, b, vtoc)
        else pure ((Check.failed e).code, b, vtoc)
  if rval < 0 then return (rval, vtoc)
  let vtoc ← assemble b di lbsize vtoc
  if userLength < vtoc.nparts then return (vtEinval, vtoc)
  let vtoc ← partsLoop b lbsize 0 vtoc.nparts vtoc
  return (info.partition, vtoc)

/-- A dk_gpt from calloc with room for `n` entries, efi_nparts set to `n`. -/
def DkGpt.empty (n : ℕ) : DkGpt :=
  ⟨0, n, 0, 0, 0, 0, 0, 0, 0, 0, n, fun _ => []⟩

/-- mirrors efi_alloc_and_read (rdwr_efi.c:338-381): a first efi_read with
room for the entries of a 16 KiB array, and when the label wants more, a
second one after realloc to the header's count. -/
def efiAllocAndReadWith : Except Fault (ℤ × Option DkGpt) := do
  let nparts := efiMinArraySize / gpeSize
  let (rval, vtoc) ← efiReadWith crc32 rdi d (DkGpt.empty nparts)
  let (rval, vtoc) ← if rval = vtEinval ∧ nparts < vtoc.nparts then
      efiReadWith crc32 rdi d { vtoc with alloc := vtoc.nparts }
    else pure (rval, vtoc)
  return (rval, if rval < 0 then none else some vtoc)

section Loop

variable {b : Label} {lbsize : ℕ}

/-- Inside the buffer and the caller's allocation, the assembly loop stores
into entry `j` the 128 bytes at `lbsize + 128 j`, those that efi_read read
behind the header, and leaves every other entry as it was. -/
theorem partsLoop_ok : ∀ {i k : ℕ} {vtoc : DkGpt},
    lbsize + gpeSize * (i + k) ≤ b.len → i + k ≤ vtoc.alloc →
    ∃ parts, partsLoop b lbsize i k vtoc = .ok { vtoc with parts } ∧
      (∀ j, i ≤ j → j < i + k → parts j = Buffer.read b.mem (lbsize + gpeSize * j) gpeSize) ∧
      ∀ j, j < i ∨ i + k ≤ j → parts j = vtoc.parts j
  | _, 0, vtoc, _, _ => ⟨vtoc.parts, rfl, fun _ h h' => by omega, fun _ _ => rfl⟩
  | i, k + 1, vtoc, hfit, halloc => by
    have hread : lbsize + gpeSize * i + gpeSize ≤ b.len := by
      have : gpeSize * (i + 1) ≤ gpeSize * (i + (k + 1)) := Nat.mul_le_mul_left _ (by omega)
      rw [Nat.mul_succ] at this
      omega
    -- the first entry fits; the rest of the loop is the loop from i + 1
    let vtoc₁ : DkGpt :=
      { vtoc with parts := Function.update vtoc.parts i (Buffer.read b.mem (lbsize + gpeSize * i) gpeSize) }
    obtain ⟨parts, hrun, hin, hout⟩ := @partsLoop_ok (i + 1) k vtoc₁
      (by rw [show i + 1 + k = i + (k + 1) by omega]; exact hfit) (by dsimp only [vtoc₁]; omega)
    refine ⟨parts, ?_, fun j hij hj => ?_, fun j hj => ?_⟩
    · rw [partsLoop, Label.read_of_le hread]
      simp only [bind, Except.bind, if_pos (show i < vtoc.alloc by omega)]
      exact hrun
    · rcases Nat.eq_or_lt_of_le hij with rfl | hij
      · rw [hout i (.inl (by omega))]
        exact Function.update_self ..
      · exact hin j hij (by omega)
    · rw [hout j (by omega)]
      exact Function.update_of_ne (by omega) ..

/-- The assembly loop faults at the first entry it reaches that does not fit
in the buffer: reading it runs past the end. -/
theorem partsLoop_readPast : ∀ {i k j : ℕ} {vtoc : DkGpt},
    i ≤ j → j < i + k → j ≤ vtoc.alloc →
    (∀ m, i ≤ m → m < j → lbsize + gpeSize * m + gpeSize ≤ b.len) →
    b.len < lbsize + gpeSize * j + gpeSize →
    partsLoop b lbsize i k vtoc = .error (.readPast (max (lbsize + gpeSize * j) b.len))
  | _, 0, _, _, hij, hj, _, _, _ => absurd hj (by omega)
  | i, k + 1, j, vtoc, hij, hj, halloc, hfit, hout => by
    rcases Nat.eq_or_lt_of_le hij with rfl | hij
    · rw [partsLoop, Label.read_of_lt hout]
      rfl
    · rw [partsLoop, Label.read_of_le (hfit i le_rfl hij)]
      simp only [bind, Except.bind, if_pos (show i < vtoc.alloc by omega)]
      exact partsLoop_readPast (by omega) (by omega) halloc (fun m hm hmj => hfit m (by omega) hmj) hout

end Loop

/-- Once NBLOCKS of the caller's count is under 34, label_len is the 16 KiB
array and a block, whatever the count: with up to 32 blocks of entries on a
block of at most 64 KiB, a count past 128 no longer fits behind the header. -/
theorem labelLen_lt_of_count {n l : ℕ} (hl : 0 < l) (hl' : l ≤ 2 ^ 16) (hn : n * gpeSize ≤ 32 * l)
    (hmin : efiMinArraySize < n * gpeSize) : labelLen n l < l + gpeSize * n := by
  have hprod : n * gpeSize % 2 ^ 32 = n * gpeSize := Nat.mod_eq_of_lt (by omega)
  have hsum : (n * gpeSize + (l - 1)) % 2 ^ 32 = n * gpeSize + (l - 1) := Nat.mod_eq_of_lt (by omega)
  have hdiv : (n * gpeSize + (l - 1)) / l < 33 := (Nat.div_lt_iff_lt_mul hl).2 (by omega)
  have hsmall : nblocks n l < 34 := by
    rw [nblocks, hprod, hsum, Nat.mod_eq_of_lt (by omega : 1 + _ < 2 ^ 32)]
    omega
  rw [labelLen, if_pos hsmall]
  simp only [efiMinArraySize, gpeSize] at hmin ⊢
  omega

/- Were read_disk_info to answer 4 KiB blocks, a primary header at LBA 1
announcing 200 entries at LBA 2 (whatever crc32 is, here the one that is
always 0) would send efi_alloc_and_read into a second efi_read whose 20 KiB
buffer holds 128 entries, and the loop reads entry 128 past its end. -/
example :
    (efiAllocAndReadWith (fun _ => 0) (some ⟨16, 4096⟩)
      ⟨.ok ⟨"sd", "sda", 0⟩,
        store little (store little (store little (store little (fun _ => 0)
          4096 8 efiSignature) 4108 4 92) 4168 8 2) 4176 4 200, 65536⟩ matches
      .error (.readPast 20480)) = true := by
  decide +kernel

end Read

/-- efi_read as this port builds it. -/
def efiRead (crc32 : List UInt8 → UInt32) (d : Disk) (vtoc : DkGpt) : Except Fault (ℤ × DkGpt) :=
  efiReadWith crc32 (readDiskInfo d) d vtoc

/-- efi_alloc_and_read as this port builds it. -/
def efiAllocAndRead (crc32 : List UInt8 → UInt32) (d : Disk) : Except Fault (ℤ × Option DkGpt) :=
  efiAllocAndReadWith crc32 (readDiskInfo d) d

theorem efiGetInfo_neg {d : Disk} {c : ℤ} (h : efiGetInfo d = .error c) : c < 0 := by
  unfold efiGetInfo at h
  split at h <;> cases h <;> decide

/-- Without an answer from read_disk_info, efi_read returns a negative code
and leaves the caller's dk_gpt as it was. -/
theorem efiReadWith_none (crc32 : List UInt8 → UInt32) (d : Disk) (vtoc : DkGpt) :
    ∃ rval, efiReadWith crc32 none d vtoc = .ok (rval, vtoc) ∧ rval < 0 := by
  unfold efiReadWith
  cases h : efiGetInfo d with
  | error c => exact ⟨c, rfl, efiGetInfo_neg h⟩
  | ok info => exact ⟨vtEinval, rfl, by decide⟩

theorem efi_read_confined (crc32 : List UInt8 → UInt32) (d : Disk) :
    (∀ vtoc, ∃ rval, efiRead crc32 d vtoc = .ok (rval, vtoc) ∧ rval < 0) ∧
      ∃ rval, efiAllocAndRead crc32 d = .ok (rval, none) ∧ rval < 0 := by
  refine ⟨efiReadWith_none crc32 d, ?_⟩
  obtain ⟨rval, hread, hneg⟩ := efiReadWith_none crc32 d (DkGpt.empty (efiMinArraySize / gpeSize))
  refine ⟨rval, ?_, hneg⟩
  -- the first efi_read leaves efi_nparts at 128, so there is no second one
  simp only [efiAllocAndRead, efiAllocAndReadWith, readDiskInfo]
  rw [hread]
  simp [DkGpt.empty, hneg, bind, Except.bind, pure, Except.pure]

end ZfsOsx.Efi
