import ZfsOsx.Recv.Stream

/-!
# Skipping a stream in `zfs recv` (`lib/libzfs/libzfs_sendrecv.c`)

`zfs recv` reads a stream from a file descriptor with `recv_read`, whose loop
calls `read(2)` until it returns 0 and fails unless `ilen` bytes came. When a
received file system is to be skipped, `recv_skip` reads each record's
312-byte header into a 1 MiB buffer, and the payload of a `DRR_OBJECT`,
`DRR_WRITE` or `DRR_SPILL` record into the same buffer, until a `DRR_END`.
The lengths come from the records; in a stream of the other byte order each is
swapped in place before it is used.

The file is a regular one: a `read` returns the file's next bytes, as many as
it has up to its count, and never fails. The handle keeps `libzfs_error`, the
description that `zfs_error_aux` sets and the action that `zfs_error` sets.
Each `recv_read` call is kept in a ghost list with the size of the memory its
`buf` points into, its `ilen` and the bytes it stored.

Results:
* `recvReadLoop_eq`, `recvRead_eq`: `recv_read` stores the file's next bytes,
  as many as it has up to `(size_t)ilen`, and returns 0 exactly when they are
  `ilen`; it fails with `EZFS_BADSTREAM`.
* `recvSkip_isSome`: the skip loop ends on every stream.
* `recvSkip_calls`: every read of a run goes into the 1 MiB buffer and stores
  no more than it was asked for, and every header read is confined to it.
* `recvSkipRecord_spill`: a `DRR_SPILL` length is read unswapped in a stream of
  the other byte order.
* `recv_skip_write_overflow`: a `DRR_WRITE` record of 2 MiB makes `recv_skip`
  ask `recv_read` for 2 MiB into its 1 MiB buffer, and the bytes land past it.
-/

namespace ZfsOsx.Recv

open Endian ZfsOsx.Checksum
open ZfsOsx.Compress (Buf p2roundup)

/-! ## The handle -/

/-- The values of `libzfs_error` these functions set.
mirrors include/libzfs.h:66-78 -/
inductive Ezfs
  | success
  | noent
  | badstream
  deriving DecidableEq, Repr

/-- The error state of a `libzfs_handle_t`: `libzfs_error`, `libzfs_desc`
with `libzfs_desc_active`, and `libzfs_action`. -/
structure LibzfsHandle where
  error : Ezfs
  desc : String
  descActive : Bool
  action : String
  deriving DecidableEq, Repr

/-- `zfs_error_aux(hdl, desc)`.
mirrors lib/libzfs/libzfs_util.c:240-252 -/
def zfsErrorAux (hdl : LibzfsHandle) (desc : String) : LibzfsHandle :=
  { hdl with desc := desc, descActive := true }

/-- `zfs_error(hdl, error, msg)`: it keeps a description set since the last
error and clears any other, and returns -1. What `libzfs_printerr` prints is
left out.
mirrors lib/libzfs/libzfs_util.c:254-299 -/
def zfsError (hdl : LibzfsHandle) (error : Ezfs) (msg : String) : LibzfsHandle × ℤ :=
  ({ hdl with
      error := error
      action := msg
      desc := if hdl.descActive then hdl.desc else ""
      descActive := false }, -1)

/-- An error after `zfs_error_aux`: the handle names both texts. -/
@[simp] theorem zfsError_aux (hdl : LibzfsHandle) (desc : String) (error : Ezfs) (msg : String) :
    zfsError (zfsErrorAux hdl desc) error msg = (⟨error, desc, false, msg⟩, -1) := rfl

/-! ## `recv_read` -/

/-- A call of `recv_read`, kept for the results: the bytes from `buf` to the
end of its allocation, the length asked for, and the bytes stored from `buf`
on. -/
structure RecvReadCall where
  cap : ℕ
  ilen : ℤ
  stored : ℕ
  deriving DecidableEq, Repr

/-- What the reads share: the handle, the offset of `fd` in its file, the
running checksum that reads given a `zc` fold into, and the calls so far (a
ghost). -/
structure RecvIo where
  hdl : LibzfsHandle
  off : ℕ
  zc : ZioCksum
  calls : List RecvReadCall

/-- `(size_t)len`. -/
def toSizeT (len : ℤ) : ℕ := (len % 2 ^ 64).toNat

/-- The `do ... while (rv > 0)` loop of `recv_read`, for `fuel` rounds, with
`cp` bytes read and `len` left: `read(fd, cp, len)` stores the file's next
bytes, as many as it has up to `(size_t)len`, and returns their number.
mirrors lib/libzfs/libzfs_sendrecv.c:1635-1639 -/
def recvReadLoop (fd : Vnode) (off : ℕ) : ℕ → Buf → ℕ → ℤ → Buf × ℕ × ℤ
  | 0, m, cp, len => (m, cp, len)
  | fuel + 1, m, cp, len =>
    let rv := min (toSizeT len) (fd.size - (off + cp))
    let m := Buffer.copy m fd.data cp (off + cp) rv
    if 0 < rv then recvReadLoop fd off fuel m (cp + rv) (len - rv) else (m, cp, len)

/-- `recv_read(hdl, fd, buf, ilen, byteswap, zc)` on a host of order `h`,
into the memory `m` from `buf` on, of which `cap` bytes are allocated; `zc`
is whether a checksum pointer is passed. The loop has a round for every byte
left in the file and one more.
mirrors lib/libzfs/libzfs_sendrecv.c:1627-1656 -/
def recvRead (h : ByteOrder) (fd : Vnode) (m : Buf) (cap : ℕ) (ilen : ℤ) (byteswap zc : Bool)
    (io : RecvIo) : (Buf × RecvIo) × ℤ :=
  let r := recvReadLoop fd io.off (fd.size - io.off + 1) m 0 ilen
  let io := { io with off := io.off + r.2.1, calls := io.calls ++ [⟨cap, ilen, r.2.1⟩] }
  if r.2.2 ≠ 0 then
    let e := zfsError (zfsErrorAux io.hdl "failed to read from stream") .badstream "cannot receive"
    ((r.1, { io with hdl := e.1 }), e.2)
  else if zc then
    let size := toSizeT ilen
    ((r.1, { io with
        zc := if byteswap then fletcher4IncrementalByteswap h r.1 size io.zc
          else fletcher4IncrementalNative h r.1 size io.zc }), 0)
  else ((r.1, io), 0)

section Read

variable {fd : Vnode} {off : ℕ}

/-- What one `read` returns: the bytes the file has left, up to the count. -/
@[grind] def readCount (fd : Vnode) (off : ℕ) (len : ℤ) : ℕ := min (toSizeT len) (fd.size - off)

/-- A first read that gets a count's bytes leaves nothing to ask for, and one
that gets fewer reached the end of the file. -/
theorem readCount_rest (len : ℤ) (hpos : 0 < readCount fd off len) :
    readCount fd (off + readCount fd off len) (len - readCount fd off len) = 0 := by
  simp only [readCount, toSizeT] at hpos ⊢
  omega

/-- The loop of `recv_read` is one `read` and then one that returns 0. -/
theorem recvReadLoop_eq {fuel : ℕ} (hf : fd.size - off + 1 ≤ fuel) (m : Buf) (len : ℤ) :
    recvReadLoop fd off fuel m 0 len =
      (Buffer.copy m fd.data 0 off (readCount fd off len), readCount fd off len,
        len - readCount fd off len) := by
  obtain ⟨f, rfl⟩ : ∃ f, fuel = f + 1 := ⟨fuel - 1, by omega⟩
  have h1 : min (toSizeT len) (fd.size - (off + 0)) = readCount fd off len := rfl
  rw [recvReadLoop, h1]
  by_cases hpos : 0 < readCount fd off len
  · obtain ⟨g, rfl⟩ : ∃ g, f = g + 1 := ⟨f - 1, by simp only [readCount] at hpos; omega⟩
    have h2 := readCount_rest len hpos
    have h2' : min (toSizeT (len - readCount fd off len))
        (fd.size - (off + (0 + readCount fd off len))) = 0 := by
      rw [Nat.zero_add]
      exact h2
    rw [if_pos hpos, recvReadLoop, h2', if_neg (Nat.lt_irrefl 0), Buffer.copy_zero, Nat.zero_add,
      Nat.add_zero]
  · have h0 : readCount fd off len = 0 := by omega
    rw [if_neg hpos, h0, Nat.cast_zero, Int.sub_zero, Nat.add_zero]

/-- `recv_read` in one equation: it stores the file's next `readCount` bytes
and moves the offset past them; it returns 0 when they are all `ilen` asked
for, and otherwise sets the handle's error. -/
theorem recvRead_eq (h : ByteOrder) (m : Buf) (cap : ℕ) (ilen : ℤ) (byteswap zc : Bool)
    (io : RecvIo) :
    recvRead h fd m cap ilen byteswap zc io =
      let n := readCount fd io.off ilen
      let io' := { io with off := io.off + n, calls := io.calls ++ [⟨cap, ilen, n⟩] }
      let m' := Buffer.copy m fd.data 0 io.off n
      if ilen - n ≠ 0 then
        ((m', { io' with hdl := ⟨.badstream, "failed to read from stream", false, "cannot receive"⟩ }),
          -1)
      else if zc then
        ((m', { io' with
            zc := if byteswap then fletcher4IncrementalByteswap h m' (toSizeT ilen) io.zc
              else fletcher4IncrementalNative h m' (toSizeT ilen) io.zc }), 0)
      else ((m', io'), 0) := by
  rw [recvRead, recvReadLoop_eq (Nat.le_refl _)]
  rfl

variable (h : ByteOrder) (m : Buf) (cap : ℕ) (ilen : ℤ) (byteswap zc : Bool) (io : RecvIo)

@[simp] theorem recvRead_buf :
    (recvRead h fd m cap ilen byteswap zc io).1.1 =
      Buffer.copy m fd.data 0 io.off (readCount fd io.off ilen) := by
  rw [recvRead_eq]
  dsimp only
  split_ifs <;> rfl

@[simp] theorem recvRead_off :
    (recvRead h fd m cap ilen byteswap zc io).1.2.off = io.off + readCount fd io.off ilen := by
  rw [recvRead_eq]
  dsimp only
  split_ifs <;> rfl

@[simp] theorem recvRead_calls :
    (recvRead h fd m cap ilen byteswap zc io).1.2.calls =
      io.calls ++ [⟨cap, ilen, readCount fd io.off ilen⟩] := by
  rw [recvRead_eq]
  dsimp only
  split_ifs <;> rfl

/-- `recv_read` returns 0 exactly when the file had the `ilen` bytes, and -1
otherwise. -/
theorem recvRead_ret :
    (recvRead h fd m cap ilen byteswap zc io).2 =
      if ilen = readCount fd io.off ilen then 0 else -1 := by
  rw [recvRead_eq]
  by_cases he : ilen = readCount fd io.off ilen
  · have h0 : ilen - readCount fd io.off ilen = 0 := sub_eq_zero.mpr he
    rw [if_pos he]
    simp only [h0, ne_eq, not_true_eq_false, if_false]
    split_ifs <;> rfl
  · have hne : ilen - readCount fd io.off ilen ≠ 0 := sub_ne_zero.mpr he
    simp only [hne, ne_eq, not_false_eq_true, if_true, he, if_false]

/-- A `recv_read` that fails names the read in the handle. -/
theorem recvRead_err (hne : (recvRead h fd m cap ilen byteswap zc io).2 ≠ 0) :
    (recvRead h fd m cap ilen byteswap zc io).2 = -1 ∧
      (recvRead h fd m cap ilen byteswap zc io).1.2.hdl =
        ⟨.badstream, "failed to read from stream", false, "cannot receive"⟩ := by
  rw [recvRead_eq] at hne ⊢
  dsimp only at hne ⊢
  split_ifs at hne ⊢
  · exact ⟨rfl, rfl⟩
  all_goals exact absurd rfl hne

/-- A read stores no more than its count. -/
theorem readCount_le_toSizeT (len : ℤ) : readCount fd off len ≤ toSizeT len := Nat.min_le_left _ _

/-- A read stays inside the file. -/
theorem readCount_le_size (len : ℤ) : off + readCount fd off len ≤ max off fd.size := by
  simp only [readCount]
  omega

end Read

/-! ## `recv_skip` -/

/-- `buf`, the `malloc(1<<20)` of `recv_skip`.
mirrors lib/libzfs/libzfs_sendrecv.c:2443 -/
def skipBufsize : ℕ := 1 <<< 20

/-- The state of `recv_skip`: the reads' state and the memory from `buf`
on. -/
structure SkipState where
  io : RecvIo
  buf : Buf

/-- `(void) recv_read(hdl, fd, buf, ilen, B_FALSE, NULL)`: a payload read
into `buf`, its result ignored. -/
def SkipState.skipRead (h : ByteOrder) (fd : Vnode) (ilen : ℤ) (st : SkipState) : SkipState :=
  let r := recvRead h fd st.buf skipBufsize ilen false false st.io
  ⟨r.1.2, r.1.1⟩

/-- `zfs_error_aux(hdl, desc)` and `return (zfs_error(hdl, EZFS_BADSTREAM,
errbuf))`, with the `errbuf` of `recv_skip`. -/
def SkipState.fail (desc : String) (st : SkipState) : SkipState × ℤ :=
  let e := zfsError (zfsErrorAux st.io.hdl desc) .badstream "cannot receive:"
  (⟨{ st.io with hdl := e.1 }, st.buf⟩, e.2)

/-- The `switch` of `recv_skip` on the header in `buf`: `inl` to read the next
header, `inr` with what `recv_skip` returns. In a stream of the other byte
order `drr_type`, `drr_bonuslen` and `drr_write.drr_length` are swapped in
place before they are read, so they are read in the stream's order
(`load_swap`); a `DRR_SPILL` length is swapped into `drr_write.drr_length` and
read from `drr_spill.drr_length`, in the host's order. `drr_payloadlen` is
only compared with 0, which a swap keeps. `P2ROUNDUP` of the `uint32_t`
`drr_bonuslen` wraps at `2^32`; every length becomes the `int ilen`.
mirrors lib/libzfs/libzfs_sendrecv.c:2455-2508 -/
def recvSkipRecord (h : ByteOrder) (fd : Vnode) (byteswap : Bool) (st : SkipState) :
    SkipState ⊕ (SkipState × ℤ) :=
  let o := recordOrder h byteswap
  match DrrType.decode (load o st.buf 0 4) with
  | some .begin =>
    if load h st.buf 4 4 ≠ 0 then .inr (st.fail "invalid substream header") else .inl st
  | some .end_ => .inr (st, 0)
  | some .object => .inl (st.skipRead h fd (toCInt (p2roundup (load o st.buf 28 4) 8 % 2 ^ 32)))
  | some .write => .inl (st.skipRead h fd (toCInt (load o st.buf 32 8)))
  | some .spill => .inl (st.skipRead h fd (toCInt (load h st.buf 16 8)))
  | some .writeByref | some .freeobjects | some .free => .inl st
  | none => .inr (st.fail "invalid record type")

/-- The loop of `recv_skip`, for `fuel` rounds: a header read into `buf`, then
the record's `switch`; a header read that fails ends it with -1. `none` when
the fuel runs out.
mirrors lib/libzfs/libzfs_sendrecv.c:2452-2511 -/
@[grind] def recvSkipLoop (h : ByteOrder) (fd : Vnode) (byteswap : Bool) :
    ℕ → SkipState → Option (SkipState × ℤ)
  | 0, _ => none
  | fuel + 1, st =>
    let r := recvRead h fd st.buf skipBufsize drrRecordSize false false st.io
    if r.2 ≠ 0 then some (⟨r.1.2, r.1.1⟩, -1)
    else
      match recvSkipRecord h fd byteswap ⟨r.1.2, r.1.1⟩ with
      | .inl st => recvSkipLoop h fd byteswap fuel st
      | .inr res => some res

/-- `recv_skip(hdl, fd, byteswap)` with `fd` at `io.off`; `buf` is what
`malloc(1<<20)` returned. A round goes on only after a whole header was read,
so a round for every byte left and one more are enough.
mirrors lib/libzfs/libzfs_sendrecv.c:2439-2512 -/
def recvSkip (h : ByteOrder) (fd : Vnode) (byteswap : Bool) (io : RecvIo) (buf : Buf) :
    Option (SkipState × ℤ) :=
  recvSkipLoop h fd byteswap (fd.size - io.off + 1) ⟨io, buf⟩

/-! ## Every run of `recv_skip` -/

section Skip

variable (h : ByteOrder) (fd : Vnode) (byteswap : Bool)

/-- What a round of `recv_skip` may do: move the offset forward within the
file, and make reads into `buf` that store no more than they were asked. -/
structure SkipState.Extends (fd : Vnode) (st st' : SkipState) : Prop where
  off_le : st.io.off ≤ st'.io.off
  off_bound : st'.io.off ≤ max st.io.off fd.size
  calls : ∃ cs, st'.io.calls = st.io.calls ++ cs ∧
    ∀ c ∈ cs, c.cap = skipBufsize ∧ c.stored ≤ toSizeT c.ilen

namespace SkipState.Extends

variable {fd : Vnode} {st st' st'' : SkipState}

theorem refl (st : SkipState) : st.Extends fd st :=
  ⟨le_refl _, le_max_left _ _, [], (List.append_nil _).symm, fun _ hc => absurd hc List.not_mem_nil⟩

theorem trans (h₁ : st.Extends fd st') (h₂ : st'.Extends fd st'') : st.Extends fd st'' where
  off_le := le_trans h₁.off_le h₂.off_le
  off_bound := by
    have := h₁.off_bound
    have := h₂.off_bound
    omega
  calls := by
    obtain ⟨cs₁, he₁, hc₁⟩ := h₁.calls
    obtain ⟨cs₂, he₂, hc₂⟩ := h₂.calls
    refine ⟨cs₁ ++ cs₂, by rw [he₂, he₁, List.append_assoc], fun c hc => ?_⟩
    rcases List.mem_append.mp hc with hc | hc
    · exact hc₁ c hc
    · exact hc₂ c hc

end SkipState.Extends

/-- A read into `buf`. -/
theorem recvRead_extends (st : SkipState) (ilen : ℤ) :
    st.Extends fd ⟨(recvRead h fd st.buf skipBufsize ilen false false st.io).1.2,
      (recvRead h fd st.buf skipBufsize ilen false false st.io).1.1⟩ where
  off_le := by simp
  off_bound := by simpa using readCount_le_size ilen
  calls := ⟨[⟨skipBufsize, ilen, readCount fd st.io.off ilen⟩], recvRead_calls .., by
    simpa using readCount_le_toSizeT ilen⟩

theorem SkipState.skipRead_extends (st : SkipState) (ilen : ℤ) :
    st.Extends fd (st.skipRead h fd ilen) :=
  recvRead_extends h fd st ilen

theorem SkipState.fail_extends (st : SkipState) (desc : String) : st.Extends fd (st.fail desc).1 :=
  ⟨le_refl _, le_max_left _ _, [], (List.append_nil _).symm, fun _ hc => absurd hc List.not_mem_nil⟩

/-- The state a round ends in, whether the loop goes on or not. -/
def skipNext : SkipState ⊕ (SkipState × ℤ) → SkipState
  | .inl st => st
  | .inr r => r.1

theorem recvSkipRecord_extends (st : SkipState) :
    st.Extends fd (skipNext (recvSkipRecord h fd byteswap st)) := by
  unfold recvSkipRecord
  dsimp only
  split
  · split
    · exact SkipState.fail_extends fd st _
    · exact SkipState.Extends.refl st
  all_goals dsimp only [skipNext]
  · exact SkipState.Extends.refl st
  · exact SkipState.skipRead_extends h fd st _
  · exact SkipState.skipRead_extends h fd st _
  · exact SkipState.skipRead_extends h fd st _
  · exact SkipState.Extends.refl st
  · exact SkipState.Extends.refl st
  · exact SkipState.Extends.refl st
  · exact SkipState.fail_extends fd st _

/-- A round that ends `recv_skip` returns 0, or -1 with `EZFS_BADSTREAM` in
the handle. -/
theorem recvSkipRecord_ret {st : SkipState} {r : SkipState × ℤ}
    (hr : recvSkipRecord h fd byteswap st = .inr r) :
    r.2 = 0 ∨ r.2 = -1 ∧ r.1.io.hdl.error = .badstream := by
  unfold recvSkipRecord at hr
  dsimp only at hr
  split at hr
  · split at hr
    · cases hr
      exact .inr ⟨rfl, rfl⟩
    · cases hr
  all_goals first
    | (cases hr; exact .inl rfl)
    | (cases hr; exact .inr ⟨rfl, rfl⟩)
    | cases hr

/-- A header read that returns 0 has consumed a header. -/
theorem header_read_off {io : RecvIo} {m : Buf}
    (hok : (recvRead h fd m skipBufsize drrRecordSize false false io).2 = 0) :
    io.off + drrRecordSize ≤ fd.size ∧
      (recvRead h fd m skipBufsize drrRecordSize false false io).1.2.off = io.off + drrRecordSize := by
  rw [recvRead_ret] at hok
  split_ifs at hok with he
  · have hle : readCount fd io.off drrRecordSize ≤ fd.size - io.off := Nat.min_le_right _ _
    have hn : readCount fd io.off drrRecordSize = drrRecordSize := by exact_mod_cast he.symm
    have hsz : 0 < drrRecordSize := by decide
    rw [recvRead_off, hn]
    exact ⟨by omega, rfl⟩

/-- Every run of the loop keeps to `Extends`. -/
theorem recvSkipLoop_extends :
    ∀ (fuel : ℕ) (st : SkipState) {r : SkipState × ℤ},
      recvSkipLoop h fd byteswap fuel st = some r → st.Extends fd r.1
  | 0, _, _, hr => by cases hr
  | fuel + 1, st, r, hr => by
    rw [recvSkipLoop] at hr
    have hread := recvRead_extends h fd st drrRecordSize
    generalize recvRead h fd st.buf skipBufsize drrRecordSize false false st.io = rd at hr hread
    split_ifs at hr
    · cases hr
      exact hread
    · have hrec := recvSkipRecord_extends h fd byteswap ⟨rd.1.2, rd.1.1⟩
      split at hr
      · rename_i st' hst
        rw [hst] at hrec
        exact hread.trans (hrec.trans (recvSkipLoop_extends fuel st' hr))
      · rename_i res hres
        cases hr
        rw [hres] at hrec
        exact hread.trans hrec

/-- The loop ends, on every stream, before its fuel runs out: a round goes on
only after a header was read. -/
theorem recvSkipLoop_isSome :
    ∀ (fuel : ℕ) (st : SkipState), fd.size - st.io.off < fuel →
      (recvSkipLoop h fd byteswap fuel st).isSome
  | 0, _, hf => absurd hf (Nat.not_lt_zero _)
  | fuel + 1, st, hf => by
    rw [recvSkipLoop]
    have hoff := @header_read_off h fd st.io st.buf
    generalize recvRead h fd st.buf skipBufsize drrRecordSize false false st.io = rd at hoff ⊢
    split_ifs with hret
    · rfl
    · obtain ⟨hle, hoff⟩ := hoff (not_not.mp hret)
      have hrec := recvSkipRecord_extends h fd byteswap ⟨rd.1.2, rd.1.1⟩
      split
      · rename_i st' hst
        rw [hst] at hrec
        apply recvSkipLoop_isSome fuel st'
        have hmono : rd.1.2.off ≤ st'.io.off := hrec.off_le
        have hsz : 0 < drrRecordSize := by decide
        omega
      · rfl

/-- `recv_skip` ends on every stream. -/
theorem recvSkip_isSome (io : RecvIo) (buf : Buf) : (recvSkip h fd byteswap io buf).isSome :=
  recvSkipLoop_isSome h fd byteswap _ _ (by simp only; omega)

/-- Every read of a run of `recv_skip` goes into its 1 MiB buffer and stores
no more than it was asked for: a read stores past the buffer only when it was
asked for more. -/
theorem recvSkip_calls {io : RecvIo} {buf : Buf} {r : SkipState × ℤ}
    (hr : recvSkip h fd byteswap io buf = some r) :
    ∃ cs, r.1.io.calls = io.calls ++ cs ∧
      ∀ c ∈ cs, c.cap = skipBufsize ∧ c.stored ≤ toSizeT c.ilen :=
  (recvSkipLoop_extends h fd byteswap _ _ hr).calls

/-- `recv_skip` returns 0, on a `DRR_END`, or -1 with `EZFS_BADSTREAM` in the
handle. -/
theorem recvSkip_ret :
    ∀ (fuel : ℕ) (st : SkipState) {r : SkipState × ℤ},
      recvSkipLoop h fd byteswap fuel st = some r → r.2 = 0 ∨ r.2 = -1 ∧ r.1.io.hdl.error = .badstream
  | 0, _, _, hr => by cases hr
  | fuel + 1, st, r, hr => by
    rw [recvSkipLoop] at hr
    have herr := @recvRead_err fd h st.buf skipBufsize drrRecordSize false false st.io
    generalize recvRead h fd st.buf skipBufsize drrRecordSize false false st.io = rd at hr herr
    split_ifs at hr with hret
    · cases hr
      obtain ⟨hm, hh⟩ := herr hret
      exact .inr ⟨rfl, by rw [hh]⟩
    · split at hr
      · exact recvSkip_ret fuel _ hr
      · rename_i res hres
        cases hr
        exact recvSkipRecord_ret h fd byteswap hres

/-- In a stream of the other byte order the `DRR_SPILL` length is read
unswapped: the payload read asks for the stream's length with its bytes
reversed, where a `DRR_WRITE` payload read asks for the stream's length. -/
theorem recvSkipRecord_spill (st : SkipState)
    (ht : DrrType.decode (load h.swap st.buf 0 4) = some .spill) :
    recvSkipRecord h fd true st =
      .inl (st.skipRead h fd (toCInt (reverse 8 (load h.swap st.buf 16 8)))) := by
  have hl : reverse 8 (load h.swap st.buf 16 8) = load h st.buf 16 8 := by
    rw [← load_swap, ByteOrder.swap_swap]
  rw [hl]
  unfold recvSkipRecord
  simp only [recordOrder, if_true, ht]

example : toCInt (reverse 8 8) = 0 := by decide

end Skip

/-! ## A stream that overflows the buffer -/

/-- A handle with no error set. -/
def hdlInit : LibzfsHandle := ⟨.success, "", false, ""⟩

/-- On a little-endian host, skipping the `DRR_WRITE` record of `writeStream`
asks `recv_read` for its 2 MiB length into the 1 MiB buffer, and the stream's
byte at `312 + 2^20` lands at `buf + (1<<20)`. -/
theorem recv_skip_write_overflow :
    ∃ r, recvSkip .little writeStream false ⟨hdlInit, 0, ⟨0, 0, 0, 0⟩, []⟩ (fun _ => 0) = some r ∧
      (⟨skipBufsize, 2 ^ 21, 2 ^ 21⟩ : RecvReadCall) ∈ r.1.io.calls ∧
      r.1.buf skipBufsize = writeStream.data (drrRecordSize + skipBufsize) ∧
      skipBufsize < 2 ^ 21 := by
  refine ⟨_, rfl, ?_, ?_, by decide⟩
  · decide
  · decide

end ZfsOsx.Recv
