import ZfsOsx.Compress.Zio

/-!
# System-attribute layouts (`module/zfs/sa.c`)

`sa_build_layouts` lays a list of attributes down in an object's bonus
buffer and, when they do not fit, in its spill block. Each buffer starts
with an `sa_hdr_phys_t`: a magic, a 16-bit word holding the layout number
and the header size, and one 16-bit length slot for each variable-length
attribute of the layout, rounded up to 8 bytes. `sa_find_sizes` sizes the
header before anything is written, and the layout loop then places the
attributes one after the other and fills the length slots. The reader,
`sa_attr_iter` through `sa_build_idx_tab`, finds the attributes again from
the layout's attribute list alone, starting the data at
`P2ROUNDUP(6 + 2 * lot_var_sizes, 8)`.

Offsets are taken from the start of each buffer; `db_data` is 8-byte
aligned, so rounding an address up to 8 rounds its offset up to 8.
`sa_find_layout` is the parameter `layoutNum`: the number of the layout for a
list of attribute numbers (the hash it is given is a function of the list).

* `sa_build_layouts_of_fits`: when the attributes, rounded to 8 bytes, and
  the header their variable-length ones need fit before the room of the
  spill's block pointer, everything lands in the bonus buffer, packed after
  a header of the size the layout says.
* `saPack_consistent`: such a packed buffer is what the reader resolves,
  for up to 16 variable-length attributes.
-/
namespace ZfsOsx.Sa

open ZfsOsx.Compress (p2roundup)

/-- `sa_buf_type_t` (include/sys/sa_impl.h:165-168) -/
inductive SaBufType
  | bonus | spill
  deriving DecidableEq, Repr

/-- The bonus type of an object as the layout code tests it: `DMU_OT_ZNODE`
for a znode of before system attributes, `DMU_OT_SA` otherwise. -/
inductive BonusType
  | znode | sa
  deriving DecidableEq, Repr

/-- `sa_bulk_attr_t` with the fields the layout reads: `sa_attr` and
`sa_length`. -/
structure SaBulkAttr where
  attr : ℕ
  length : ℕ
  deriving DecidableEq, Repr

/-- The fields of `sa_os_t` the layout reads: `sa_attr_table[attr].sa_length`,
which is 0 for a variable-length attribute, and `sa_force_spill`. -/
structure SaOs where
  regLen : ℕ → ℕ
  forceSpill : Bool

/-- What `sa_build_layouts` reads of the handle and its buffers: the bonus
type, the `db_size` of the bonus buffer, the `db_size` of `sa_spill` when
one is held, and the size of the spill buffer `dmu_spill_hold_by_bonus`
gives (`SPA_MINBLOCKSIZE`, or the size of the object's spill block). -/
structure SaHandle where
  bonustype : BonusType
  bonusSize : ℕ
  spill : Option ℕ
  spillHoldSize : ℕ
  deriving DecidableEq, Repr

/-- `sizeof (sa_hdr_phys_t)`: the magic, the layout word and one length slot. -/
@[grind] def saHdrPhysSize : ℕ := 8

/-- `offsetof(sa_hdr_phys_t, sa_lengths)` -/
def saLengthsOffset : ℕ := 6

/-- `sizeof (blkptr_t)` (include/sys/spa.h:185) -/
def blkptrSize : ℕ := 1 <<< 7

/-- `DN_MAX_BONUSLEN` (include/sys/dnode.h:82) -/
def dnMaxBonuslen : ℕ := (1 <<< 9) - 64 - blkptrSize

/-- `SA_BLKPTR_SPACE` (include/sys/sa_impl.h:210) -/
def saBlkptrSpace : ℕ := dnMaxBonuslen - blkptrSize

/-- `SPA_MAXBLOCKSIZE` (include/sys/spa.h:90) -/
def spaMaxblocksize : ℕ := 1 <<< 17

def efbig : ℤ := 27

/-! ## `sa_find_sizes` -/

/-- The locals of the loop of `sa_find_sizes`: `var_size`, `hdrsize`, `done`,
`*index`, `*total` and `*will_spill`. -/
structure SaSizesState where
  varSize : ℕ
  hdrsize : ℕ
  done : Bool
  index : ℤ
  total : ℕ
  willSpill : Bool
  deriving DecidableEq, Repr

/-- The test under `next:`: a bonus buffer spills once the attributes so far
and the header pass `full_space`.
mirrors module/zfs/sa.c:634-636 -/
def saOverflowTest (buftype : SaBufType) (fullSpace : ℕ) (st : SaSizesState) : SaSizesState :=
  if st.total + p2roundup st.hdrsize 8 > fullSpace ∧ buftype = .bonus then
    { st with willSpill := true }
  else st

/-- Where a spill *could* occur: the first attribute that reaches into the
room of the spill's block pointer. From there on `done` is set.
mirrors module/zfs/sa.c:625-631 -/
def saSpillPointTest (buftype : SaBufType) (fullSpace i : ℕ) (st : SaSizesState) :
    SaSizesState :=
  if buftype = .bonus ∧ st.index = -1 ∧ st.total + p2roundup st.hdrsize 8 > fullSpace - blkptrSize then
    { st with index := i, done := true }
  else st

/-- One iteration of the loop of `sa_find_sizes`, on attribute `i`. Once
`done` is set only the total grows: no length slot is counted any more.
mirrors module/zfs/sa.c:596-637 -/
def saFindSizesStep (regLen : ℕ → ℕ) (buftype : SaBufType) (fullSpace i : ℕ) (a : SaBulkAttr)
    (st : SaSizesState) : SaSizesState :=
  let st := { st with total := st.total + a.length }
  if st.done then saOverflowTest buftype fullSpace st
  else
    let isVarSz := decide (regLen a.attr = 0)
    let st := if isVarSz then { st with varSize := st.varSize + 1 } else st
    if isVarSz ∧ st.varSize > 1 then
      if p2roundup (st.hdrsize + 2) 8 + st.total < fullSpace then
        saOverflowTest buftype fullSpace
          (saSpillPointTest buftype fullSpace i { st with hdrsize := st.hdrsize + 2 })
      else
        -- `continue` skips the test under `next:`
        { st with done := true, index := i, willSpill := decide (buftype = .bonus) || st.willSpill }
    else saOverflowTest buftype fullSpace (saSpillPointTest buftype fullSpace i st)

/-- The loop of `sa_find_sizes` from attribute `i` on. -/
def saFindSizesLoop (regLen : ℕ → ℕ) (buftype : SaBufType) (fullSpace : ℕ) :
    ℕ → List SaBulkAttr → SaSizesState → SaSizesState
  | _, [], st => st
  | i, a :: rest, st =>
    saFindSizesLoop regLen buftype fullSpace (i + 1) rest (saFindSizesStep regLen buftype fullSpace i a st)

/-- What `sa_find_sizes` returns: the header size, and in `*index`, `*total`
and `*will_spill` the spill point, the sum of the lengths and whether a
bonus buffer spills. -/
structure SaSizes where
  hdrsize : ℕ
  index : ℤ
  total : ℕ
  willSpill : Bool
  deriving DecidableEq, Repr

/-- `sa_find_sizes(sa, attr_desc, attr_count, db, buftype, ...)` on an object
of bonus type `bonustype`, where `dbSize` is the `db_size` of a spill buffer.
For a spill buffer the caller's `*will_spill` is never read; it comes back
`false` here.
mirrors module/zfs/sa.c:569-645 -/
def saFindSizes (sa : SaOs) (attrs : List SaBulkAttr) (bonustype : BonusType) (dbSize : ℕ)
    (buftype : SaBufType) : SaSizes :=
  if buftype = .bonus ∧ sa.forceSpill = true then ⟨0, 0, 0, true⟩
  else
    let hdrsize := if bonustype = .znode then 0 else saHdrPhysSize
    let fullSpace := if buftype = .bonus then dnMaxBonuslen else dbSize
    let st := saFindSizesLoop sa.regLen buftype fullSpace 0 attrs ⟨0, hdrsize, false, -1, 0, false⟩
    ⟨p2roundup st.hdrsize 8, st.index, st.total, st.willSpill⟩

/-! ## `sa_build_layouts` -/

/-- An attribute as the layout loop lays it down: `sa_addr` as an offset into
the buffer it was written to, and `sa_size`. -/
structure SaPlaced where
  attr : ℕ
  buf : SaBufType
  addr : ℕ
  size : ℕ
  deriving DecidableEq, Repr

/-- `sahdr->sa_lengths[len_idx] = length` in the buffer `buf`. -/
structure SaLengthWrite where
  buf : SaBufType
  idx : ℕ
  value : ℕ
  deriving DecidableEq, Repr

/-- `SA_SET_HDR(sahdr, num, size)` on the header of the buffer `buf`. -/
structure SaHdrWrite where
  buf : SaBufType
  layoutNum : ℕ
  hdrsize : ℕ
  deriving DecidableEq, Repr

/-- The locals of the layout loop of `sa_build_layouts`: the buffer written,
`data_start` as an offset into it, `buf_space`, where the attributes of the
current buffer start (`attrs_start`), `lot_count` and `len_idx`, with what
has been written so far. -/
structure SaLayoutState where
  buftype : SaBufType
  dataStart : ℕ
  bufSpace : ℤ
  segStart : ℕ
  lotCount : ℕ
  lenIdx : ℕ
  placed : List SaPlaced
  lengths : List SaLengthWrite
  headers : List SaHdrWrite
  deriving DecidableEq, Repr

/-- What the layout loop reads besides its locals: the header sizes of the
bonus and spill buffers, and the `db_size` of `sa_spill` (`none` while it
is `NULL`). -/
structure SaLayoutEnv where
  hdrsize : ℕ
  spillhdrsize : ℕ
  spill : Option ℕ
  deriving DecidableEq, Repr

/-- The attribute numbers of the current buffer, `attrs_start[0 .. lot_count)`. -/
def SaLayoutState.lotAttrs (st : SaLayoutState) (attrs : List SaBulkAttr) : List ℕ :=
  ((attrs.map SaBulkAttr.attr).drop st.segStart).take st.lotCount

/-- The length the layout gives attribute `a`: its registered length, or
`sa_length` for a variable-length one. -/
def saAttrLength (regLen : ℕ → ℕ) (a : SaBulkAttr) : ℕ :=
  if regLen a.attr = 0 then a.length else regLen a.attr

/-- The switch to the spill buffer at attribute `i`. The bonus header is
written first, unless the spill is forced; without a held spill buffer the
code dereferences `NULL`.
mirrors module/zfs/sa.c:740-757 -/
def saSwitchToSpill (sa : SaOs) (bonustype : BonusType) (env : SaLayoutEnv)
    (layoutNum : List ℕ → ℕ) (attrs : List SaBulkAttr) (i : ℕ) (st : SaLayoutState) :
    Option SaLayoutState := do
  if bonustype ≠ .sa then none
  let headers := if st.buftype = .bonus ∧ sa.forceSpill = false then
      st.headers ++ [⟨.bonus, layoutNum (st.lotAttrs attrs), env.hdrsize⟩]
    else st.headers
  let spillSize ← env.spill
  some { st with
    buftype := .spill,
    dataStart := env.spillhdrsize,
    bufSpace := (spillSize : ℤ) - env.spillhdrsize,
    segStart := i,
    lotCount := 0,
    lenIdx := 0,
    headers := headers }

/-- Attribute `a` laid down at `data_start` of the current buffer, with its
length in the next slot when it is variable-length.
mirrors module/zfs/sa.c:758-769 -/
def SaLayoutState.place (regLen : ℕ → ℕ) (a : SaBulkAttr) (st : SaLayoutState) : SaLayoutState :=
  let length := saAttrLength regLen a
  let isVar := decide (regLen a.attr = 0)
  { st with
    placed := st.placed ++ [⟨a.attr, st.buftype, st.dataStart, length⟩],
    lengths := if isVar then st.lengths ++ [⟨st.buftype, st.lenIdx, length⟩] else st.lengths,
    lenIdx := if isVar then st.lenIdx + 1 else st.lenIdx,
    dataStart := p2roundup (st.dataStart + length) 8,
    bufSpace := st.bufSpace - p2roundup length 8,
    lotCount := st.lotCount + 1 }

/-- One iteration of the layout loop, on attribute `i`.
mirrors module/zfs/sa.c:732-770 -/
def saLayoutStep (sa : SaOs) (bonustype : BonusType) (env : SaLayoutEnv)
    (layoutNum : List ℕ → ℕ) (attrs : List SaBulkAttr) (i : ℕ) (a : SaBulkAttr)
    (st : SaLayoutState) : Option SaLayoutState := do
  let st ← if st.bufSpace < saAttrLength sa.regLen a then
      saSwitchToSpill sa bonustype env layoutNum attrs i st
    else some st
  some (st.place sa.regLen a)

/-- The layout loop from attribute `i` on. -/
def saLayoutLoop (sa : SaOs) (bonustype : BonusType) (env : SaLayoutEnv)
    (layoutNum : List ℕ → ℕ) (attrs : List SaBulkAttr) :
    ℕ → List SaBulkAttr → SaLayoutState → Option SaLayoutState
  | _, [], st => some st
  | i, a :: rest, st => do
    let st ← saLayoutStep sa bonustype env layoutNum attrs i a st
    saLayoutLoop sa bonustype env layoutNum attrs (i + 1) rest st

/-- What `sa_build_layouts` leaves: the bonus length it set, the size of the
spill buffer when it spilled, and what it wrote. -/
structure SaLayout where
  bonuslen : ℕ
  spillSize : Option ℕ
  placed : List SaPlaced
  lengths : List SaLengthWrite
  headers : List SaHdrWrite
  deriving DecidableEq, Repr

/-- The layout loop and the header of the last buffer, given the bonus
header size, the spill's header size and spill buffer, and the starting
`buf_space`.
mirrors module/zfs/sa.c:715-786 -/
def saLayDown (sa : SaOs) (bonustype : BonusType) (env : SaLayoutEnv)
    (layoutNum : List ℕ → ℕ) (attrs : List SaBulkAttr) (bufSpace : ℤ) (bonuslen : ℕ)
    (spillSize : Option ℕ) : Option SaLayout := do
  let st ← saLayoutLoop sa bonustype env layoutNum attrs 0 attrs
    ⟨.bonus, env.hdrsize, bufSpace, 0, 0, 0, [], [], []⟩
  let lot := layoutNum (st.lotAttrs attrs)
  if ¬((bonustype = .znode ∧ lot = 0) ∨ (bonustype = .sa ∧ lot > 1)) then none
  let headers := if bonustype = .sa then
      st.headers ++ [⟨st.buftype, lot, if st.buftype = .bonus then env.hdrsize else env.spillhdrsize⟩]
    else st.headers
  some ⟨bonuslen, spillSize, st.placed, st.lengths, headers⟩

/-- `sa_resize_spill(hdl, size, tx)`: the new `db_size` of the spill buffer,
`none` where `VERIFY(0 == sa_resize_spill(...))` fails.
mirrors module/zfs/sa.c:517-535 -/
def saResizeSpill (size : ℕ) : Option ℕ :=
  if size = 0 then some (1 <<< 9)
  else if size > spaMaxblocksize then none
  else some (p2roundup size (1 <<< 9))

/-- `sa_build_layouts(hdl, attr_desc, attr_count, tx)`: `none` where a
`VERIFY` fails or `NULL` is dereferenced, an error code, or the layout it
wrote. The index rebuilt at the end is `saAttrIter`.
mirrors module/zfs/sa.c:654-810 -/
def saBuildLayouts (sa : SaOs) (hdl : SaHandle) (layoutNum : List ℕ → ℕ)
    (attrs : List SaBulkAttr) : Option (Except ℤ SaLayout) :=
  let b := saFindSizes sa attrs hdl.bonustype 0 .bonus
  if b.total > spaMaxblocksize then some (.error efbig)
  else
    let bonuslen := if b.willSpill then min saBlkptrSpace (b.total + b.hdrsize) else b.total + b.hdrsize
    if bonuslen > hdl.bonusSize then none
    else if b.willSpill then
      let spill0 := hdl.spill.getD hdl.spillHoldSize
      let s := saFindSizes sa (attrs.drop b.index.toNat) hdl.bonustype spill0 .spill
      if s.total > spaMaxblocksize then some (.error efbig)
      else do
        let spillSize ← if s.total + s.hdrsize > spill0 then saResizeSpill (s.total + s.hdrsize)
          else some spill0
        let bufSpace : ℤ := if sa.forceSpill then 0 else (saBlkptrSpace : ℤ) - b.hdrsize
        let r ← saLayDown sa hdl.bonustype ⟨b.hdrsize, s.hdrsize, some spillSize⟩ layoutNum attrs
          bufSpace bonuslen (some spillSize)
        some (.ok r)
    else do
      let r ← saLayDown sa hdl.bonustype ⟨b.hdrsize, 0, hdl.spill⟩ layoutNum attrs
        ((hdl.bonusSize : ℤ) - b.hdrsize) bonuslen none
      some (.ok r)

/-! ## The header and the index -/

/-- `SA_HDR_LAYOUT_INFO_ENCODE(x, num, size)`: the size in 8-byte units in
bits 10 to 15, the layout number in bits 0 to 9.
mirrors include/sys/sa_impl.h:157-161 -/
def saHdrLayoutInfoEncode (num size : ℕ) : ℕ := size / 8 % 64 * 1024 + num % 1024

/-- `SA_HDR_SIZE(hdr)` -/
def saHdrSize (info : ℕ) : ℕ := info / 1024 % 64 * 8

/-- `SA_HDR_LAYOUT_NUM(hdr)` -/
def saHdrLayoutNum (info : ℕ) : ℕ := info % 1024

/-- The header size of a layout with `varSizes` variable-length attributes:
`sizeof (sa_hdr_phys_t)` with one more length slot for each after the first,
rounded up to 8 bytes. -/
@[grind] def saHdrSizeFor (varSizes : ℕ) : ℕ :=
  saHdrPhysSize + if varSizes > 1 then p2roundup ((varSizes - 1) * 2) 8 else 0

/-- `SA_HDR_SIZE_MATCH_LAYOUT(hdr, tb)` for a layout with `varSizes`
variable-length attributes.
mirrors include/sys/sa_impl.h:224-227 -/
def saHdrSizeMatchLayout (info varSizes : ℕ) : Bool := saHdrSize info == saHdrSizeFor varSizes

/-- `lot_var_sizes` as `sa_add_layout_entry` counts it. -/
def saVarSizes (regLen : ℕ → ℕ) (lotAttrs : List ℕ) : ℕ :=
  (lotAttrs.filter fun attr => regLen attr = 0).length

/-- The loop of `sa_attr_iter` from `data_start` (an offset from the header)
and `length_idx` on, reading the length slots `lengths`: each attribute with
its offset, its length index and its length, as `sa_build_idx_tab` receives
them.
mirrors module/zfs/sa.c:1185-1202 -/
def saAttrIterLoop (regLen : ℕ → ℕ) (lengths : ℕ → ℕ) :
    ℕ → ℕ → List ℕ → List (ℕ × ℕ × ℕ × ℕ)
  | _, _, [] => []
  | dataStart, lengthIdx, attr :: rest =>
    let reg := regLen attr
    let attrLength := if reg ≠ 0 then reg else lengths lengthIdx
    (attr, dataStart, (if reg ≠ 0 then 0 else lengthIdx), attrLength) ::
      saAttrIterLoop regLen lengths (p2roundup (dataStart + attrLength) 8)
        (if reg ≠ 0 then lengthIdx else lengthIdx + 1) rest

/-- `sa_attr_iter(os, hdr, type, func, tab, userp)` over the layout
`lotAttrs`.
mirrors module/zfs/sa.c:1163-1203 -/
def saAttrIter (regLen : ℕ → ℕ) (bonustype : BonusType) (lotAttrs : List ℕ)
    (lengths : ℕ → ℕ) : List (ℕ × ℕ × ℕ × ℕ) :=
  let dataStart := if bonustype = .sa then
      p2roundup (saLengthsOffset + 2 * saVarSizes regLen lotAttrs) 8
    else 0
  saAttrIterLoop regLen lengths dataStart 0 lotAttrs

/-- `TOC_ATTR_ENCODE(x, len_idx, offset)` on a zeroed entry.
mirrors include/sys/sa_impl.h:80-85 -/
def tocAttrEncode (lenIdx offset : ℕ) : ℕ := 2 ^ 31 + lenIdx % 128 * 2 ^ 24 + offset % 2 ^ 24

/-- `TOC_OFF(x)` -/
def tocOff (x : ℕ) : ℕ := x % 2 ^ 23

/-- `TOC_LEN_IDX(x)`: four bits, where `TOC_ATTR_ENCODE` stores seven. -/
def tocLenIdx (x : ℕ) : ℕ := x / 2 ^ 24 % 16

/-- `sa_idx_tab` after `sa_build_idx_tab` ran on each entry of
`sa_attr_iter`, from a table `kmem_zalloc` zeroed.
mirrors module/zfs/sa.c:1148-1160 -/
def saBuildIdxTab (entries : List (ℕ × ℕ × ℕ × ℕ)) : ℕ → ℕ :=
  entries.foldl (fun tab e => Function.update tab e.1 (tocAttrEncode e.2.2.1 e.2.1)) fun _ => 0

/-- `SA_ATTR_INFO(sa, idx, hdr, attr, bulk, type, hdl)`: `sa_addr` as an
offset from the header, and `sa_size`.
mirrors include/sys/sa_impl.h:213-222 -/
def saAttrInfo (regLen : ℕ → ℕ) (idxTab : ℕ → ℕ) (lengths : ℕ → ℕ) (attr : ℕ) : ℕ × ℕ :=
  (tocOff (idxTab attr), if regLen attr = 0 then lengths (tocLenIdx (idxTab attr)) else regLen attr)

/-- The length slots of buffer `buf` after the writes `ws`, from slots that
held `old`. -/
def saLengthsOf (buf : SaBufType) (old : ℕ → ℕ) (ws : List SaLengthWrite) : ℕ → ℕ :=
  ws.foldl (fun l w => if w.buf = buf then Function.update l w.idx w.value else l) old

/-- What one buffer written by `sa_build_layouts` has to be for its reader,
given the header `hw` it got, the attributes `ps` placed in it in order, the
length slots `ws` written to it and its size `bufSize`. The header records
the size the layout of `ps` has and its number; every slot written lies in
the header; every attribute lies after the header and inside the buffer, and
ends before the next one starts; and the index the reader rebuilds resolves
each attribute to where it was written, whatever the slots held before. -/
structure SaBufferSound (regLen : ℕ → ℕ) (bufSize : ℕ) (hw : SaHdrWrite) (ps : List SaPlaced)
    (ws : List SaLengthWrite) : Prop where
  hdr_size : saHdrSizeMatchLayout (saHdrLayoutInfoEncode hw.layoutNum hw.hdrsize)
    (saVarSizes regLen (ps.map SaPlaced.attr)) = true
  layout_num : saHdrLayoutNum (saHdrLayoutInfoEncode hw.layoutNum hw.hdrsize) = hw.layoutNum
  slots_in_hdr : ∀ w ∈ ws,
    saLengthsOffset + 2 * (w.idx + 1) ≤ saHdrSize (saHdrLayoutInfoEncode hw.layoutNum hw.hdrsize)
  in_buffer : ∀ p ∈ ps,
    saHdrSize (saHdrLayoutInfoEncode hw.layoutNum hw.hdrsize) ≤ p.addr ∧ p.addr + p.size ≤ bufSize
  ordered : ps.Pairwise fun p q => p.addr + p.size ≤ q.addr
  resolves : ∀ (old : ℕ → ℕ), ∀ p ∈ ps,
    saAttrInfo regLen (saBuildIdxTab (saAttrIter regLen .sa (ps.map SaPlaced.attr)
      (saLengthsOf hw.buf old ws))) (saLengthsOf hw.buf old ws) p.attr = (p.addr, p.size)

/-! ## Packed buffers

`saPack` is what the layout loop writes while nothing makes it switch
buffers: the attributes one after the other from the end of the header,
each at the next multiple of 8. -/

/-- Attributes laid down one after the other from offset `d` of buffer `buf`,
each starting at the next multiple of 8. -/
def saPack (regLen : ℕ → ℕ) (buf : SaBufType) : ℕ → List SaBulkAttr → List SaPlaced
  | _, [] => []
  | d, a :: rest => ⟨a.attr, buf, d, saAttrLength regLen a⟩ ::
      saPack regLen buf (p2roundup (d + saAttrLength regLen a) 8) rest

/-- The length slots written for them, from slot `j` on. -/
@[grind] def saPackLengths (regLen : ℕ → ℕ) (buf : SaBufType) : ℕ → List SaBulkAttr → List SaLengthWrite
  | _, [] => []
  | j, a :: rest =>
    if regLen a.attr = 0 then ⟨buf, j, saAttrLength regLen a⟩ :: saPackLengths regLen buf (j + 1) rest
    else saPackLengths regLen buf j rest

/-- The room they take, each length rounded up to 8. -/
def saPackSize (regLen : ℕ → ℕ) (attrs : List SaBulkAttr) : ℕ :=
  (attrs.map fun a => p2roundup (saAttrLength regLen a) 8).sum

theorem le_p2roundup_eight (x : ℕ) : x ≤ p2roundup x 8 := by
  simp only [p2roundup]
  omega

theorem p2roundup_eight_add {d : ℕ} (x : ℕ) (hd : d % 8 = 0) :
    p2roundup (d + x) 8 = d + p2roundup x 8 := by
  simp only [p2roundup]
  omega

theorem p2roundup_eight_mod (x : ℕ) : p2roundup x 8 % 8 = 0 := by
  simp only [p2roundup]
  omega

theorem saVarSizes_cons (regLen : ℕ → ℕ) (attr : ℕ) (l : List ℕ) :
    saVarSizes regLen (attr :: l) = (if regLen attr = 0 then 1 else 0) + saVarSizes regLen l := by
  by_cases h : regLen attr = 0 <;> simp [saVarSizes, h, Nat.add_comm]

@[simp]
theorem saPackSize_nil (regLen : ℕ → ℕ) : saPackSize regLen [] = 0 := rfl

theorem saPackSize_cons (regLen : ℕ → ℕ) (a : SaBulkAttr) (rest : List SaBulkAttr) :
    saPackSize regLen (a :: rest) = p2roundup (saAttrLength regLen a) 8 + saPackSize regLen rest := by
  simp [saPackSize]

section Pack

variable {regLen : ℕ → ℕ} {buf : SaBufType}

theorem saPack_attr (d : ℕ) (attrs : List SaBulkAttr) :
    (saPack regLen buf d attrs).map SaPlaced.attr = attrs.map SaBulkAttr.attr := by
  induction attrs generalizing d with
  | nil => rfl
  | cons a rest ih => simp only [saPack, List.map_cons, ih]

theorem saPack_mem {d : ℕ} {attrs : List SaBulkAttr} {p : SaPlaced}
    (hp : p ∈ saPack regLen buf d attrs) :
    p.buf = buf ∧ d ≤ p.addr ∧ (regLen p.attr ≠ 0 → p.size = regLen p.attr) := by
  induction attrs generalizing d with
  | nil => cases hp
  | cons a rest ih =>
    rcases List.mem_cons.1 hp with rfl | hp
    · exact ⟨rfl, le_rfl, fun h => if_neg h⟩
    · obtain ⟨hb, hd, hs⟩ := ih hp
      have := le_p2roundup_eight (d + saAttrLength regLen a)
      exact ⟨hb, by omega, hs⟩

/-- From an offset that is a multiple of 8, the packed attributes end within
their room. -/
theorem saPack_end_le {d : ℕ} (hd : d % 8 = 0) {attrs : List SaBulkAttr} {p : SaPlaced}
    (hp : p ∈ saPack regLen buf d attrs) : p.addr + p.size ≤ d + saPackSize regLen attrs := by
  induction attrs generalizing d with
  | nil => cases hp
  | cons a rest ih =>
    rw [saPackSize_cons]
    have hup := le_p2roundup_eight (saAttrLength regLen a)
    rcases List.mem_cons.1 hp with rfl | hp
    · simp only
      omega
    · have hnext := p2roundup_eight_add (saAttrLength regLen a) hd
      have h := ih (p2roundup_eight_mod _) hp
      omega

/-- Each packed attribute ends before the next one starts. -/
theorem saPack_ordered (d : ℕ) (attrs : List SaBulkAttr) :
    (saPack regLen buf d attrs).Pairwise fun p q => p.addr + p.size ≤ q.addr := by
  induction attrs generalizing d with
  | nil => exact .nil
  | cons a rest ih =>
    refine List.pairwise_cons.2 ⟨fun q hq => ?_, ih _⟩
    have hq := (saPack_mem hq).2.1
    have := le_p2roundup_eight (d + saAttrLength regLen a)
    show d + saAttrLength regLen a ≤ q.addr
    omega

theorem saPackLengths_mem {j : ℕ} {attrs : List SaBulkAttr} {w : SaLengthWrite}
    (hw : w ∈ saPackLengths regLen buf j attrs) :
    w.buf = buf ∧ j ≤ w.idx ∧ w.idx < j + saVarSizes regLen (attrs.map SaBulkAttr.attr) := by
  induction attrs generalizing j with
  | nil => cases hw
  | cons a rest ih =>
    rw [List.map_cons, saVarSizes_cons]
    simp only [saPackLengths] at hw
    split at hw
    · rename_i hvar
      rcases List.mem_cons.1 hw with rfl | hw
      · refine ⟨rfl, le_rfl, ?_⟩
        rw [if_pos hvar]
        show j < j + (1 + _)
        omega
      · obtain ⟨hb, hj, hlt⟩ := ih hw
        simp only [hvar, if_true]
        exact ⟨hb, by omega, by omega⟩
    · rename_i hvar
      simp only [hvar, if_false]
      obtain ⟨hb, hj, hlt⟩ := ih hw
      exact ⟨hb, hj, by omega⟩

theorem saPackLengths_idx_lt (j : ℕ) (attrs : List SaBulkAttr) :
    ((saPackLengths regLen buf j attrs).map SaLengthWrite.idx).Pairwise (· < ·) := by
  induction attrs generalizing j with
  | nil => exact .nil
  | cons a rest ih =>
    simp only [saPackLengths]
    split
    · rw [List.map_cons]
      refine List.pairwise_cons.2 ⟨fun k hk => ?_, ih _⟩
      obtain ⟨w, hw, rfl⟩ := List.mem_map.1 hk
      have := (saPackLengths_mem hw).2.1
      show j < w.idx
      omega
    · exact ih _

end Pack

/-! ## The layout loop on a packed buffer -/

section Loop

variable {sa : SaOs} {bt : BonusType} {env : SaLayoutEnv} {layoutNum : List ℕ → ℕ}
  {attrs : List SaBulkAttr}

section Place

variable {regLen : ℕ → ℕ} {a : SaBulkAttr} {st : SaLayoutState}

@[simp] theorem place_buftype : (st.place regLen a).buftype = st.buftype := rfl
@[simp] theorem place_segStart : (st.place regLen a).segStart = st.segStart := rfl
@[simp] theorem place_lotCount : (st.place regLen a).lotCount = st.lotCount + 1 := rfl
@[simp] theorem place_headers : (st.place regLen a).headers = st.headers := rfl
@[simp] theorem place_dataStart :
    (st.place regLen a).dataStart = p2roundup (st.dataStart + saAttrLength regLen a) 8 := rfl
@[simp] theorem place_bufSpace :
    (st.place regLen a).bufSpace = st.bufSpace - p2roundup (saAttrLength regLen a) 8 := rfl
@[simp] theorem place_lenIdx :
    (st.place regLen a).lenIdx = if regLen a.attr = 0 then st.lenIdx + 1 else st.lenIdx := by
  simp [SaLayoutState.place]
@[simp] theorem place_placed : (st.place regLen a).placed =
    st.placed ++ [⟨a.attr, st.buftype, st.dataStart, saAttrLength regLen a⟩] := rfl
@[simp] theorem place_lengths : (st.place regLen a).lengths = if regLen a.attr = 0 then
    st.lengths ++ [⟨st.buftype, st.lenIdx, saAttrLength regLen a⟩] else st.lengths := by
  simp [SaLayoutState.place]

end Place

/-- An iteration with room for its attribute places it in the current
buffer. -/
theorem saLayoutStep_place {i : ℕ} {a : SaBulkAttr} {st : SaLayoutState}
    (h : (saAttrLength sa.regLen a : ℤ) ≤ st.bufSpace) :
    saLayoutStep sa bt env layoutNum attrs i a st = some (st.place sa.regLen a) := by
  have hroom : ¬st.bufSpace < saAttrLength sa.regLen a := by omega
  simp only [saLayoutStep, hroom, if_false, Option.bind_eq_bind, Option.bind_some]

/-- While the buffer has room for what is left, the loop packs it. -/
theorem saLayoutLoop_pack (i : ℕ) (rest : List SaBulkAttr) (st : SaLayoutState)
    (hspace : (saPackSize sa.regLen rest : ℤ) ≤ st.bufSpace) :
    ∃ st', saLayoutLoop sa bt env layoutNum attrs i rest st = some st' ∧
      st'.buftype = st.buftype ∧ st'.segStart = st.segStart ∧
      st'.lotCount = st.lotCount + rest.length ∧ st'.headers = st.headers ∧
      st'.placed = st.placed ++ saPack sa.regLen st.buftype st.dataStart rest ∧
      st'.lengths = st.lengths ++ saPackLengths sa.regLen st.buftype st.lenIdx rest := by
  induction rest generalizing i st with
  | nil => exact ⟨st, rfl, rfl, rfl, rfl, rfl, by simp [saPack], by simp [saPackLengths]⟩
  | cons a rest ih =>
    rw [saPackSize_cons] at hspace
    have hup := le_p2roundup_eight (saAttrLength sa.regLen a)
    have hplace := @saLayoutStep_place sa bt env layoutNum attrs i a st (by omega)
    obtain ⟨st', hloop, hb, hs, hc, hh, hp, hl⟩ :=
      ih (i + 1) (st.place sa.regLen a) (by rw [place_bufSpace]; omega)
    refine ⟨st', ?_, hb, hs, ?_, hh, ?_, ?_⟩
    · simp only [saLayoutLoop, hplace, Option.bind_eq_bind, Option.bind_some, hloop]
    · rw [hc, place_lotCount, List.length_cons]
      omega
    · rw [hp, place_placed, place_buftype, place_dataStart, List.append_assoc]
      rfl
    · rw [hl, place_lengths, place_buftype, place_lenIdx]
      simp only [saPackLengths]
      split <;> simp

/-- The layout loop and the last header, when the bonus buffer has room for
every attribute. -/
theorem saLayDown_pack {bufSpace : ℤ} {bonuslen : ℕ} {spillSize : Option ℕ}
    (hspace : (saPackSize sa.regLen attrs : ℤ) ≤ bufSpace)
    (hlot : 1 < layoutNum (attrs.map SaBulkAttr.attr)) :
    saLayDown sa .sa env layoutNum attrs bufSpace bonuslen spillSize =
      some ⟨bonuslen, spillSize, saPack sa.regLen .bonus env.hdrsize attrs,
        saPackLengths sa.regLen .bonus 0 attrs,
        [⟨.bonus, layoutNum (attrs.map SaBulkAttr.attr), env.hdrsize⟩]⟩ := by
  obtain ⟨st', hloop, hb, hs, hc, hh, hp, hl⟩ := @saLayoutLoop_pack sa .sa env layoutNum attrs 0
    attrs ⟨.bonus, env.hdrsize, bufSpace, 0, 0, 0, [], [], []⟩ hspace
  have hlot' : st'.lotAttrs attrs = attrs.map SaBulkAttr.attr := by
    simp only [SaLayoutState.lotAttrs, hs, hc, List.drop_zero, Nat.zero_add]
    exact List.take_of_length_le (by simp)
  simp only at hb hh hp hl
  simp only [saLayDown, hloop, hlot', hb, hh, hp, hl, Option.bind_eq_bind, Option.bind_some]
  simp [hlot]

end Loop

/-! ## Sizing a bonus buffer that has room

While no attribute reaches the spill point, `sa_find_sizes` counts one
length slot for each variable-length attribute after the first. -/

section Sizes

variable {regLen : ℕ → ℕ}

/-- The state of the loop of `sa_find_sizes` over a bonus buffer while no
attribute has reached the spill point: `k` variable-length attributes seen,
a slot for each after the first, and the lengths summed to `t`. -/
def saSizesFits (k t : ℕ) : SaSizesState :=
  ⟨k, saHdrPhysSize + 2 * (k - 1), false, -1, t, false⟩

theorem saSpillPointTest_of_le {buftype : SaBufType} {fullSpace i : ℕ} {st : SaSizesState}
    (h : st.total + p2roundup st.hdrsize 8 ≤ fullSpace - blkptrSize) :
    saSpillPointTest buftype fullSpace i st = st :=
  if_neg fun hc => absurd hc.2.2 (by omega)

theorem saOverflowTest_of_le {buftype : SaBufType} {fullSpace : ℕ} {st : SaSizesState}
    (h : st.total + p2roundup st.hdrsize 8 ≤ fullSpace) : saOverflowTest buftype fullSpace st = st :=
  if_neg fun hc => absurd hc.1 (by omega)

theorem saFindSizesStep_fits {i k t : ℕ} {a : SaBulkAttr}
    (h : t + a.length + p2roundup (saHdrPhysSize + 2 * (k + (if regLen a.attr = 0 then 1 else 0) - 1)) 8
      ≤ saBlkptrSpace) :
    saFindSizesStep regLen .bonus dnMaxBonuslen i a (saSizesFits k t) =
      saSizesFits (k + if regLen a.attr = 0 then 1 else 0) (t + a.length) := by
  have hc : saHdrPhysSize = 8 ∧ dnMaxBonuslen = 320 ∧ blkptrSize = 128 ∧ saBlkptrSpace = 192 :=
    ⟨rfl, rfl, rfl, rfl⟩
  obtain ⟨h8, h320, h128, h192⟩ := hc
  simp only [p2roundup] at h
  by_cases hv : regLen a.attr = 0
  · rw [if_pos hv] at h ⊢
    rcases Nat.eq_zero_or_pos k with rfl | hk
    · -- the first variable-length attribute has the slot of `sa_hdr_phys_t`
      simp only [saFindSizesStep, saSizesFits, hv, decide_true, if_true, Bool.false_eq_true,
        if_false, Nat.zero_add, gt_iff_lt, lt_irrefl, and_false]
      rw [saSpillPointTest_of_le (by simp only [p2roundup]; omega),
        saOverflowTest_of_le (by simp only [p2roundup]; omega)]
    · have hslot : p2roundup (saHdrPhysSize + 2 * (k - 1) + 2) 8 + (t + a.length) < dnMaxBonuslen := by
        simp only [p2roundup]
        omega
      simp only [saFindSizesStep, saSizesFits, hv, decide_true, if_true, Bool.false_eq_true,
        if_false, gt_iff_lt, true_and, show 1 < k + 1 by omega, hslot]
      rw [saSpillPointTest_of_le (by simp only [p2roundup]; omega),
        saOverflowTest_of_le (by simp only [p2roundup]; omega)]
      congr 1
      omega
  · rw [if_neg hv, Nat.add_zero] at h ⊢
    simp only [saFindSizesStep, saSizesFits, hv, decide_false, Bool.false_eq_true, if_false,
      false_and]
    rw [saSpillPointTest_of_le (by simp only [p2roundup]; omega),
      saOverflowTest_of_le (by simp only [p2roundup]; omega)]

theorem saFindSizesLoop_fits {i k t : ℕ} (attrs : List SaBulkAttr)
    (h : t + (attrs.map SaBulkAttr.length).sum +
      p2roundup (saHdrPhysSize + 2 * (k + saVarSizes regLen (attrs.map SaBulkAttr.attr) - 1)) 8
      ≤ saBlkptrSpace) :
    saFindSizesLoop regLen .bonus dnMaxBonuslen i attrs (saSizesFits k t) =
      saSizesFits (k + saVarSizes regLen (attrs.map SaBulkAttr.attr))
        (t + (attrs.map SaBulkAttr.length).sum) := by
  induction attrs generalizing i k t with
  | nil => rfl
  | cons a rest ih =>
    simp only [List.map_cons, List.sum_cons, saVarSizes_cons, p2roundup] at h
    simp only [List.map_cons, List.sum_cons, saVarSizes_cons]
    rw [saFindSizesLoop, saFindSizesStep_fits (by simp only [p2roundup]; omega),
      ih (by simp only [p2roundup]; omega)]
    congr 1 <;> omega

theorem p2roundup_hdr (v : ℕ) : p2roundup (saHdrPhysSize + 2 * (v - 1)) 8 = saHdrSizeFor v := by
  simp only [saHdrSizeFor, saHdrPhysSize, p2roundup]
  split <;> omega

/-- `sa_find_sizes` on a bonus buffer whose attributes and header fit before
the room of the spill's block pointer: the header of the layout, no spill
point, no spill. -/
theorem saFindSizes_fits {sa : SaOs} {attrs : List SaBulkAttr} {d : ℕ} (hforce : sa.forceSpill = false)
    (h : (attrs.map SaBulkAttr.length).sum +
      saHdrSizeFor (saVarSizes sa.regLen (attrs.map SaBulkAttr.attr)) ≤ saBlkptrSpace) :
    saFindSizes sa attrs .sa d .bonus =
      ⟨saHdrSizeFor (saVarSizes sa.regLen (attrs.map SaBulkAttr.attr)), -1,
        (attrs.map SaBulkAttr.length).sum, false⟩ := by
  have hstart : (⟨0, saHdrPhysSize, false, -1, 0, false⟩ : SaSizesState) = saSizesFits 0 0 := rfl
  simp only [saFindSizes, hforce, Bool.false_eq_true, and_false, if_false, if_true, reduceCtorEq,
    hstart]
  rw [saFindSizesLoop_fits attrs (by rw [Nat.zero_add, Nat.zero_add, p2roundup_hdr]; omega)]
  simp only [saSizesFits, Nat.zero_add, p2roundup_hdr]

end Sizes

theorem sum_length_le_saPackSize {regLen : ℕ → ℕ} {attrs : List SaBulkAttr}
    (hlen : ∀ a ∈ attrs, saAttrLength regLen a = a.length) :
    (attrs.map SaBulkAttr.length).sum ≤ saPackSize regLen attrs := by
  induction attrs with
  | nil => exact le_rfl
  | cons a rest ih =>
    rw [List.map_cons, List.sum_cons, saPackSize_cons, hlen a List.mem_cons_self]
    have := le_p2roundup_eight a.length
    have := ih fun b hb => hlen b (List.mem_cons_of_mem a hb)
    omega

/-- `sa_build_layouts` on attributes that fit, rounded up to 8 bytes and with
the header of their layout, before the room of the spill's block pointer:
all of them are packed in the bonus buffer after that header, which is the
only one written. -/
theorem saBuildLayouts_fits {sa : SaOs} {hdl : SaHandle} {layoutNum : List ℕ → ℕ}
    {attrs : List SaBulkAttr} (hsa : hdl.bonustype = .sa) (hforce : sa.forceSpill = false)
    (hbonus : saBlkptrSpace ≤ hdl.bonusSize)
    (hlen : ∀ a ∈ attrs, saAttrLength sa.regLen a = a.length)
    (hfit : saHdrSizeFor (saVarSizes sa.regLen (attrs.map SaBulkAttr.attr)) +
      saPackSize sa.regLen attrs ≤ saBlkptrSpace)
    (hlot : 1 < layoutNum (attrs.map SaBulkAttr.attr)) :
    saBuildLayouts sa hdl layoutNum attrs = some (.ok
      ⟨(attrs.map SaBulkAttr.length).sum + saHdrSizeFor (saVarSizes sa.regLen (attrs.map SaBulkAttr.attr)),
        none, saPack sa.regLen .bonus (saHdrSizeFor (saVarSizes sa.regLen (attrs.map SaBulkAttr.attr))) attrs,
        saPackLengths sa.regLen .bonus 0 attrs,
        [⟨.bonus, layoutNum (attrs.map SaBulkAttr.attr),
          saHdrSizeFor (saVarSizes sa.regLen (attrs.map SaBulkAttr.attr))⟩]⟩) := by
  have hsum := sum_length_le_saPackSize hlen
  have hmax : saBlkptrSpace ≤ spaMaxblocksize := by decide
  rw [saBuildLayouts, hsa, saFindSizes_fits hforce (by omega)]
  simp only [Bool.false_eq_true, if_false,
    show ¬(attrs.map SaBulkAttr.length).sum > spaMaxblocksize by omega,
    show ¬(attrs.map SaBulkAttr.length).sum +
      saHdrSizeFor (saVarSizes sa.regLen (attrs.map SaBulkAttr.attr)) > hdl.bonusSize by omega]
  rw [saLayDown_pack (by omega) hlot]
  rfl

/-! ## What the reader finds in a packed buffer -/

theorem saHdrSize_encode {num size : ℕ} (h8 : size % 8 = 0) (h : size < 512) :
    saHdrSize (saHdrLayoutInfoEncode num size) = size := by
  simp only [saHdrSize, saHdrLayoutInfoEncode]
  omega

theorem saHdrLayoutNum_encode (num size : ℕ) :
    saHdrLayoutNum (saHdrLayoutInfoEncode num size) = num % 1024 := by
  simp only [saHdrLayoutNum, saHdrLayoutInfoEncode]
  omega

theorem tocOff_tocAttrEncode {idx off : ℕ} (h : off < 2 ^ 23) :
    tocOff (tocAttrEncode idx off) = off := by
  simp only [tocOff, tocAttrEncode, Nat.reducePow] at h ⊢
  omega

/-- `TOC_LEN_IDX` gives back the length index `TOC_ATTR_ENCODE` stored only
modulo 16. -/
theorem tocLenIdx_tocAttrEncode (idx off : ℕ) : tocLenIdx (tocAttrEncode idx off) = idx % 16 := by
  simp only [tocLenIdx, tocAttrEncode, Nat.reducePow]
  omega

theorem saHdrSizeFor_mod (v : ℕ) : saHdrSizeFor v % 8 = 0 := by
  simp only [saHdrSizeFor, saHdrPhysSize, p2roundup]
  split <;> omega

/-- Where `sa_attr_iter` starts the data is the header size of the layout. -/
theorem p2roundup_lengths (v : ℕ) : p2roundup (saLengthsOffset + 2 * v) 8 = saHdrSizeFor v := by
  simp only [saHdrSizeFor, saHdrPhysSize, saLengthsOffset, p2roundup]
  split <;> omega

theorem slot_le_hdr {idx v : ℕ} (h : idx < v) : saLengthsOffset + 2 * (idx + 1) ≤ saHdrSizeFor v := by
  simp only [saHdrSizeFor, saHdrPhysSize, saLengthsOffset, p2roundup]
  split <;> omega

theorem saBuildIdxTab_apply {entries : List (ℕ × ℕ × ℕ × ℕ)} (hnd : (entries.map Prod.fst).Nodup)
    {e : ℕ × ℕ × ℕ × ℕ} (he : e ∈ entries) : saBuildIdxTab entries e.1 = tocAttrEncode e.2.2.1 e.2.1 := by
  have htab : saBuildIdxTab entries =
      Buffer.writes (fun _ => 0) (entries.map fun e => (e.1, tocAttrEncode e.2.2.1 e.2.1)) := by
    simp only [saBuildIdxTab, Buffer.writes, List.foldl_map]
  rw [htab]
  exact Buffer.writes_apply_of_mem (by rw [List.map_map]; exact hnd) (List.mem_map_of_mem he)

theorem saAttrIterLoop_fst {regLen lengths : ℕ → ℕ} (d j : ℕ) (l : List ℕ) :
    (saAttrIterLoop regLen lengths d j l).map Prod.fst = l := by
  induction l generalizing d j with
  | nil => rfl
  | cons attr rest ih => simp only [saAttrIterLoop, List.map_cons, ih]

section Reader

variable {regLen : ℕ → ℕ} {buf : SaBufType}

theorem saLengthsOf_eq_writes {old : ℕ → ℕ} {ws : List SaLengthWrite} (h : ∀ w ∈ ws, w.buf = buf) :
    saLengthsOf buf old ws = Buffer.writes old (ws.map fun w => (w.idx, w.value)) := by
  induction ws generalizing old with
  | nil => rfl
  | cons w ws ih =>
    rw [List.map_cons, Buffer.writes_cons, saLengthsOf, List.foldl_cons, if_pos (h w List.mem_cons_self)]
    exact ih fun w' hw' => h w' (List.mem_cons_of_mem w hw')

/-- Each slot written for a packed buffer holds what was written to it. -/
theorem saPackLengths_slot {j : ℕ} {attrs : List SaBulkAttr} {old : ℕ → ℕ} {w : SaLengthWrite}
    (hw : w ∈ saPackLengths regLen buf j attrs) :
    saLengthsOf buf old (saPackLengths regLen buf j attrs) w.idx = w.value := by
  rw [saLengthsOf_eq_writes fun w' hw' => (saPackLengths_mem hw').1]
  have hnd : (((saPackLengths regLen buf j attrs).map fun w => (w.idx, w.value)).map Prod.fst).Nodup := by
    rw [List.map_map]
    exact (saPackLengths_idx_lt j attrs).imp Nat.ne_of_lt
  exact Buffer.writes_apply_of_mem hnd (List.mem_map_of_mem hw)

/-- Reading a packed buffer whose slots hold the packed lengths: every
attribute is found where it was put, a variable-length one through a slot
that holds its length. -/
theorem saAttrIterLoop_pack {lengths : ℕ → ℕ} {d j : ℕ} {attrs : List SaBulkAttr}
    (hslots : ∀ w ∈ saPackLengths regLen buf j attrs, lengths w.idx = w.value) {p : SaPlaced}
    (hp : p ∈ saPack regLen buf d attrs) :
    ∃ e ∈ saAttrIterLoop regLen lengths d j (attrs.map SaBulkAttr.attr), e.1 = p.attr ∧
      e.2.1 = p.addr ∧ (regLen p.attr = 0 →
        e.2.2.1 < j + saVarSizes regLen (attrs.map SaBulkAttr.attr) ∧ lengths e.2.2.1 = p.size) := by
  induction attrs generalizing d j with
  | nil => cases hp
  | cons a rest ih =>
    have hread : (if regLen a.attr ≠ 0 then regLen a.attr else lengths j) = saAttrLength regLen a := by
      by_cases hv : regLen a.attr = 0
      · have hslot := hslots ⟨buf, j, saAttrLength regLen a⟩ (by simp [saPackLengths, hv])
        rw [if_neg (not_not.2 hv)]
        exact hslot
      · rw [if_pos hv, saAttrLength, if_neg hv]
    have hnext : ∀ w ∈ saPackLengths regLen buf (if regLen a.attr ≠ 0 then j else j + 1) rest,
        lengths w.idx = w.value := by
      intro w hw
      apply hslots
      by_cases hv : regLen a.attr = 0
      · rw [if_neg (not_not.2 hv)] at hw
        simp [saPackLengths, hv, hw]
      · rw [if_pos hv] at hw
        simpa [saPackLengths, hv] using hw
    rw [List.map_cons, saVarSizes_cons]
    simp only [saAttrIterLoop, hread]
    rcases List.mem_cons.1 hp with rfl | hp
    · refine ⟨_, List.mem_cons_self, rfl, rfl, fun hv => ?_⟩
      dsimp only
      rw [if_neg (not_not.2 hv), if_pos hv]
      refine ⟨by omega, ?_⟩
      rw [← hread, if_neg (not_not.2 hv)]
    · obtain ⟨e, he, h1, h2, h3⟩ := ih hnext hp
      refine ⟨e, List.mem_cons_of_mem _ he, h1, h2, fun hv => ?_⟩
      obtain ⟨hlt, hl⟩ := h3 hv
      refine ⟨?_, hl⟩
      split at hlt <;> split <;> omega

end Reader

/-- A packed buffer whose header and attributes fit in it, with at most 16
variable-length attributes and a layout number below 1024, is what its
reader needs. -/
theorem saPack_sound {regLen : ℕ → ℕ} {buf : SaBufType} {bufSize lot : ℕ}
    {attrs : List SaBulkAttr} (hnd : (attrs.map SaBulkAttr.attr).Nodup)
    (hv : saVarSizes regLen (attrs.map SaBulkAttr.attr) ≤ 16) (hlot : lot < 1024)
    (hfit : saHdrSizeFor (saVarSizes regLen (attrs.map SaBulkAttr.attr)) + saPackSize regLen attrs
      ≤ bufSize)
    (hsmall : saHdrSizeFor (saVarSizes regLen (attrs.map SaBulkAttr.attr)) + saPackSize regLen attrs
      < 512) :
    SaBufferSound regLen bufSize ⟨buf, lot, saHdrSizeFor (saVarSizes regLen (attrs.map SaBulkAttr.attr))⟩
      (saPack regLen buf (saHdrSizeFor (saVarSizes regLen (attrs.map SaBulkAttr.attr))) attrs)
      (saPackLengths regLen buf 0 attrs) := by
  set v := saVarSizes regLen (attrs.map SaBulkAttr.attr) with hvdef
  have hhdr : saHdrSize (saHdrLayoutInfoEncode lot (saHdrSizeFor v)) = saHdrSizeFor v :=
    saHdrSize_encode (saHdrSizeFor_mod v) (by omega)
  have hattrs := @saPack_attr regLen buf (saHdrSizeFor v) attrs
  have hend : ∀ p ∈ saPack regLen buf (saHdrSizeFor v) attrs,
      saHdrSizeFor v ≤ p.addr ∧ p.addr + p.size ≤ saHdrSizeFor v + saPackSize regLen attrs :=
    fun p hp => ⟨(saPack_mem hp).2.1, saPack_end_le (saHdrSizeFor_mod v) hp⟩
  refine ⟨?_, ?_, ?_, ?_, saPack_ordered _ _, ?_⟩
  · rw [saHdrSizeMatchLayout, hhdr, hattrs, ← hvdef, beq_self_eq_true]
  · rw [saHdrLayoutNum_encode, Nat.mod_eq_of_lt hlot]
  · intro w hw
    rw [hhdr]
    exact slot_le_hdr (by simpa using (saPackLengths_mem hw).2.2)
  · intro p hp
    rw [hhdr]
    obtain ⟨hlo, hhi⟩ := hend p hp
    exact ⟨hlo, by omega⟩
  · intro old p hp
    -- the reader starts the data where the writer did, and finds each
    -- attribute through the entry `sa_attr_iter` gave it
    have hslots : ∀ w ∈ saPackLengths regLen buf 0 attrs,
        saLengthsOf buf old (saPackLengths regLen buf 0 attrs) w.idx = w.value :=
      fun w hw => saPackLengths_slot hw
    obtain ⟨e, he, h1, h2, h3⟩ := saAttrIterLoop_pack hslots hp
    have hiter : saAttrIter regLen .sa ((saPack regLen buf (saHdrSizeFor v) attrs).map SaPlaced.attr)
        (saLengthsOf buf old (saPackLengths regLen buf 0 attrs)) =
        saAttrIterLoop regLen (saLengthsOf buf old (saPackLengths regLen buf 0 attrs)) (saHdrSizeFor v) 0
          (attrs.map SaBulkAttr.attr) := by
      simp only [saAttrIter, hattrs, if_true, ← hvdef, p2roundup_lengths]
    have htoc := saBuildIdxTab_apply (by rw [saAttrIterLoop_fst]; exact hnd) he
    have haddr : p.addr < 2 ^ 23 := by
      have := (hend p hp).2
      have : (512 : ℕ) ≤ 2 ^ 23 := by decide
      omega
    simp only [hiter, saAttrInfo]
    rw [← h1, htoc, tocOff_tocAttrEncode (by rw [h2]; exact haddr), tocLenIdx_tocAttrEncode, h2, h1]
    congr 1
    split
    · rename_i hvar
      obtain ⟨hlt, hl⟩ := h3 hvar
      rw [Nat.mod_eq_of_lt (by omega), hl]
    · rename_i hfix
      exact ((saPack_mem hp).2.2 hfix).symm

/-- `sa_build_layouts` on attributes that fit, rounded up to 8 bytes and with
the header of their layout, before the room of the spill's block pointer:
they all land in the bonus buffer, whose only header write records the
header size of their layout, and the buffer is what the reader needs. -/
theorem sa_build_layouts_of_fits {sa : SaOs} {hdl : SaHandle} {layoutNum : List ℕ → ℕ}
    {attrs : List SaBulkAttr} (hsa : hdl.bonustype = .sa) (hforce : sa.forceSpill = false)
    (hbonus : saBlkptrSpace ≤ hdl.bonusSize)
    (hlen : ∀ a ∈ attrs, saAttrLength sa.regLen a = a.length)
    (hnd : (attrs.map SaBulkAttr.attr).Nodup)
    (hv : saVarSizes sa.regLen (attrs.map SaBulkAttr.attr) ≤ 16)
    (hfit : saHdrSizeFor (saVarSizes sa.regLen (attrs.map SaBulkAttr.attr)) +
      saPackSize sa.regLen attrs ≤ saBlkptrSpace)
    (hlot : 1 < layoutNum (attrs.map SaBulkAttr.attr))
    (hlot' : layoutNum (attrs.map SaBulkAttr.attr) < 1024) :
    ∃ L hw, saBuildLayouts sa hdl layoutNum attrs = some (.ok L) ∧ L.spillSize = none ∧
      L.headers = [hw] ∧ hw.buf = .bonus ∧ hw.layoutNum = layoutNum (attrs.map SaBulkAttr.attr) ∧
      L.placed.map SaPlaced.attr = attrs.map SaBulkAttr.attr ∧ (∀ p ∈ L.placed, p.buf = .bonus) ∧
      (∀ w ∈ L.lengths, w.buf = .bonus) ∧ SaBufferSound sa.regLen hdl.bonusSize hw L.placed L.lengths := by
  have hsmall : saBlkptrSpace < 512 := by decide
  refine ⟨_, _, saBuildLayouts_fits hsa hforce hbonus hlen hfit hlot, rfl, rfl, rfl, rfl,
    saPack_attr _ _, fun p hp => (saPack_mem hp).1, fun w hw => (saPackLengths_mem hw).1,
    saPack_sound hnd hv hlot' (by omega) (by omega)⟩

example : ∃ L hw, saBuildLayouts ⟨fun _ => 0, false⟩ ⟨.sa, 320, none, 512⟩ (fun _ => 2)
      [⟨1, 100⟩, ⟨2, 24⟩] = some (.ok L) ∧ L.spillSize = none ∧ L.headers = [hw] ∧
      hw.buf = .bonus ∧ hw.layoutNum = 2 ∧ L.placed.map SaPlaced.attr = [1, 2] ∧
      (∀ p ∈ L.placed, p.buf = .bonus) ∧ (∀ w ∈ L.lengths, w.buf = .bonus) ∧
      SaBufferSound (fun _ => 0) 320 hw L.placed L.lengths :=
  sa_build_layouts_of_fits rfl rfl (by decide) (by decide) (by decide) (by decide) (by decide)
    (by decide) (by decide)

/-- Two variable-length attributes of 200 and 8 bytes in a bonus buffer of
`DN_MAX_BONUSLEN` bytes. The first passes the spill point, so `sa_find_sizes`
stops counting length slots, yet nothing spills: both land in the bonus
buffer under an 8-byte header, the second length slot is written over the
first bytes of the first attribute, and the header does not match the
layout. -/
theorem sa_build_layouts_short_header :
    saBuildLayouts ⟨fun _ => 0, false⟩ ⟨.sa, dnMaxBonuslen, none, 1 <<< 9⟩ (fun _ => 2)
        [⟨1, 200⟩, ⟨2, 8⟩] =
      some (.ok ⟨216, none, [⟨1, .bonus, 8, 200⟩, ⟨2, .bonus, 208, 8⟩],
        [⟨.bonus, 0, 200⟩, ⟨.bonus, 1, 8⟩], [⟨.bonus, 2, 8⟩]⟩) ∧
    ¬SaBufferSound (fun _ => 0) dnMaxBonuslen ⟨.bonus, 2, 8⟩
      [⟨1, .bonus, 8, 200⟩, ⟨2, .bonus, 208, 8⟩] [⟨.bonus, 0, 200⟩, ⟨.bonus, 1, 8⟩] :=
  ⟨by decide, fun h => absurd h.hdr_size (by decide)⟩

end ZfsOsx.Sa
