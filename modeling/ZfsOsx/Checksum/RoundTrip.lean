import ZfsOsx.Checksum.Zio

/-!
# A checksum written on one host verifies on either

A block checksummed by `zio_checksum_compute` on a host of byte order `hw`
passes `zio_checksum_error` on a host of either order, reading the block
pointer the writer left and the same bytes, and the buffer comes back as it
was (`zio_checksum_round_trip`). What the proof uses of the table is
`ChecksumPairSpec`: the routine for the other order is the native one on a
host of that order, and the native one reads the bytes below `span size`
(`zioChecksumTable_spec`).

The reader does not see the writer's byte order; it infers it, from the block
pointer's byte order for a plain checksum and from the trailer's magic for an
embedded one, and the `_select` lemmas say that one flag, set exactly when the
orders differ, undoes the difference everywhere: in the routine called, in the
verifier written, in the checksum read (`zioEckVerify_seal`).

The statement is narrower than "every size" in two places, both by the code:

* `fletcher_2` reads its words in pairs, so a block of `8 mod 16` bytes is
  checksummed together with the 8 bytes after it, and verifies only if those
  bytes are the writer's too (`zioChecksumSpan`, `zio_fletcher2_reads_past_size`);
* the reader checks a gang block over `SPA_GANGBLOCKSIZE` bytes, whatever the
  writer's size, so a gang header verifies when it has that size.
-/
namespace ZfsOsx.Checksum

open Endian ByteOrder
open ZfsOsx.Compress (Buf p2roundup)

/-- What verification relies on of a table entry: the second routine is the
first on a host of the other byte order, and the first reads the bytes below
`span size` of its buffer only. -/
structure ChecksumPairSpec (f : ZioChecksumFunc × ZioChecksumFunc) (span : ℕ → ℕ) : Prop where
  swap : ∀ h m n, f.2 h m n = f.1 h.swap m n
  congr : ∀ h m m' n, (∀ x < span n, m x = m' x) → f.1 h m n = f.1 h m' n

/-- The bytes of a block of `s` bytes that the routine of `c` reads: `s`,
except that `fletcher_2` reads whole pairs of words. -/
def zioChecksumSpan : ZioChecksum → ℕ → ℕ
  | .zilog, s | .fletcher2, s => 16 * ((s / 8 + 1) / 2)
  | _, s => s

theorem le_zioChecksumSpan (c : ZioChecksum) {s : ℕ} (hs : s % 8 = 0) : s ≤ zioChecksumSpan c s := by
  cases c <;> simp only [zioChecksumSpan] <;> omega

theorem zioChecksumTable_spec {c : ZioChecksum} {f : ZioChecksumFunc × ZioChecksumFunc}
    (hf : (zioChecksumTable c).func = some f) : ChecksumPairSpec f (zioChecksumSpan c) := by
  cases c with
  | inherit | on => cases hf
  | off =>
    obtain rfl := Option.some.inj hf
    exact ⟨fun _ _ _ => rfl, fun _ _ _ _ _ => rfl⟩
  | label | gangHeader | sha256 =>
    obtain rfl := Option.some.inj hf
    exact ⟨fun _ _ _ => rfl, fun _ _ _ _ hm => zioChecksumSHA256_congr hm⟩
  | zilog | fletcher2 =>
    obtain rfl := Option.some.inj hf
    exact ⟨fun _ _ _ => fletcher2Byteswap_eq, fun _ _ _ _ hm => fletcher2Native_congr hm⟩
  | fletcher4 | zilog2 =>
    obtain rfl := Option.some.inj hf
    exact ⟨fun _ _ _ => fletcher4Byteswap_eq, fun _ _ _ _ hm => fletcher4Native_congr hm⟩

section HostOrder

/-! A flag `b` set exactly when the reader's order `hr` differs from the
writer's `hw`. -/

variable {hr hw : ByteOrder} {b : Bool}

theorem eq_swap_of_flag (hb : b = true ↔ hr ≠ hw) (h : b = true) : hr = hw.swap :=
  eq_swap_of_ne (hb.1 h)

theorem eq_of_flag (hb : b = true ↔ hr ≠ hw) (h : b = false) : hr = hw := by
  by_contra hne
  have ht := hb.2 hne
  rw [h] at ht
  exact Bool.false_ne_true ht

theorem ChecksumPairSpec.select {f : ZioChecksumFunc × ZioChecksumFunc} {span : ℕ → ℕ}
    (hf : ChecksumPairSpec f span) (hb : b = true ↔ hr ≠ hw) (m : Buf) (n : ℕ) :
    (if b then f.2 else f.1) hr m n = f.1 hw m n := by
  cases b with
  | true => rw [if_pos rfl, hf.swap, eq_swap_of_flag hb rfl, swap_swap]
  | false => rw [if_neg Bool.false_ne_true, eq_of_flag hb rfl]

theorem storeCksum_select (hb : b = true ↔ hr ≠ hw) (m : Buf) (a : ℕ) (v : ZioCksum) :
    storeCksum hr m a (if b then byteswapCksum v else v) = storeCksum hw m a v := by
  cases b with
  | true => rw [if_pos rfl, eq_swap_of_flag hb rfl, storeCksum_swap, byteswapCksum_byteswapCksum]
  | false => rw [if_neg Bool.false_ne_true, eq_of_flag hb rfl]

theorem loadCksum_select (hb : b = true ↔ hr ≠ hw) (m : Buf) (a : ℕ) :
    (if b then byteswapCksum (loadCksum hr m a) else loadCksum hr m a) = loadCksum hw m a := by
  cases b with
  | true => rw [if_pos rfl, eq_swap_of_flag hb rfl, loadCksum_swap, byteswapCksum_byteswapCksum]
  | false => rw [if_neg Bool.false_ne_true, eq_of_flag hb rfl]

end HostOrder

section Trailer

/-! The trailer at `e` of a block sealed on a host of order `hw`, read on a
host of order `hr`. -/

variable {hr hw : ByteOrder} {f0 : ZioChecksumFunc} {D M : Buf} {e n : ℕ}

theorem zecMagic_ne_bswap : zecMagic ≠ bswap64 zecMagic := by decide

theorem load64_seal_magic :
    load64 hr (zioEckSeal hw f0 D e n) e = if hr = hw then zecMagic else bswap64 zecMagic := by
  have hframe : load64 hr (zioEckSeal hw f0 D e n) e = load64 hr (store64 hw D e zecMagic) e :=
    load64_congr fun k hk => storeCksum_apply_of_lt (by omega)
  rw [hframe]
  split
  · rename_i h
    rw [h, load64_store64]
  · rename_i h
    rw [eq_swap_of_ne h, load64_swap, load64_store64]

/-- The reader's flag is set exactly when the orders differ. -/
theorem magic_flag_iff (hM : ∀ k < 8, M (e + k) = zioEckSeal hw f0 D e n (e + k)) :
    (load64 hr M e == bswap64 zecMagic) = true ↔ hr ≠ hw := by
  rw [load64_congr hM, load64_seal_magic, beq_iff_eq]
  split
  · rename_i h
    exact ⟨fun h' => absurd h' zecMagic_ne_bswap, fun h' => absurd h h'⟩
  · rename_i h
    exact ⟨fun _ => h, fun _ => rfl⟩

/-- With its verifier back in the trailer, a sealed block is the block the
checksum was computed over. -/
theorem seal_verifier (v : ZioCksum) :
    storeCksum hw (zioEckSeal hw f0 (storeCksum hw D (e + 8) v) e n) (e + 8) v =
      store64 hw (storeCksum hw D (e + 8) v) e zecMagic := by
  have hv : loadCksum hw (store64 hw (storeCksum hw D (e + 8) v) e zecMagic) (e + 8) = v := by
    rw [loadCksum_congr fun k hk => store64_apply_of_le (by omega), loadCksum_storeCksum]
  have hkeep := storeCksum_loadCksum (h := hw) (m := store64 hw (storeCksum hw D (e + 8) v) e zecMagic)
    (a := e + 8)
  rw [hv] at hkeep
  rw [zioEckSeal, storeCksum_storeCksum, hkeep]

/-- The embedded branch of `zio_checksum_error` on a block sealed by
`zio_checksum_compute` with the same verifier, read through a buffer that
agrees with it on the trailer and the bytes the routine reads: both checksums
are the writer's, and the buffer is given back as it was. -/
theorem zioEckVerify_seal {f : ZioChecksumFunc × ZioChecksumFunc} {span : ℕ → ℕ} {R : ℕ}
    (hf : ChecksumPairSpec f span) (hn : span n ≤ R) (he : e + 40 ≤ R) {v : ZioCksum}
    (hM : ∀ x < R, M x = zioEckSeal hw f.1 (storeCksum hw D (e + 8) v) e n x) :
    zioEckVerify hr f.1 f.2 M e n v =
      (decide (hr ≠ hw), f.1 hw (store64 hw (storeCksum hw D (e + 8) v) e zecMagic) n,
        f.1 hw (store64 hw (storeCksum hw D (e + 8) v) e zecMagic) n, M) := by
  have hb : (load64 hr M e == bswap64 zecMagic) = true ↔ hr ≠ hw :=
    magic_flag_iff fun k hk => hM (e + k) (by omega)
  have hexp : loadCksum hw M (e + 8) = f.1 hw (store64 hw (storeCksum hw D (e + 8) v) e zecMagic) n := by
    rw [loadCksum_congr fun k hk => hM _ (by omega), zioEckSeal, loadCksum_storeCksum]
  have hact : f.1 hw (storeCksum hw M (e + 8) v) n =
      f.1 hw (store64 hw (storeCksum hw D (e + 8) v) e zecMagic) n := by
    rw [← @seal_verifier hw f.1 D e n v]
    exact hf.congr _ _ _ _ fun x hx => storeCksum_apply_congr (hM x (by omega))
  simp only [zioEckVerify]
  generalize (load64 hr M e == bswap64 zecMagic) = b at hb ⊢
  rw [loadCksum_select hb, hf.select hb, storeCksum_storeCksum, storeCksum_loadCksum,
    storeCksum_select hb, hexp, hact]
  cases b with
  | true => simp [hb.1 rfl]
  | false => simp [eq_of_flag hb rfl]

end Trailer

section Steps

/-! One lemma per branch of the model: what `zio_checksum_compute` and
`zio_checksum_error` return once the table entry, the block pointer and the
trailer are known. -/

variable {h : ByteOrder} {c : ZioChecksum} {f0 f1 : ZioChecksumFunc} {zio zr : Zio} {bp : Blkptr}
  {data : Buf} {size : ℕ}

theorem zioChecksumCompute_plain (hf : (zioChecksumTable c).func = some (f0, f1))
    (heck : (zioChecksumTable c).eck = false) (hbp : zio.bp = some bp) :
    zioChecksumCompute h zio c data size = some (data, some { bp with cksum := f0 h data size }) := by
  simp only [zioChecksumCompute, hf, heck, hbp, Bool.false_eq_true, if_false, Option.map_some]

/-- The embedded branch of `zio_checksum_compute` seals the block with a
verifier `v` in its trailer, the one the reader rebuilds from the block
pointer it leaves; that pointer differs from the writer's in `blk_cksum` at
most. -/
theorem zioChecksumCompute_eck (h : ByteOrder) (data : Buf) (size : ℕ)
    (hf : (zioChecksumTable c).func = some (f0, f1)) (heck : (zioChecksumTable c).eck = true)
    (hbp : zio.bp = some bp) (hgang : c = .gangHeader → bp.gang = true) :
    ∃ v bp', zioChecksumCompute h zio c data size =
        some (zioEckSeal h f0 (storeCksum h data ((zioEckPlace h c data size).1 + 8) v)
          (zioEckPlace h c data size).1 (zioEckPlace h c data size).2, some bp') ∧
      (∀ zr : Zio, zr.bp = some bp' → zr.offset = zio.offset → zioVerifier c zr = some v) ∧
      bp'.gang = bp.gang ∧ bp'.checksum = bp.checksum ∧ bp'.psize = bp.psize ∧
      bp'.byteorder = bp.byteorder := by
  generalize hp : zioEckPlace h c data size = p
  cases c with
  | inherit | on | off | fletcher2 | fletcher4 | sha256 => cases heck
  | label =>
    obtain ⟨rfl, rfl⟩ := Prod.mk.inj (Option.some.inj hf)
    refine ⟨zioChecksumLabelVerifier zio.offset, bp, ?_, fun zr _ hoff => ?_, rfl, rfl, rfl, rfl⟩
    · simp only [zioChecksumCompute, zioChecksumTable, hbp, hp, if_true]
    · simp only [zioVerifier, hoff]
  | gangHeader =>
    obtain ⟨rfl, rfl⟩ := Prod.mk.inj (Option.some.inj hf)
    have hg := hgang rfl
    refine ⟨⟨bp.vdev, bp.offset, bp.physicalBirth, 0⟩, bp, ?_, fun zr hzr _ => ?_, rfl, rfl, rfl, rfl⟩
    · simp only [zioChecksumCompute, zioChecksumTable, hbp, hp, if_true, zioChecksumGangVerifier, hg,
        Option.map_some]
    · simp only [zioVerifier, hzr, Option.bind_some, zioChecksumGangVerifier, hg, if_true]
  | zilog | zilog2 =>
    -- a log block's trailer already holds the chain checksum, which is the verifier
    obtain ⟨rfl, rfl⟩ := Prod.mk.inj (Option.some.inj hf)
    refine ⟨loadCksum h data (p.1 + 8), { bp with cksum := loadCksum h data (p.1 + 8) }, ?_,
      fun zr hzr _ => ?_, rfl, rfl, rfl, rfl⟩
    · simp only [zioChecksumCompute, zioChecksumTable, hbp, hp, if_true, storeCksum_loadCksum]
    · simp only [zioVerifier, hzr, Option.map_some]

theorem zioChecksumError_plain (hbp : zr.bp = some bp) (hgang : bp.gang = false)
    (hc : bp.checksum = c.toNat) (hf : (zioChecksumTable c).func = some (f0, f1))
    (heck : (zioChecksumTable c).eck = false) (inject : Option ℤ) :
    zioChecksumError h inject zr =
      some (zioChecksumReport inject zr.error (zioChecksumTable c).name (bp.byteorder != h) bp.cksum
        ((if bp.byteorder != h then f1 else f0) h zr.data bp.psize) zr.data) := by
  simp only [zioChecksumError, hbp, hgang, hc, Bool.false_eq_true, if_false, ZioChecksum.decode_toNat,
    hf, heck]

theorem zioChecksumError_eck {e n : ℕ} {v : ZioCksum} (hbp : zr.bp = some bp)
    (hc : (if bp.gang then ZioChecksum.gangHeader.toNat else bp.checksum) = c.toNat)
    (hsize : (if bp.gang then spaGangblocksize else bp.psize) = size)
    (hf : (zioChecksumTable c).func = some (f0, f1)) (heck : (zioChecksumTable c).eck = true)
    (hloc : zioEckLocate h c zr.data size = some (e, n)) (hv : zioVerifier c zr = some v)
    (inject : Option ℤ) :
    zioChecksumError h inject zr =
      some (zioChecksumReport inject zr.error (zioChecksumTable c).name
        (zioEckVerify h f0 f1 zr.data e n v).1 (zioEckVerify h f0 f1 zr.data e n v).2.1
        (zioEckVerify h f0 f1 zr.data e n v).2.2.1 (zioEckVerify h f0 f1 zr.data e n v).2.2.2) := by
  simp only [zioChecksumError, hbp, hc, hsize, ZioChecksum.decode_toNat, hf, heck, if_true, hloc, hv,
    Option.map_some]

/-- With injection off, equal checksums are success. -/
theorem zioChecksumReport_eq (ioError : ℤ) (name : String) (byteswap : Bool) (cksum : ZioCksum)
    (data : Buf) :
    zioChecksumReport none ioError name byteswap cksum cksum data =
      (0, data, some ⟨cksum, cksum, name, byteswap, false, true⟩) := by
  simp [zioChecksumReport, (zioChecksumEqual_iff cksum cksum).2 rfl]

end Steps

section LogBlock

variable {hr hw : ByteOrder} {f0 : ZioChecksumFunc} {data M : Buf} {s n : ℕ} {v : ZioCksum}

/-- A log block sealed by the writer keeps the writer's `zc_nused`. -/
theorem seal_apply_nused {x : ℕ} (hx : x < zilChainEck) :
    zioEckSeal hw f0 (storeCksum hw data (zilChainEck + 8) v) zilChainEck n x = data x := by
  rw [zioEckSeal, storeCksum_apply_of_lt (by omega), store64_apply_of_lt hx,
    storeCksum_apply_of_lt (by omega)]

/-- The reader finds a sealed log block's trailer where the writer put it, and
reads `zc_nused` in the writer's order, whichever its own. -/
theorem zioEckLocate_zilog2 (hs : zilChainSize ≤ s) (hnused : (load64 hw data zilChainNused).toNat ≤ s)
    (hM : ∀ x < s, M x = zioEckSeal hw f0 (storeCksum hw data (zilChainEck + 8) v) zilChainEck n x) :
    zioEckLocate hr .zilog2 M s =
      some (zilChainEck, p2roundupTyped64 (load64 hw data zilChainNused).toNat zilMinBlksz) := by
  have hmagic : load64 hr M zilChainEck = if hr = hw then zecMagic else bswap64 zecMagic := by
    rw [load64_congr fun k hk => hM _ (by simp only [zilChainSize, zilChainEck] at hs ⊢; omega),
      load64_seal_magic]
  have hn : load64 hr M zilChainNused = load64 hr data zilChainNused :=
    load64_congr fun k hk => by
      rw [hM _ (by simp only [zilChainSize, zilChainNused] at hs ⊢; omega),
        seal_apply_nused (by simp only [zilChainNused, zilChainEck]; omega)]
  have hread : (if load64 hr M zilChainEck = zecMagic then some (load64 hr M zilChainNused)
      else if load64 hr M zilChainEck = bswap64 zecMagic then some (bswap64 (load64 hr M zilChainNused))
      else none) = some (load64 hw data zilChainNused) := by
    rw [hmagic, hn]
    by_cases h : hr = hw
    · rw [if_pos h, if_pos rfl, h]
    · rw [if_neg h, if_neg zecMagic_ne_bswap.symm, if_pos rfl, eq_swap_of_ne h, load64_swap,
        bswap64_bswap64]
  simp only [zioEckLocate, if_true, hread]
  rw [if_neg (by omega)]

theorem p2roundupTyped64_le (hs : s % zilMinBlksz = 0) (hn : n ≤ s) :
    p2roundupTyped64 n zilMinBlksz ≤ s := by
  have hround : p2roundup n zilMinBlksz ≤ s := by
    simp only [p2roundup, zilMinBlksz] at hs ⊢
    omega
  exact (Nat.mod_le _ _).trans hround

end LogBlock

/-- A block pointer for a block of `s` bytes checksummed with `c` on a host of
order `h`: a gang pointer exactly for the gang header's checksum, otherwise
naming `c` and `s`, and carrying the writer's byte order. -/
structure Blkptr.Describes (bp : Blkptr) (c : ZioChecksum) (s : ℕ) (h : ByteOrder) : Prop where
  gang_iff : bp.gang = true ↔ c = .gangHeader
  checksum_eq : bp.gang = false → bp.checksum = c.toNat
  psize_eq : bp.gang = false → bp.psize = s
  byteorder_eq : bp.byteorder = h

/-- What a block of `s` bytes needs for `c`: room for the trailer, the size the
reader assumes for a gang header, and for a log block room for `zil_chain_t`, a
whole number of `ZIL_MIN_BLKSZ` and a `zc_nused` within the block. -/
def ZioChecksumFits (h : ByteOrder) (data : Buf) (s : ℕ) : ZioChecksum → Prop
  | .label | .zilog => zioEckSize ≤ s
  | .gangHeader => s = spaGangblocksize
  | .zilog2 => zilChainSize ≤ s ∧ s % zilMinBlksz = 0 ∧ (load64 h data zilChainNused).toNat ≤ s
  | _ => True

/-- The round trip for one block: `zio_checksum_compute` on a host of order
`hw` succeeds, and `zio_checksum_error` on a host of order `hr`, given the
block pointer the writer left, the writer's offset and a buffer holding the
writer's bytes where the routine reads, returns 0 and gives the buffer back. -/
def ZioChecksumRoundTrips (hw hr : ByteOrder) (zio : Zio) (c : ZioChecksum) (data : Buf) (s : ℕ) : Prop :=
  ∃ data' bp', zioChecksumCompute hw zio c data s = some (data', some bp') ∧
    ∀ zr : Zio, zr.bp = some bp' → zr.offset = zio.offset →
      (∀ x < zioChecksumSpan c s, zr.data x = data' x) →
      ∃ info, zioChecksumError hr none zr = some (0, zr.data, some info)

section RoundTrip

variable {hw hr : ByteOrder} {c : ZioChecksum} {f0 f1 : ZioChecksumFunc} {zio : Zio} {bp : Blkptr}
  {data : Buf} {s : ℕ}

/-- A checksum kept in the block pointer. -/
theorem roundTrips_plain (hf : (zioChecksumTable c).func = some (f0, f1))
    (heck : (zioChecksumTable c).eck = false) (hbp : zio.bp = some bp) (hdesc : bp.Describes c s hw)
    (hgang : bp.gang = false) : ZioChecksumRoundTrips hw hr zio c data s := by
  have hspec := zioChecksumTable_spec hf
  refine ⟨data, _, zioChecksumCompute_plain hf heck hbp, fun zr hzr _ hM => ?_⟩
  have hb : (bp.byteorder != hr) = true ↔ hr ≠ hw := by
    rw [hdesc.byteorder_eq, bne_iff_ne, ne_comm]
  rw [zioChecksumError_plain hzr hgang (hdesc.checksum_eq hgang) hf heck]
  rw [hspec.select hb, hdesc.psize_eq hgang, hspec.congr _ _ data _ hM, zioChecksumReport_eq]
  exact ⟨_, rfl⟩

/-- An embedded checksum whose reader finds the trailer at `e` and checksums
`n` bytes, as the writer did, and reads the writer's bytes below `R`. -/
theorem roundTrips_sealed {e n R : ℕ} (hf : (zioChecksumTable c).func = some (f0, f1))
    (heck : (zioChecksumTable c).eck = true) (hbp : zio.bp = some bp) (hdesc : bp.Describes c s hw)
    (hsize : (if bp.gang then spaGangblocksize else bp.psize) = s)
    (hplace : zioEckPlace hw c data s = (e, n)) (hR : zioChecksumSpan c s = R)
    (hn : zioChecksumSpan c n ≤ R) (he : e + 40 ≤ R)
    (hloc : ∀ (M : Buf) (v : ZioCksum), (∀ x < R, M x = zioEckSeal hw f0 (storeCksum hw data (e + 8) v) e n x) →
      zioEckLocate hr c M s = some (e, n)) :
    ZioChecksumRoundTrips hw hr zio c data s := by
  have hspec := zioChecksumTable_spec hf
  obtain ⟨v, bp', hcomp, hver, hg, hc, hp, -⟩ :=
    zioChecksumCompute_eck hw data s hf heck hbp fun hc => hdesc.gang_iff.2 hc
  rw [hplace] at hcomp
  refine ⟨_, bp', hcomp, fun zr hzr hoff hM => ?_⟩
  have hread : (if bp'.gang then ZioChecksum.gangHeader.toNat else bp'.checksum) = c.toNat := by
    cases hgb : bp.gang with
    | true => rw [hg, hgb, if_pos rfl, hdesc.gang_iff.1 hgb]
    | false => rw [hg, hgb, if_neg Bool.false_ne_true, hc, hdesc.checksum_eq hgb]
  have hsize' : (if bp'.gang then spaGangblocksize else bp'.psize) = s := by rw [hg, hp, hsize]
  rw [hR] at hM
  rw [zioChecksumError_eck hzr hread hsize' hf heck (hloc zr.data v hM) (hver zr hzr hoff),
    zioEckVerify_seal hspec hn he hM, zioChecksumReport_eq]
  exact ⟨_, rfl⟩

/-- The embedded checksums other than `zilog2`: the last 40 bytes of the block. -/
theorem roundTrips_tail (hc2 : c ≠ .zilog2) (hf : (zioChecksumTable c).func = some (f0, f1))
    (heck : (zioChecksumTable c).eck = true) (hbp : zio.bp = some bp) (hdesc : bp.Describes c s hw)
    (hs8 : s % 8 = 0) (hroom : zioEckSize ≤ s) (hgangsize : bp.gang = true → s = spaGangblocksize) :
    ZioChecksumRoundTrips hw hr zio c data s := by
  have hsize : (if bp.gang then spaGangblocksize else bp.psize) = s := by
    cases hgb : bp.gang with
    | true => rw [if_pos rfl, hgangsize hgb]
    | false => rw [if_neg Bool.false_ne_true, hdesc.psize_eq hgb]
  have hspan := le_zioChecksumSpan c hs8
  exact roundTrips_sealed (e := s - zioEckSize) (n := s) hf heck hbp hdesc hsize
    (by simp only [zioEckPlace, if_neg hc2]) rfl (Nat.le_refl _)
    (by simp only [zioEckSize] at hroom ⊢; omega)
    fun M v _ => by simp only [zioEckLocate, if_neg hc2]

/-- `zilog2`: the trailer of `zil_chain_t`, over `zc_nused` rounded up. -/
theorem roundTrips_zilog2 (hbp : zio.bp = some bp) (hdesc : bp.Describes .zilog2 s hw)
    (hfits : ZioChecksumFits hw data s .zilog2) :
    ZioChecksumRoundTrips hw hr zio .zilog2 data s := by
  obtain ⟨hroom, hblk, hnused⟩ := hfits
  have hgang : bp.gang = false := by
    cases hgb : bp.gang with
    | true => exact absurd (hdesc.gang_iff.1 hgb) (by decide)
    | false => rfl
  have hsize : (if bp.gang then spaGangblocksize else bp.psize) = s := by
    rw [hgang, if_neg Bool.false_ne_true, hdesc.psize_eq hgang]
  exact roundTrips_sealed (e := zilChainEck)
    (n := p2roundupTyped64 (load64 hw data zilChainNused).toNat zilMinBlksz) (R := s) rfl rfl hbp hdesc
    hsize (by simp only [zioEckPlace, if_true]) rfl (p2roundupTyped64_le hblk hnused)
    (by simp only [zilChainSize] at hroom; simp only [zilChainEck]; omega)
    fun M v hM => zioEckLocate_zilog2 hroom hnused hM

end RoundTrip

theorem zio_checksum_round_trip (hw hr : ByteOrder) (c : ZioChecksum) (zio : Zio) (bp : Blkptr)
    (data : Buf) (s : ℕ) (hfunc : (zioChecksumTable c).func.isSome) (hbp : zio.bp = some bp)
    (hdesc : bp.Describes c s hw) (hs8 : s % 8 = 0) (hfits : ZioChecksumFits hw data s c) :
    ZioChecksumRoundTrips hw hr zio c data s := by
  have hplain : c ≠ .gangHeader → bp.gang = false := fun hc => by
    cases hgb : bp.gang with
    | true => exact absurd (hdesc.gang_iff.1 hgb) hc
    | false => rfl
  have hgangsize : c = .gangHeader → bp.gang = true → s = spaGangblocksize := by
    rintro rfl -
    exact hfits
  cases c with
  | inherit | on => cases hfunc
  | off | fletcher2 | fletcher4 | sha256 =>
    exact roundTrips_plain rfl rfl hbp hdesc (hplain (by decide))
  | label | zilog =>
    exact roundTrips_tail (by decide) rfl rfl hbp hdesc hs8 hfits fun hgb =>
      absurd (hdesc.gang_iff.1 hgb) (by decide)
  | gangHeader =>
    exact roundTrips_tail (by decide) rfl rfl hbp hdesc hs8
      (by rw [hfits]; decide) (hgangsize rfl)
  | zilog2 => exact roundTrips_zilog2 hbp hdesc hfits

theorem zio_zilog2_round_trip_swapped :
    ZioChecksumRoundTrips .little .big
      ⟨some ⟨0, 0, false, 1, 1, 9, 4096, .little, ⟨0, 0, 0, 0⟩⟩, .zilog2, 4096, 0, fun _ => 0, 0⟩
      .zilog2 (fun _ => 0) 4096 :=
  zio_checksum_round_trip .little .big .zilog2 _ ⟨0, 0, false, 1, 1, 9, 4096, .little, ⟨0, 0, 0, 0⟩⟩
    (fun _ => 0) 4096 rfl rfl ⟨by decide, fun _ => rfl, fun _ => rfl, rfl⟩ (by decide)
    (by unfold ZioChecksumFits; decide)

/-- `fletcher_2` over a block of 8 bytes: the checksum the writer stored
verifies or not depending on the byte after the block. -/
theorem zio_fletcher2_reads_past_size :
    ∃ bp', zioChecksumCompute .little ⟨some ⟨0, 0, false, 1, 1, 6, 8, .little, ⟨0, 0, 0, 0⟩⟩,
        .fletcher2, 8, 0, fun _ => 0, 0⟩ .fletcher2 (fun _ => 0) 8 = some (fun _ => 0, some bp') ∧
      (∀ x < 8, Function.update (fun _ => (0 : UInt8)) 8 1 x = 0) ∧
      (zioChecksumError .little none ⟨some bp', .fletcher2, 8, 0, fun _ => 0, 0⟩).map Prod.fst = some 0 ∧
      (zioChecksumError .little none
        ⟨some bp', .fletcher2, 8, 0, Function.update (fun _ => 0) 8 1, 0⟩).map Prod.fst = some ecksum := by
  have hzero : fletcher2Native .little (fun _ => 0) 8 = ⟨0, 0, 0, 0⟩ := by decide
  refine ⟨⟨0, 0, false, 1, 1, 6, 8, .little, ⟨0, 0, 0, 0⟩⟩, ?_, fun x hx => ?_, ?_, ?_⟩
  · rw [zioChecksumCompute_plain rfl rfl rfl, hzero]
  · rw [Function.update_of_ne (by omega)]
  · decide +kernel
  · decide +kernel

end ZfsOsx.Checksum
