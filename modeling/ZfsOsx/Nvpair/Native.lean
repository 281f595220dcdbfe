import ZfsOsx.Nvpair.Lookup

/-!
# Decoding a native packed nvpair (`module/nvpair/nvpair.c`)

`nvlist_unpack` with `NV_ENCODE_NATIVE` reads each pair's size from the
stream (`nvs_native_nvpair`), copies that many bytes into a buffer of that
size (`native_cp`), and works on the copy: `nvs_native_nvp_op` checks the name
and the room the type and element count need, descends into embedded lists
and turns the strings of a string array into pointers, and `i_validate_nvpair`
checks the whole pair again. The room checked for strings leaves the strings
out, and they are measured with `strlen`, which stops only at a NUL.

The model reads the `decode_len` bytes of the copy and reports a read past
them as `outside`. Layout of `sys/nvpair.h` on a 64-bit little-endian kernel
build: `nvp_size` at 0, `nvp_name_sz` at 4, `nvp_value_elem` at 8,
`nvp_type` at 12, the name at 16 and the value at `NV_ALIGN(16 + nvp_name_sz)`.
The embedded lists' own pairs follow in the stream and are decoded pair by
pair in turn; `decodeNvpair` returns their `nvl_nvflag`s.

* `decodeNvpair_outside`: a read past the pair happens only for a
  `DATA_TYPE_STRING` or `DATA_TYPE_STRING_ARRAY` value.
* `string_array_reads_past_pair`: a 32-byte string array pair is scanned from
  its 33rd byte on.
-/
namespace ZfsOsx.Nvpair

/-- How decoding a pair stops. -/
inductive DecodeFault
  | efault
  | enotsup
  /-- The byte at `off`, past the `decode_len` bytes of the pair, was read. -/
  | outside (off : ℕ)
  deriving DecidableEq, Repr

/-- The decoding of one pair. -/
abbrev Decode := Except DecodeFault

/-- The byte at `o` of the pair. -/
def readByte (b : List UInt8) (o : ℕ) : Decode UInt8 :=
  match b[o]? with
  | some x => pure x
  | none => throw (.outside o)

/-- The `k`-byte little-endian word at `o`. -/
def readLE (b : List UInt8) (o : ℕ) : ℕ → Decode ℕ
  | 0 => pure 0
  | k + 1 => do
    let x ← readByte b o
    let r ← readLE b (o + 1) k
    pure (x.toNat + 256 * r)

/-- A `w`-bit two's complement word. -/
def signed (w v : ℕ) : ℤ := if v < 2 ^ (w - 1) then v else (v : ℤ) - 2 ^ w

/-- An `int32_t` compared with an `unsigned long`: converted to it. -/
def toULong (z : ℤ) : ℕ := (z % 2 ^ 64).toNat

/-- `INT32_MAX`. -/
def int32Max : ℕ := 2 ^ 31 - 1

/-- The bytes of a string before its first NUL, if it has one. -/
def strlenList : List UInt8 → Option ℕ
  | [] => none
  | x :: xs => if x = 0 then some 0 else (strlenList xs).map (· + 1)

/-- `strlen` of the string at `o`: without a NUL before the end of the pair,
the scan goes on past it. -/
def strlenAt (b : List UInt8) (o : ℕ) : Decode ℕ :=
  match strlenList (b.drop o) with
  | some n => pure n
  | none => throw (.outside (max o b.length))

/-- `NV_ALIGN(x)`. -/
def nvAlign (x : ℕ) : ℕ := (x + 7) / 8 * 8

/-- `NVP_SIZE_CALC(name_len, data_len)`, with `sizeof (nvpair_t) = 16`. -/
def nvpSizeCalc (nameLen dataLen : ℕ) : ℕ := nvAlign (16 + nameLen) + nvAlign dataLen

/-- The types of `data_type_t` by their codes, in a kernel build. -/
def kernelTypes : List DataType :=
  [.unknown, .boolean, .byte, .int16, .uint16, .int32, .uint32, .int64, .uint64, .string,
    .byteArray, .int16Array, .uint16Array, .int32Array, .uint32Array, .int64Array, .uint64Array,
    .stringArray, .hrtime, .nvlist, .nvlistArray, .booleanValue, .int8, .uint8, .booleanArray,
    .int8Array, .uint8Array]

/-- The type with code `z`, if there is one. -/
def DataType.ofCode (z : ℤ) : Option DataType := if 0 ≤ z then kernelTypes[z.toNat]? else none

/-- `i_validate_type_nelem` in a kernel build.
mirrors module/nvpair/nvpair.c:388-433 -/
def iValidateTypeNelem (t : DataType) (nelem : ℕ) : Bool :=
  match t with
  | .boolean => nelem = 0
  | .booleanValue | .byte | .int8 | .uint8 | .int16 | .uint16 | .int32 | .uint32 | .int64
  | .uint64 | .string | .hrtime | .nvlist => nelem = 1
  | .booleanArray | .byteArray | .int8Array | .uint8Array | .int16Array | .uint16Array
  | .int32Array | .uint32Array | .int64Array | .uint64Array | .stringArray | .nvlistArray => true
  | .unknown | .double => false

/-- The value size of `i_get_value_size` without the strings: `boolean_t`
takes 4 bytes, a packed `nvlist_t` 24, a pointer 8. -/
def valueSizeNull (t : DataType) (nelem : ℕ) : ℕ :=
  match t with
  | .boolean | .string | .unknown | .double => 0
  | .byte | .int8 | .uint8 => 1
  | .int16 | .uint16 => 2
  | .booleanValue | .int32 | .uint32 => 4
  | .int64 | .uint64 | .hrtime => 8
  | .byteArray | .int8Array | .uint8Array => nelem
  | .int16Array | .uint16Array => nelem * 2
  | .booleanArray | .int32Array | .uint32Array => nelem * 4
  | .int64Array | .uint64Array | .stringArray => nelem * 8
  | .nvlist => 24
  | .nvlistArray => nelem * 8 + nelem * 24

/-- `i_get_value_size(type, NULL, nelem)`; `none` for its -1.
mirrors module/nvpair/nvpair.c:719-831 -/
def iGetValueSize (t : DataType) (nelem : ℕ) : Option ℕ :=
  if iValidateTypeNelem t nelem = false then none
  else if int32Max < valueSizeNull t nelem then none
  else some (valueSizeNull t nelem)

/-- The header words of a pair. `nvp_value_elem` is read as the `uint_t`
`nelem` it is passed as. -/
structure NvpHeader where
  size : ℤ
  nameSz : ℤ
  valueElem : ℕ
  type : ℤ

/-- `NVP_VALOFF(nvp)`. -/
def NvpHeader.valoff (h : NvpHeader) : ℕ := nvAlign (16 + h.nameSz.toNat)

def readHeader (b : List UInt8) : Decode NvpHeader := do
  let size ← readLE b 0 4
  let nameSz ← readLE b 4 2
  let elem ← readLE b 8 4
  let type ← readLE b 12 4
  pure ⟨signed 32 size, signed 16 nameSz, elem, signed 32 type⟩

/-- `i_validate_nvpair_name`: `true` for 0.
mirrors module/nvpair/nvpair.c:437-449 -/
def iValidateNvpairName (b : List UInt8) (h : NvpHeader) : Decode Bool :=
  if h.nameSz ≤ 0 ∨ toULong h.size < nvpSizeCalc h.nameSz.toNat 0 then pure false
  else do
    let c ← readByte b (16 + h.nameSz.toNat - 1)
    if c ≠ 0 then pure false
    else do
      let n ← strlenAt b 16
      pure (n = h.nameSz.toNat - 1)

/-- `nvs_embedded` on decode, up to the stream: the packed `nvlist_t` at `o`
must have `nvl_version == NV_VERSION`; its `nvl_nvflag` starts the embedded
list. `none` for `ENOTSUP`.
mirrors module/nvpair/nvpair.c:2169-2182 -/
def embeddedFlag (b : List UInt8) (o : ℕ) : Decode (Option ℕ) := do
  let v ← readLE b o 4
  if signed 32 v ≠ 0 then pure none
  else some <$> readLE b (o + 4) 4

/-- The packed `nvlist_t`s of an nvlist array, from `o`, 24 bytes each; the
first that fails stops the array with `EFAULT`.
mirrors module/nvpair/nvpair.c:2206-2218 -/
def embeddedFlags (b : List UInt8) : ℕ → ℕ → Decode (List ℕ)
  | _, 0 => pure []
  | o, k + 1 => do
    match ← embeddedFlag b o with
    | none => throw .efault
    | some f => return f :: (← embeddedFlags b (o + 24) k)

/-- `nvpair_native_string_array` on decode: `strp[i]` is each string in turn
from the end of the pointer array, the next one `strlen + 1` further on.
mirrors module/nvpair/nvpair.c:2636-2648 -/
def stringArrayFixup (b : List UInt8) : ℕ → ℕ → Decode (List ℕ)
  | _, 0 => pure []
  | o, k + 1 => do
    let n ← strlenAt b o
    return o :: (← stringArrayFixup b (o + n + 1) k)

/-- The type switch of `nvs_native_nvp_op`: the `nvl_nvflag`s of the embedded
lists and the offsets of the strings of a string array. -/
def nvpDescend (b : List UInt8) (h : NvpHeader) (t : DataType) : Decode (List ℕ × List ℕ) :=
  match t with
  | .nvlist => do
    match ← embeddedFlag b h.valoff with
    | none => throw .enotsup
    | some f => pure ([f], [])
  | .nvlistArray => do
    let fs ← embeddedFlags b (h.valoff + h.valueElem * 8) h.valueElem
    pure (fs, [])
  | .stringArray => do
    let strs ← stringArrayFixup b (h.valoff + h.valueElem * 8) h.valueElem
    pure ([], strs)
  | _ => pure ([], [])

/-- `nvs_native_nvp_op` on decode, after `native_cp` copied the pair.
mirrors module/nvpair/nvpair.c:2653-2707 -/
def nvsNativeNvpOp (b : List UInt8) : Decode (NvpHeader × DataType × List ℕ × List ℕ) := do
  let h ← readHeader b
  unless ← iValidateNvpairName b h do throw .efault
  let some t := DataType.ofCode h.type | throw .efault
  let some vs := iGetValueSize t h.valueElem | throw .efault
  if toULong h.size < nvpSizeCalc h.nameSz.toNat vs then throw .efault
  let (fs, strs) ← nvpDescend b h t
  pure (h, t, fs, strs)

/-- The `boolean_t` words of a boolean array, `nelem` of them from `o`. -/
def boolsValid (b : List UInt8) : ℕ → ℕ → Decode Bool
  | _, 0 => pure true
  | o, k + 1 => do
    let v ← readLE b o 4
    if v = 0 ∨ v = 1 then boolsValid b (o + 4) k else pure false

/-- `i_validate_nvpair_value`: `true` for 0.
mirrors module/nvpair/nvpair.c:451-474 -/
def iValidateNvpairValue (b : List UInt8) (t : DataType) (nelem valoff : ℕ) : Decode Bool :=
  match t with
  | .booleanValue => do
    let v ← readLE b valoff 4
    pure (v = 0 ∨ v = 1)
  | .booleanArray => boolsValid b valoff nelem
  | _ => pure true

/-- `i_get_value_size(type, NVP_VALUE(nvp), nelem)`: with the strings, each
measured by `strlen` from the pointer the decoder set.
mirrors module/nvpair/nvpair.c:719-831 -/
def valueSizeData (b : List UInt8) (t : DataType) (nelem valoff : ℕ) (strs : List ℕ) :
    Decode (Option ℕ) :=
  if iValidateTypeNelem t nelem = false then pure none
  else do
    let v ← match t with
      | .string => do
        let n ← strlenAt b valoff
        pure (n + 1)
      | .stringArray => strs.foldlM (fun acc s => do
          let n ← strlenAt b s
          pure (acc + (n + 1))) (nelem * 8)
      | _ => pure (valueSizeNull t nelem)
    pure (if int32Max < v then none else some v)

/-- `i_validate_nvpair`: `true` for 0. `size1` is `nvp_size - NVP_VALOFF`,
which the size check of `nvs_native_nvp_op` keeps non-negative.
mirrors module/nvpair/nvpair.c:476-504 -/
def iValidateNvpair (b : List UInt8) (h : NvpHeader) (t : DataType) (strs : List ℕ) :
    Decode Bool := do
  if !(← iValidateNvpairName b h) then pure false
  else if !(← iValidateNvpairValue b t h.valueElem h.valoff) then pure false
  else
    match ← valueSizeData b t h.valueElem h.valoff strs with
    | none => pure false
    | some vs => pure (decide (h.size.toNat - h.valoff = nvAlign vs))

/-- One pair of `nvs_decode_pairs` from its copied bytes: `nvs_native_nvp_op`
then `i_validate_nvpair`. The type, the element count and the `nvl_nvflag`s
of the embedded lists whose pairs the stream holds next.
mirrors module/nvpair/nvpair.c:2068-2098 -/
def decodeNvpair (b : List UInt8) : Decode (DataType × ℕ × List ℕ) := do
  let (h, t, fs, strs) ← nvsNativeNvpOp b
  unless ← iValidateNvpair b h t strs do throw .efault
  pure (t, h.valueElem, fs)

/-! ## Reads that stay in the pair -/

/-- A decoding that reads nothing past the pair: it may fail, but not there. -/
def NoOutside {α : Type} (x : Decode α) : Prop := ∀ o, x ≠ .error (.outside o)

section NoOutside

variable {α β : Type}

theorem noOutside_pure (a : α) : NoOutside (pure a : Decode α) := nofun

theorem noOutside_throw {e : DecodeFault} (he : ∀ o, e ≠ .outside o) :
    NoOutside (throw e : Decode α) :=
  fun o h => he o (by cases h; rfl)

theorem NoOutside.bind {x : Decode α} {f : α → Decode β} (hx : NoOutside x)
    (hf : ∀ a, x = .ok a → NoOutside (f a)) : NoOutside (x >>= f) := by
  intro o h
  cases hxa : x with
  | error e =>
    rw [hxa] at h
    have h' : (Except.error e : Decode β) = .error (.outside o) := h
    cases h'
    exact hx o hxa
  | ok a =>
    rw [hxa] at h
    exact hf a hxa o h

theorem NoOutside.map {x : Decode α} {f : α → β} (hx : NoOutside x) : NoOutside (f <$> x) := by
  intro o h
  cases hxa : x with
  | error e =>
    rw [hxa] at h
    have h' : (Except.error e : Decode β) = .error (.outside o) := h
    cases h'
    exact hx o hxa
  | ok a =>
    rw [hxa] at h
    cases h

/-- `x` reads nothing past the pair, and what it returns satisfies `P`. -/
def Confined (x : Decode α) (P : α → Prop) : Prop := NoOutside x ∧ ∀ a, x = .ok a → P a

theorem confined_ok {a : α} {P : α → Prop} (h : P a) : Confined (.ok a : Decode α) P :=
  ⟨nofun, fun _ ha => by cases ha; exact h⟩

theorem confined_throw {e : DecodeFault} (he : ∀ o, e ≠ .outside o) {P : α → Prop} :
    Confined (throw e : Decode α) P :=
  ⟨noOutside_throw he, nofun⟩

theorem Confined.bind {x : Decode α} {f : α → Decode β} {P : α → Prop} {Q : β → Prop}
    (hx : Confined x P) (hf : ∀ a, P a → Confined (f a) Q) : Confined (x >>= f) Q := by
  refine ⟨NoOutside.bind hx.1 fun a ha => (hf a (hx.2 a ha)).1, fun c hc => ?_⟩
  cases hxa : x with
  | error e =>
    rw [hxa] at hc
    cases hc
  | ok a =>
    rw [hxa] at hc
    exact (hf a (hx.2 a hxa)).2 c hc

theorem confined_of_noOutside {x : Decode α} (hx : NoOutside x) : Confined x fun _ => True :=
  ⟨hx, fun _ _ => trivial⟩

theorem Confined.noOutside_bind {x : Decode α} {f : α → Decode β} {P : α → Prop}
    (hx : Confined x P) (hf : ∀ a, P a → NoOutside (f a)) : NoOutside (x >>= f) :=
  (hx.bind fun a ha => confined_of_noOutside (hf a ha)).1

theorem confined_throw_bind {e : DecodeFault} (he : ∀ o, e ≠ .outside o) {f : α → Decode β}
    {Q : β → Prop} : Confined (throw e >>= f) Q :=
  Confined.bind (P := fun _ => False) (confined_throw he) fun _ h => h.elim

end NoOutside

theorem readByte_ok {b : List UInt8} {o : ℕ} (h : o < b.length) : readByte b o = .ok b[o] := by
  rw [readByte, List.getElem?_eq_getElem h]
  rfl

theorem readLE_ok {b : List UInt8} : ∀ {o k : ℕ}, o + k ≤ b.length → ∃ v, readLE b o k = .ok v
  | _, 0, _ => ⟨0, rfl⟩
  | o, k + 1, h => by
    obtain ⟨r, hr⟩ := readLE_ok (b := b) (o := o + 1) (k := k) (by omega)
    refine ⟨b[o].toNat + 256 * r, ?_⟩
    rw [readLE, readByte_ok (by omega)]
    show (readLE b (o + 1) k >>= fun r => pure (b[o].toNat + 256 * r)) = _
    rw [hr]
    rfl

theorem noOutside_readLE {b : List UInt8} {o k : ℕ} (h : o + k ≤ b.length) :
    NoOutside (readLE b o k) := by
  obtain ⟨v, hv⟩ := readLE_ok h
  rw [hv]
  exact nofun

theorem strlenList_isSome : ∀ {l : List UInt8}, (0 : UInt8) ∈ l → (strlenList l).isSome
  | [], h => absurd h List.not_mem_nil
  | x :: xs, h => by
    rw [strlenList]
    split
    · rfl
    · rw [List.mem_cons] at h
      rcases h with rfl | h
      · contradiction
      · rw [Option.isSome_map]
        exact strlenList_isSome h

/-- A string with a NUL inside the pair is measured inside it. -/
theorem noOutside_strlenAt {b : List UInt8} {o j : ℕ} (h1 : o ≤ j) (h2 : j < b.length)
    (hz : b[j] = 0) : NoOutside (strlenAt b o) := by
  have hmem : (0 : UInt8) ∈ b.drop o := by
    rw [← hz, List.mem_iff_getElem]
    exact ⟨j - o, by rw [List.length_drop]; omega, by rw [List.getElem_drop]; congr 1; omega⟩
  obtain ⟨n, hn⟩ := Option.isSome_iff_exists.1 (strlenList_isSome hmem)
  rw [strlenAt, hn]
  exact nofun

theorem le_nvAlign (x : ℕ) : x ≤ nvAlign x := by
  unfold nvAlign
  omega

/-- The bytes `native_cp` copies for a pair: `decode_len` of them, which
`nvs_native_nvpair` checked to be a non-negative `int32_t` and
`nvs_decode_pairs` to be at least `NVP_SIZE_CALC(1, 0)`; the pair's own
`nvp_size` word is that `decode_len`. -/
structure Copied (b : List UInt8) : Prop where
  size_word : readLE b 0 4 = .ok b.length
  min_len : 24 ≤ b.length
  lt_int32 : b.length < 2 ^ 31

/-- The type a pair's `nvp_type` word names. -/
def nvpType (b : List UInt8) : Option DataType :=
  match readLE b 12 4 with
  | .ok v => DataType.ofCode (signed 32 v)
  | .error _ => none

theorem toULong_natCast {n : ℕ} (h : n < 2 ^ 64) : toULong n = n := by
  unfold toULong
  rw [Int.emod_eq_of_lt (by omega) (by omega)]
  rfl

theorem readHeader_eq {b : List UInt8} (hb : Copied b) :
    ∃ nameSz elem type, readLE b 12 4 = .ok type ∧
      readHeader b = .ok ⟨b.length, signed 16 nameSz, elem, signed 32 type⟩ := by
  obtain ⟨n, hn⟩ := readLE_ok (b := b) (o := 4) (k := 2) (by have := hb.min_len; omega)
  obtain ⟨e, he⟩ := readLE_ok (b := b) (o := 8) (k := 4) (by have := hb.min_len; omega)
  obtain ⟨t, ht⟩ := readLE_ok (b := b) (o := 12) (k := 4) (by have := hb.min_len; omega)
  have hs : signed 32 b.length = b.length := by
    unfold signed
    rw [if_pos (by have := hb.lt_int32; omega)]
  refine ⟨n, e, t, ht, ?_⟩
  rw [readHeader, hb.size_word, hn, he, ht, ← hs]
  rfl

section Confined

variable {b : List UInt8}

/-- The name check reads inside the pair: the room it checks first holds the
terminator it looks for. -/
theorem noOutside_iValidateNvpairName {hd : NvpHeader} (hb : Copied b) (hs : hd.size = b.length) :
    NoOutside (iValidateNvpairName b hd) := by
  unfold iValidateNvpairName
  split
  · exact noOutside_pure _
  · next hc =>
    rw [not_or, hs, toULong_natCast (by have := hb.lt_int32; omega)] at hc
    obtain ⟨hpos, hroom⟩ := hc
    have hname : 16 + hd.nameSz.toNat - 1 < b.length := by
      unfold nvpSizeCalc at hroom
      have := le_nvAlign (16 + hd.nameSz.toNat)
      omega
    rw [readByte_ok hname]
    refine NoOutside.bind (noOutside_pure _) fun c hc => ?_
    cases hc
    split
    · exact noOutside_pure _
    · next hz =>
      exact NoOutside.bind (noOutside_strlenAt (by omega) hname (not_not.1 hz))
        fun _ _ => noOutside_pure _

theorem noOutside_embeddedFlag {o : ℕ} (h : o + 8 ≤ b.length) : NoOutside (embeddedFlag b o) := by
  refine NoOutside.bind (noOutside_readLE (by omega)) fun v _ => ?_
  split
  · exact noOutside_pure _
  · exact (noOutside_readLE (by omega)).map

theorem noOutside_embeddedFlags : ∀ {o k : ℕ}, o + k * 24 ≤ b.length → NoOutside (embeddedFlags b o k)
  | _, 0, _ => noOutside_pure _
  | o, k + 1, h => by
    refine NoOutside.bind (noOutside_embeddedFlag (by rw [Nat.succ_mul] at h; omega)) fun r _ => ?_
    cases r with
    | none => exact noOutside_throw nofun
    | some f =>
      exact NoOutside.bind (noOutside_embeddedFlags (by rw [Nat.succ_mul] at h; omega))
        fun _ _ => noOutside_pure _

theorem noOutside_boolsValid : ∀ {o k : ℕ}, o + k * 4 ≤ b.length → NoOutside (boolsValid b o k)
  | _, 0, _ => noOutside_pure _
  | o, k + 1, h => by
    refine NoOutside.bind (noOutside_readLE (by rw [Nat.succ_mul] at h; omega)) fun v _ => ?_
    split
    · exact noOutside_boolsValid (by rw [Nat.succ_mul] at h; omega)
    · exact noOutside_pure _

theorem iGetValueSize_eq {t : DataType} {n vs : ℕ} (h : iGetValueSize t n = some vs) :
    vs = valueSizeNull t n := by
  unfold iGetValueSize at h
  split at h
  · cases h
  · split at h
    · cases h
    · exact (Option.some_inj.1 h).symm

/-- The type switch reads inside the room the size check found, for every
type but a string array. -/
theorem noOutside_nvpDescend {hd : NvpHeader} {t : DataType}
    (hroom : hd.valoff + nvAlign (valueSizeNull t hd.valueElem) ≤ b.length) (ht : t ≠ .stringArray) :
    NoOutside (nvpDescend b hd t) := by
  have halign := le_nvAlign (valueSizeNull t hd.valueElem)
  cases t
  case nvlist =>
    refine NoOutside.bind (noOutside_embeddedFlag ?_) fun r _ => ?_
    · simp only [valueSizeNull] at halign hroom
      omega
    · cases r with
      | none => exact noOutside_throw nofun
      | some f => exact noOutside_pure _
  case nvlistArray =>
    refine NoOutside.bind (noOutside_embeddedFlags ?_) fun _ _ => noOutside_pure _
    simp only [valueSizeNull] at halign hroom
    omega
  case stringArray => exact absurd rfl ht
  all_goals exact noOutside_pure _

theorem noOutside_iValidateNvpairValue {t : DataType} {nelem valoff : ℕ}
    (hroom : valoff + nvAlign (valueSizeNull t nelem) ≤ b.length) :
    NoOutside (iValidateNvpairValue b t nelem valoff) := by
  have halign := le_nvAlign (valueSizeNull t nelem)
  cases t
  case booleanValue =>
    refine NoOutside.bind (noOutside_readLE ?_) fun _ _ => noOutside_pure _
    simp only [valueSizeNull] at halign hroom
    omega
  case booleanArray =>
    refine noOutside_boolsValid ?_
    simp only [valueSizeNull] at halign hroom
    omega
  all_goals exact noOutside_pure _

/-- Without strings, the value size of `i_validate_nvpair` reads nothing. -/
theorem noOutside_valueSizeData {t : DataType} {nelem valoff : ℕ} {strs : List ℕ}
    (h1 : t ≠ .string) (h2 : t ≠ .stringArray) :
    NoOutside (valueSizeData b t nelem valoff strs) := by
  unfold valueSizeData
  split
  · exact noOutside_pure _
  · -- the join point of the type switch is the range check on the size
    dsimp only
    cases t
    case string => exact absurd rfl h1
    case stringArray => exact absurd rfl h2
    all_goals exact NoOutside.bind (noOutside_pure _) fun _ _ => noOutside_pure _

theorem noOutside_iValidateNvpair {hd : NvpHeader} {t : DataType} {strs : List ℕ} (hb : Copied b)
    (hs : hd.size = b.length)
    (hroom : hd.valoff + nvAlign (valueSizeNull t hd.valueElem) ≤ b.length)
    (h1 : t ≠ .string) (h2 : t ≠ .stringArray) : NoOutside (iValidateNvpair b hd t strs) := by
  refine NoOutside.bind (noOutside_iValidateNvpairName hb hs) fun c _ => ?_
  split
  · exact noOutside_pure _
  · refine NoOutside.bind (noOutside_iValidateNvpairValue hroom) fun c' _ => ?_
    split
    · exact noOutside_pure _
    · refine NoOutside.bind (noOutside_valueSizeData h1 h2) fun r _ => ?_
      cases r <;> exact noOutside_pure _

/-- What `nvs_native_nvp_op` returns for a pair that is not a string array:
it read inside the pair, and its size check left room for the value. -/
theorem confined_nvsNativeNvpOp (hb : Copied b) (ht : nvpType b ≠ some .stringArray) :
    Confined (nvsNativeNvpOp b) fun r => r.1.size = b.length ∧ nvpType b = some r.2.1 ∧
      r.1.valoff + nvAlign (valueSizeNull r.2.1 r.1.valueElem) ≤ b.length := by
  obtain ⟨n, e, ty, hty, hhdr⟩ := readHeader_eq hb
  unfold nvsNativeNvpOp
  rw [hhdr]
  refine Confined.bind (confined_ok (P := fun hd => hd = _) rfl) fun hd hhd => ?_
  subst hhd
  refine Confined.bind (confined_of_noOutside (noOutside_iValidateNvpairName hb rfl)) fun c _ => ?_
  have hsz : toULong (b.length : ℤ) = b.length := toULong_natCast (by have := hb.lt_int32; omega)
  dsimp only
  split
  case isFalse => exact confined_throw_bind (e := .efault) nofun
  -- the type code, then its value size, then the size check
  split
  case h_2 => exact confined_throw (e := .efault) nofun
  next t htype =>
  have hnvp : nvpType b = some t := by
    unfold nvpType
    rw [hty]
    exact htype
  split
  case h_2 => exact confined_throw (e := .efault) nofun
  next vs hvs =>
  split
  case isTrue => exact confined_throw_bind (e := .efault) nofun
  next hcheck =>
  have hroom : NvpHeader.valoff ⟨b.length, signed 16 n, e, signed 32 ty⟩ +
      nvAlign (valueSizeNull t e) ≤ b.length := by
    rw [hsz, iGetValueSize_eq hvs] at hcheck
    unfold nvpSizeCalc at hcheck
    unfold NvpHeader.valoff
    dsimp only
    omega
  have harr : t ≠ .stringArray := fun h => ht (h ▸ hnvp)
  refine Confined.bind (confined_of_noOutside (noOutside_nvpDescend hroom harr)) fun r _ => ?_
  exact confined_ok ⟨rfl, hnvp, hroom⟩

end Confined

/-- Decoding a copied pair reads past it only for a string or a string array:
every other type's reads stay inside the room `nvs_native_nvp_op` checked. -/
theorem decodeNvpair_outside (hb : Copied b) {o : ℕ} (h : decodeNvpair b = .error (.outside o)) :
    nvpType b = some .string ∨ nvpType b = some .stringArray := by
  by_contra hne
  obtain ⟨h1, h2⟩ := not_or.1 hne
  have hno : NoOutside (decodeNvpair b) := by
    refine (confined_nvsNativeNvpOp hb h2).noOutside_bind fun r hr => ?_
    obtain ⟨hd, t, fs, strs⟩ := r
    obtain ⟨hs, ht, hroom⟩ := hr
    have hstr : t ≠ .string := fun h => h1 (h ▸ ht)
    have harr : t ≠ .stringArray := fun h => h2 (h ▸ ht)
    refine NoOutside.bind (noOutside_iValidateNvpair hb hs hroom hstr harr) fun c _ => ?_
    dsimp only
    split
    · exact noOutside_pure _
    · exact NoOutside.bind (noOutside_throw (e := .efault) nofun) fun _ _ => noOutside_pure _
  exact hno o h

/-- `"a"`, a string array of one element, in 32 bytes: room for the pointer
and none for the string. -/
theorem string_array_reads_past_pair :
    decodeNvpair [32, 0, 0, 0, 2, 0, 0, 0, 1, 0, 0, 0, 17, 0, 0, 0,
      97, 0, 0, 0, 0, 0, 0, 0, 0, 0, 0, 0, 0, 0, 0, 0] = .error (.outside 32) := by
  rfl

end ZfsOsx.Nvpair
